import Mathlib.Data.List.Basic
import Mathlib.Tactic.SplitIfs

/-!
# Reading tokens

A reader is a function `scan` that takes the next token off a state.  `Reads ts c c'` says that from
`c` on the tokens `ts` are read, and that reading then goes on as from `c'`; the two states need not
be equal, since what lies before the next token (blanks, for example) does not matter.

One token, `bad`, stands for input that cannot be read.  A reader that returns it without moving is
stuck, and what a token list holds after it is never reached; so a list with a `bad` in it is read
as far as that.  With this `Reads` composes (`Reads.append`) whether or not there is bad input.

Two states are `Alike` if the same tokens are read from both, one after the other.  A program that
looks at its input through `scan` only cannot tell them apart.
-/

namespace TokenReader

variable {σ τ : Type*} {scan : σ → τ × σ} {bad : τ}

/-- Reading a list of tokens. -/
inductive Reads (scan : σ → τ × σ) (bad : τ) : List τ → σ → σ → Prop
  | done {c c' : σ} : scan c = scan c' → Reads scan bad [] c c'
  | token {t : τ} {ts : List τ} {c d c' : σ} : t ≠ bad → scan c = (t, d) →
      Reads scan bad ts d c' → Reads scan bad (t :: ts) c c'
  | stuck {ts : List τ} {c d c' : σ} : scan c = (bad, d) → scan d = (bad, d) →
      Reads scan bad (bad :: ts) c c'

/-- Only what is scanned matters. -/
theorem Reads.congr_left {ts : List τ} {c d c' : σ} (h : Reads scan bad ts c c')
    (hcd : scan d = scan c) : Reads scan bad ts d c' := by
  cases h with
  | done h => exact .done (hcd.trans h)
  | token hne hs h => exact .token hne (hcd.trans hs) h
  | stuck hs hd => exact .stuck (hcd.trans hs) hd

/-- **Reading one list after another.** -/
theorem Reads.append {ts us : List τ} {c d c' : σ} (h : Reads scan bad ts c d)
    (h' : Reads scan bad us d c') : Reads scan bad (ts ++ us) c c' := by
  induction h with
  | done h => exact h'.congr_left h
  | token hne hs _ ih => exact .token hne hs (ih h')
  | stuck hs hd => exact .stuck hs hd

/-- The first token of a list. -/
theorem Reads.head {t : τ} {ts : List τ} {c c' : σ} (h : Reads scan bad (t :: ts) c c')
    (hne : t ≠ bad) : ∃ d, scan c = (t, d) ∧ Reads scan bad ts d c' := by
  cases h with
  | token _ hs h => exact ⟨_, hs, h⟩
  | stuck hs hd => exact absurd rfl hne

/-- At bad input the reader stays. -/
theorem Reads.bad_head {ts : List τ} {c c' : σ} (h : Reads scan bad (bad :: ts) c c') :
    ∃ d, scan c = (bad, d) ∧ scan d = (bad, d) := by
  cases h with
  | token hne _ _ => exact absurd rfl hne
  | stuck hs hd => exact ⟨_, hs, hd⟩

/-- The state behind a list of tokens, if they are there. -/
def skipTokens [DecidableEq τ] (scan : σ → τ × σ) : List τ → σ → Option σ
  | [], c => some c
  | t :: ts, c => if (scan c).1 = t then skipTokens scan ts (scan c).2 else none

/-- Tokens that can be skipped one by one are read. -/
theorem reads_of_skipTokens [DecidableEq τ] {ts : List τ} {c c' : σ} (hbad : bad ∉ ts)
    (h : skipTokens scan ts c = some c') : Reads scan bad ts c c' := by
  induction ts generalizing c with
  | nil =>
    obtain rfl := Option.some.inj h
    exact .done rfl
  | cons t ts ih =>
    rw [skipTokens] at h
    split_ifs at h with ht
    obtain ⟨hne, hrest⟩ := not_or.mp fun hmem => hbad (List.mem_cons.mpr hmem)
    exact .token (Ne.symm hne) (Prod.ext ht rfl) (ih hrest h)

/-! ### States that cannot be told apart -/

/-- The token behind the next `n`. -/
def tokenAt (scan : σ → τ × σ) : Nat → σ → τ
  | 0, c => (scan c).1
  | n + 1, c => tokenAt scan n (scan c).2

/-- The same tokens are read from both. -/
def Alike (scan : σ → τ × σ) (c d : σ) : Prop := ∀ n, tokenAt scan n c = tokenAt scan n d

theorem Alike.refl (c : σ) : Alike scan c c := fun _ => rfl

theorem Alike.symm {c d : σ} (h : Alike scan c d) : Alike scan d c := fun n => (h n).symm

theorem Alike.trans {c d e : σ} (h : Alike scan c d) (h' : Alike scan d e) : Alike scan c e :=
  fun n => (h n).trans (h' n)

/-- **One token** is read from both, and then they are alike again. -/
theorem Alike.exists_scan {c d : σ} (h : Alike scan c d) :
    ∃ t c' d', scan c = (t, c') ∧ scan d = (t, d') ∧ Alike scan c' d' := by
  have ht : (scan c).1 = (scan d).1 := h 0
  exact ⟨(scan c).1, (scan c).2, (scan d).2, rfl, Prod.ext ht.symm rfl, fun n => h (n + 1)⟩

theorem alike_of_scan {c d c' d' : σ} {t : τ} (hc : scan c = (t, c')) (hd : scan d = (t, d'))
    (h : Alike scan c' d') : Alike scan c d := by
  intro n
  cases n with
  | zero => rw [tokenAt, tokenAt, hc, hd]
  | succ n =>
    rw [tokenAt, tokenAt, hc, hd]
    exact h n

theorem alike_of_scan_eq {c d : σ} (h : scan c = scan d) : Alike scan c d :=
  alike_of_scan h rfl (.refl _)

end TokenReader
