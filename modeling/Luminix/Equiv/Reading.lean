import Luminix.Equiv.Progress
import Luminix.Equiv.Rounds
import Luminix.Equiv.Wire

/-!
# How the reader reads tokens

`Parses f toks res` says what a parser `f` makes of a text that starts with the tokens `toks`: with
`res = some s` it returns `s` and goes on behind them, with `res = none` the load fails.  A value
that cannot be read does not fail at once: the parser of a value accepts the bad token, and the loop
around it then misses its comma (`Yields.stuck`).

The loops over objects and arrays are read part by part (`parses_members`, `parses_elements`), and a
skipped value may be any nesting of arrays and objects (`Skips`).
-/

namespace Luminix

open CLib TokenReader

variable {σ : Type}

/-! ### Outcomes -/

/-- How a parser ends that is to go on with `rest` until `l'`. -/
inductive Yields (rest : List JsonToken) (l' : List UInt8) :
    Option σ → Except Failure (σ × List UInt8) → Prop
  | done {s : σ} {l : List UInt8} : Reads jsonParseToken .none rest l l' →
      Yields rest l' (some s) (.ok (s, l))
  | stuck {s : σ} {l : List UInt8} : (jsonParseToken l).1 = .none → Yields rest l' none (.ok (s, l))
  | failed {e : ErrorCode} : Yields rest l' none (.error (.code e))

/-- How a loop ends: it never returns in front of a bad token. -/
inductive Settles (rest : List JsonToken) (l' : List UInt8) :
    Option σ → Except Failure (σ × List UInt8) → Prop
  | done {s : σ} {l : List UInt8} : Reads jsonParseToken .none rest l l' →
      Settles rest l' (some s) (.ok (s, l))
  | failed {e : ErrorCode} : Settles rest l' none (.error (.code e))

theorem Settles.yields {rest : List JsonToken} {l' : List UInt8} {res : Option σ}
    {r : Except Failure (σ × List UInt8)} (h : Settles rest l' res r) : Yields rest l' res r := by
  cases h with
  | done hrest => exact .done hrest
  | failed => exact .failed

/-- The parser reads `toks` with the result `res`. -/
def Parses (f : List UInt8 → Except Failure (σ × List UInt8)) (toks : List JsonToken)
    (res : Option σ) : Prop :=
  ∀ rest l l', Reads jsonParseToken .none (toks ++ rest) l l' → Yields rest l' res (f l)

/-! ### Objects -/

/-- A member of an object: its key, the token after the key, the tokens of its value, and what
reading it does. -/
structure Part (σ : Type) where
  key : CString
  next : JsonToken
  tokens : List JsonToken
  step : σ → Option σ

/-- A member whose key is followed by a colon. -/
def Part.of (key : CString) (tokens : List JsonToken) (step : σ → Option σ) : Part σ :=
  ⟨key, .colon, tokens, step⟩

/-- Reading one member after another. -/
def runParts (ms : List (Part σ)) (s : σ) : Option σ := ms.foldlM (fun s m => m.step s) s

@[simp] theorem runParts_nil (s : σ) : runParts [] s = some s := rfl

@[simp] theorem runParts_cons (m : Part σ) (ms : List (Part σ)) (s : σ) :
    runParts (m :: ms) s = (m.step s).bind (runParts ms) := List.foldlM_cons

/-- The member is read as it says, or fails after its key. -/
def Part.ReadBy (m : Part σ) (member : CString → σ → List UInt8 → Except Failure (σ × List UInt8)) :
    Prop :=
  (m.next = .colon ∧ ∀ s, Parses (member m.key s) m.tokens (m.step s)) ∨
    (m.next = .none ∧ ∀ s, m.step s = none)

theorem Part.readBy_of {member : CString → σ → List UInt8 → Except Failure (σ × List UInt8)}
    {key : CString} {tokens : List JsonToken} {step : σ → Option σ}
    (h : ∀ s, Parses (member key s) tokens (step s)) : (Part.of key tokens step).ReadBy member :=
  .inl ⟨rfl, h⟩

/-- The members of an object, after its `{`. -/
def partsTail (ms : List (Part σ)) : List JsonToken :=
  objectTail (ms.map fun m => .string m.key :: m.next :: m.tokens)

/-- What follows a member: the end of the object, or a comma and the members that are left. -/
def afterPart (ms : List (Part σ)) : List JsonToken :=
  match ms with
  | [] => [.objectEnd]
  | m :: ms => .comma :: partsTail (m :: ms)

theorem partsTail_cons (m : Part σ) (ms : List (Part σ)) :
    partsTail (m :: ms) = .string m.key :: m.next :: (m.tokens ++ afterPart ms) := by
  cases ms with
  | nil => rfl
  | cons m' ms => simp [partsTail, objectTail, sepBy, afterPart]

/-- **The loop over an object** reads its members one by one. -/
theorem parses_members {member : CString → σ → List UInt8 → Except Failure (σ × List UInt8)}
    (hsteady : ∀ key s l, Steady l.length (member key s l)) (ms : List (Part σ))
    (hms : ∀ m ∈ ms, m.ReadBy member) {fuel : Nat} {rest : List JsonToken} (s : σ)
    {l l' : List UInt8} (hl : l.length < fuel)
    (h : Reads jsonParseToken .none (partsTail ms ++ rest) l l') :
    Settles rest l' (runParts ms s) (parseMembers member fuel s l) := by
  induction ms generalizing fuel s l with
  | nil =>
    obtain ⟨l₁, h1, hrest⟩ := h.head (by simp)
    cases fuel with
    | zero => exact absurd hl (Nat.not_lt_zero _)
    | succ fuel =>
      rw [parseMembers, h1]
      exact .done hrest
  | cons m ms ih =>
    rw [partsTail_cons, List.cons_append, List.cons_append, List.append_assoc] at h
    obtain ⟨l₁, hkey, h⟩ := h.head (by simp)
    have h1 := length_parseToken_lt hkey (by simp) (by simp)
    cases fuel with
    | zero => exact absurd hl (Nat.not_lt_zero _)
    | succ fuel =>
      rw [parseMembers, hkey, runParts_cons]
      dsimp only
      rcases hms m List.mem_cons_self with ⟨hnext, hread⟩ | ⟨hnext, hnone⟩
      · rw [hnext] at h
        obtain ⟨l₂, hcolon, h⟩ := h.head (by simp)
        have h2 := length_of_parseToken hcolon
        have hvalue := hread s _ l₂ l' h
        have hsteadyValue := hsteady m.key s l₂
        rw [hcolon]
        dsimp only
        generalize m.step s = res at hvalue
        generalize member m.key s l₂ = r at hvalue hsteadyValue
        cases hvalue with
        | @done s' l₃ hrest =>
          have h3 : l₃.length ≤ l₂.length := hsteadyValue
          cases ms with
          | nil =>
            obtain ⟨l₄, hend, hrest⟩ := hrest.head (by simp)
            dsimp only
            rw [hend]
            exact .done hrest
          | cons m' ms =>
            obtain ⟨l₄, hcomma, hrest⟩ := hrest.head (by simp)
            have h4 := length_of_parseToken hcomma
            dsimp only
            rw [hcomma]
            exact ih (fun x hx => hms x (List.mem_cons_of_mem m hx)) s' (by omega) hrest
        | @stuck s' l₃ hnone =>
          -- The value was accepted, but no comma follows it.
          obtain ⟨l₄, h4⟩ : ∃ l₄, jsonParseToken l₃ = (.none, l₄) := ⟨_, Prod.ext hnone rfl⟩
          dsimp only
          rw [h4]
          exact .failed
        | failed => exact .failed
      · -- The key was read, but no colon follows it.
        rw [hnext] at h
        obtain ⟨l₂, h2, -⟩ := h.bad_head
        rw [h2, hnone]
        exact .failed

/-! ### Arrays -/

/-- An element of an array: its tokens after the `{`, and what reading it does. -/
structure Item (σ : Type) where
  tokens : List JsonToken
  step : σ → Option σ

/-- Reading one element after another. -/
def runItems (is : List (Item σ)) (s : σ) : Option σ := is.foldlM (fun s i => i.step s) s

@[simp] theorem runItems_nil (s : σ) : runItems [] s = some s := rfl

@[simp] theorem runItems_cons (i : Item σ) (is : List (Item σ)) (s : σ) :
    runItems (i :: is) s = (i.step s).bind (runItems is) := List.foldlM_cons

/-- The elements of an array, after its `[`. -/
def itemsTail (is : List (Item σ)) : List JsonToken :=
  arrayTail (is.map fun i => .objectStart :: i.tokens)

/-- What follows an element. -/
def afterItem (is : List (Item σ)) : List JsonToken :=
  match is with
  | [] => [.arrayEnd]
  | i :: is => .comma :: itemsTail (i :: is)

theorem itemsTail_cons (i : Item σ) (is : List (Item σ)) :
    itemsTail (i :: is) = .objectStart :: (i.tokens ++ afterItem is) := by
  cases is with
  | nil => rfl
  | cons i' is => simp [itemsTail, arrayTail, sepBy, afterItem]

/-- **The loop over an array** reads its elements one by one. -/
theorem parses_elements {element : σ → List UInt8 → Except Failure (σ × List UInt8)}
    (hsteady : ∀ s l, Steady l.length (element s l)) (is : List (Item σ))
    (his : ∀ i ∈ is, ∀ s, Parses (element s) i.tokens (i.step s)) {fuel : Nat}
    {rest : List JsonToken} (s : σ) {l l' : List UInt8} (hl : l.length < fuel)
    (h : Reads jsonParseToken .none (itemsTail is ++ rest) l l') :
    Settles rest l' (runItems is s) (parseElements element fuel s l) := by
  induction is generalizing fuel s l with
  | nil =>
    obtain ⟨l₁, h1, hrest⟩ := h.head (by simp)
    cases fuel with
    | zero => exact absurd hl (Nat.not_lt_zero _)
    | succ fuel =>
      rw [parseElements, h1]
      exact .done hrest
  | cons i is ih =>
    rw [itemsTail_cons, List.cons_append, List.append_assoc] at h
    obtain ⟨l₁, hstart, h⟩ := h.head (by simp)
    have h1 := length_parseToken_lt hstart (by simp) (by simp)
    have hvalue := his i List.mem_cons_self s _ l₁ l' h
    have hsteadyValue := hsteady s l₁
    cases fuel with
    | zero => exact absurd hl (Nat.not_lt_zero _)
    | succ fuel =>
      rw [parseElements, hstart, runItems_cons]
      dsimp only
      generalize i.step s = res at hvalue
      generalize element s l₁ = r at hvalue hsteadyValue
      -- as for the members of an object: read, stuck before the comma, or failed
      cases hvalue with
      | @done s' l₂ hrest =>
        have h2 : l₂.length ≤ l₁.length := hsteadyValue
        cases is with
        | nil =>
          obtain ⟨l₃, hend, hrest⟩ := hrest.head (by simp)
          dsimp only
          rw [hend]
          exact .done hrest
        | cons i' is =>
          obtain ⟨l₃, hcomma, hrest⟩ := hrest.head (by simp)
          have h3 := length_of_parseToken hcomma
          dsimp only
          rw [hcomma]
          exact ih (fun x hx => his x (List.mem_cons_of_mem i hx)) s' (by omega) hrest
      | @stuck s' l₂ hnone =>
        obtain ⟨l₃, h3⟩ : ∃ l₃, jsonParseToken l₂ = (.none, l₃) := ⟨_, Prod.ext hnone rfl⟩
        dsimp only
        rw [h3]
        exact .failed
      | failed => exact .failed

/-! ### Skipped values -/

/-- The token starts a value. -/
def startsValue : JsonToken → Bool
  | .objectStart | .arrayStart | .string _ | .number _ | .boolean _ | .null => true
  | _ => false

/-- The tokens are a value, which `json_skip_token_value` goes over. -/
structure Skips (toks : List JsonToken) : Prop where
  head : ∃ t ts, toks = t :: ts ∧ startsValue t = true
  skip : ∀ fuel rest l l', (jsonParseToken l).2.length < fuel →
    Reads jsonParseToken .none (toks ++ rest) l l' →
    ∃ l₁, jsonSkipTokenValue fuel (jsonParseToken l).1 (jsonParseToken l).2 = some (.success, l₁) ∧
      Reads jsonParseToken .none rest l₁ l'

/-- A string, a number or a word is one token. -/
theorem skips_token {t : JsonToken} (h : startsValue t = true) (hobject : t ≠ .objectStart)
    (harray : t ≠ .arrayStart) : Skips [t] := by
  refine ⟨⟨t, [], rfl, h⟩, fun fuel rest l l' hl hreads => ?_⟩
  have hne : t ≠ .none := by
    rintro rfl
    cases h
  obtain ⟨l₁, ht, hrest⟩ := hreads.head hne
  rw [ht] at hl ⊢
  refine ⟨l₁, ?_, hrest⟩
  cases fuel with
  | zero => exact absurd hl (Nat.not_lt_zero _)
  | succ fuel =>
    cases t
    case objectStart => exact absurd rfl hobject
    case arrayStart => exact absurd rfl harray
    all_goals rfl

/-- A value within a loop, with what follows it. -/
theorem Skips.inner {toks : List JsonToken} (h : Skips toks) {fuel : Nat} {rest : List JsonToken}
    {l l' : List UInt8} (hl : l.length ≤ fuel)
    (hreads : Reads jsonParseToken .none (toks ++ rest) l l') :
    ∃ t l₁ l₂, jsonParseToken l = (t, l₁) ∧ startsValue t = true ∧
      jsonSkipTokenValue fuel t l₁ = some (.success, l₂) ∧ l₂.length < l.length ∧
      Reads jsonParseToken .none rest l₂ l' := by
  have hskips := h.skip fuel rest l l'
  obtain ⟨t, ts, rfl, ht⟩ := h.head
  have hne : t ≠ .none := by
    rintro rfl
    cases ht
  have heof : t ≠ .eof := by
    rintro rfl
    cases ht
  obtain ⟨l₁, h1, -⟩ := Reads.head hreads hne
  have hlt := length_parseToken_lt h1 hne heof
  rw [h1] at hskips
  have hfuel : l₁.length < fuel := by omega
  obtain ⟨l₂, hskip, hrest⟩ := hskips hfuel hreads
  obtain ⟨e, l₃, he, h3⟩ := jsonSkipTokenValue_some fuel t l₁ hfuel
  rw [hskip, Option.some.injEq, Prod.mk.injEq] at he
  obtain ⟨-, rfl⟩ := he
  exact ⟨t, l₁, l₂, h1, ht, hskip, by omega, hrest⟩

theorem isItem_of_startsValue {t : JsonToken} (h : startsValue t = true) : IsItem t := by
  refine ⟨?_, ?_, ?_⟩ <;>
  · rintro rfl
    cases h

/-- An array of values is skipped. -/
theorem skips_array {items : List (List JsonToken)} (h : ∀ x ∈ items, Skips x) :
    Skips (.arrayStart :: arrayTail items) := by
  -- The loop, after the opening bracket.
  have hloop : ∀ fuel rest l l', l.length < fuel →
      Reads jsonParseToken .none (arrayTail items ++ rest) l l' →
      ∃ l₁, jsonSkipTokenValue fuel .arrayStart l = some (.success, l₁) ∧
        Reads jsonParseToken .none rest l₁ l' := by
    induction items with
    | nil =>
      intro fuel rest l l' hl hreads
      obtain ⟨l₁, h1, hrest⟩ := hreads.head (by simp)
      cases fuel with
      | zero => exact absurd hl (Nat.not_lt_zero _)
      | succ fuel =>
        rw [jsonSkipTokenValue, h1]
        exact ⟨l₁, rfl, hrest⟩
    | cons x items ih =>
      intro fuel rest l l' hl hreads
      -- behind the first item the array ends, or goes on with a comma
      obtain ⟨k, hk⟩ : ∃ k, arrayTail (x :: items) = x ++ k ∧
          (k = [.arrayEnd] ∨ k = .comma :: arrayTail items) := by
        cases items with
        | nil => exact ⟨_, rfl, .inl rfl⟩
        | cons y items =>
          refine ⟨.comma :: arrayTail (y :: items), ?_, .inr rfl⟩
          simp [arrayTail, sepBy]
      rw [hk.1, List.append_assoc] at hreads
      cases fuel with
      | zero => exact absurd hl (Nat.not_lt_zero _)
      | succ fuel =>
        obtain ⟨t, l₁, l₂, h1, ht, hskip, hlt, hrest⟩ :=
          (h x List.mem_cons_self).inner (Nat.le_of_lt_succ hl) hreads
        rw [skip_item (isItem_of_startsValue ht) h1, hskip]
        rcases hk.2 with rfl | rfl
        · obtain ⟨l₄, h4, hrest⟩ := hrest.head (by simp)
          rw [afterSkipped_close (by simp) h4]
          exact ⟨l₄, rfl, hrest⟩
        · obtain ⟨l₄, h4, hrest⟩ := hrest.head (by simp)
          rw [afterSkipped_comma h4]
          have hl4 := length_of_parseToken h4
          exact ih (fun y hy => h y (List.mem_cons_of_mem x hy)) fuel rest l₄ l' (by omega) hrest
  refine ⟨⟨_, _, rfl, rfl⟩, fun fuel rest l l' hl hreads => ?_⟩
  obtain ⟨l₁, h1, hreads⟩ := hreads.head (by simp)
  rw [h1] at hl ⊢
  exact hloop fuel rest l₁ l' hl hreads

/-- An object of values is skipped. -/
theorem skips_object (ms : List (CString × List JsonToken)) (h : ∀ m ∈ ms, Skips m.2) :
    Skips (.objectStart :: objectTail (ms.map fun m => memberTokens m.1 m.2)) := by
  have hloop : ∀ fuel rest l l', l.length < fuel →
      Reads jsonParseToken .none (objectTail (ms.map fun m => memberTokens m.1 m.2) ++ rest) l l' →
      ∃ l₁, jsonSkipTokenValue fuel .objectStart l = some (.success, l₁) ∧
        Reads jsonParseToken .none rest l₁ l' := by
    induction ms with
    | nil =>
      intro fuel rest l l' hl hreads
      obtain ⟨l₁, h1, hrest⟩ := hreads.head (by simp)
      cases fuel with
      | zero => exact absurd hl (Nat.not_lt_zero _)
      | succ fuel =>
        rw [jsonSkipTokenValue, h1]
        exact ⟨l₁, rfl, hrest⟩
    | cons m ms ih =>
      intro fuel rest l l' hl hreads
      -- behind the first member the object ends, or goes on with a comma
      obtain ⟨k, hk⟩ : ∃ k, objectTail ((m :: ms).map fun m => memberTokens m.1 m.2) =
          .string m.1 :: .colon :: (m.2 ++ k) ∧ (k = [.objectEnd] ∨
            k = .comma :: objectTail (ms.map fun m => memberTokens m.1 m.2)) := by
        cases ms with
        | nil => exact ⟨_, rfl, .inl rfl⟩
        | cons m' ms =>
          refine ⟨.comma :: objectTail ((m' :: ms).map fun m => memberTokens m.1 m.2), ?_, .inr rfl⟩
          simp [objectTail, sepBy, memberTokens]
      rw [hk.1, List.cons_append, List.cons_append, List.append_assoc] at hreads
      obtain ⟨l₁, h1, hreads⟩ := hreads.head (by simp)
      obtain ⟨l₂, h2, hreads⟩ := hreads.head (by simp)
      have hl1 := length_parseToken_lt h1 (by simp) (by simp)
      have hl2 := length_of_parseToken h2
      cases fuel with
      | zero => exact absurd hl (Nat.not_lt_zero _)
      | succ fuel =>
        obtain ⟨t, l₃, l₄, h3, -, hskip, hl4, hrest⟩ :=
          (h m List.mem_cons_self).inner (by omega : l₂.length ≤ fuel) hreads
        rw [skip_member h1 h2, h3, hskip]
        rcases hk.2 with rfl | rfl
        · obtain ⟨l₅, h5, hrest⟩ := hrest.head (by simp)
          rw [afterSkipped_close (by simp) h5]
          exact ⟨l₅, rfl, hrest⟩
        · obtain ⟨l₅, h5, hrest⟩ := hrest.head (by simp)
          rw [afterSkipped_comma h5]
          have hl5 := length_of_parseToken h5
          exact ih (fun y hy => h y (List.mem_cons_of_mem m hy)) fuel rest l₅ l' (by omega) hrest
  refine ⟨⟨_, _, rfl, rfl⟩, fun fuel rest l l' hl hreads => ?_⟩
  obtain ⟨l₁, h1, hreads⟩ := hreads.head (by simp)
  rw [h1] at hl ⊢
  exact hloop fuel rest l₁ l' hl hreads

/-- A member whose value is skipped. -/
theorem parses_skipValue {toks : List JsonToken} (h : Skips toks) (s : σ) :
    Parses (fun l => (skipValue l).map fun l => (s, l)) toks (some s) := by
  intro rest l l' hreads
  have hle := length_parseToken_le l
  obtain ⟨l₁, hskip, hrest⟩ := h.skip (l.length + 1) rest l l' (by omega) hreads
  show Yields rest l' (some s) ((skipValue l).map fun l => (s, l))
  rw [skipValue, hskip]
  exact .done hrest

end Luminix
