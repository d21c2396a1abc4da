import Luminix.Equiv.Compress
import Luminix.Json.Pretty

/-!
# Pretty printing and its buffer

`printed` is the text with indentation that no buffer cuts short.  `json_pretty_print` follows it as
long as what it prints fits.  The bound of its loop is asked for once in a round, but a round writes
several bytes, so it leaves the buffer exactly if it gets to a character that does not find room
(`pretty_inBuffer_iff`).
-/

namespace Luminix

open CLib

/-! ### Printing without a buffer -/

/-- Where the loop is in the text: `level`, `in_string` and `escaped`. -/
structure PrettyMode where
  level : Int
  inString : Bool
  escaped : Bool

namespace PrettyMode

/-- At the beginning of a text. -/
def start : PrettyMode := ⟨0, false, false⟩

/-- Behind one more character. -/
def next (m : PrettyMode) (c : UInt8) : PrettyMode :=
  if m.inString then ⟨m.level, m.escaped || c != 34, c == 92 && !m.escaped⟩
  else if c = 123 ∨ c = 91 then ⟨m.level + 1, false, m.escaped⟩
  else if c = 125 ∨ c = 93 then ⟨m.level - 1, false, m.escaped⟩
  else ⟨m.level, c == 34, m.escaped⟩

/-- A new line with its indentation. -/
def lineBreak (indent level : Int) : List UInt8 :=
  10 :: List.replicate (indentWidth level indent) 32

/-- What a character is printed as. -/
def piece (indent : Int) (m : PrettyMode) (c : UInt8) : List UInt8 :=
  if m.inString then [c]
  else if c = 123 ∨ c = 91 then c :: lineBreak indent (m.level + 1)
  else if c = 125 ∨ c = 93 then lineBreak indent (m.level - 1) ++ [c]
  else if c = 44 then c :: lineBreak indent m.level
  else if c = 58 then [c, 32]
  else [c]

/-- How many bytes a character takes however full the buffer is: an indentation is cut short, but
what stands behind it is printed all the same. -/
def room (indent : Int) (m : PrettyMode) (c : UInt8) : Nat :=
  if m.inString then 1
  else if c = 123 ∨ c = 91 then 2
  else if c = 125 ∨ c = 93 then indentWidth (m.level - 1) indent + 2
  else if c = 44 then 2
  else if c = 58 then 2
  else 1

end PrettyMode

open PrettyMode

/-- **The text with indentation.** -/
def printed (indent : Int) : PrettyMode → List UInt8 → List UInt8
  | _, [] => []
  | m, c :: l => m.piece indent c ++ printed indent (m.next c) l

/-- Where the loop is behind a text. -/
def PrettyMode.after (m : PrettyMode) (l : List UInt8) : PrettyMode := l.foldl PrettyMode.next m

theorem printed_append (indent : Int) (m : PrettyMode) (l r : List UInt8) :
    printed indent m (l ++ r) = printed indent m l ++ printed indent (m.after l) r := by
  induction l generalizing m with
  | nil => rfl
  | cons c l ih =>
    rw [List.cons_append, printed, ih, printed, List.append_assoc]
    rfl

theorem room_le_length_piece (indent : Int) (m : PrettyMode) (c : UInt8) :
    m.room indent c ≤ (m.piece indent c).length := by
  unfold room piece lineBreak
  split_ifs <;> simp_all

/-! ### One round -/

def PrettyState.mode (s : PrettyState) : PrettyMode := ⟨s.level, s.inString, s.escaped⟩

variable {bound : Nat} {indent : Int}

theorem putBlanks_eq (n : Nat) (out : List UInt8) :
    putBlanks bound n out = out ++ List.replicate (min n (bound - out.length)) 32 := by
  induction n generalizing out with
  | zero => simp [putBlanks]
  | succ n ih =>
    rw [putBlanks]
    split_ifs with h
    · rw [ih, List.length_append, List.length_singleton, List.append_assoc, List.singleton_append,
        ← List.replicate_succ]
      congr 2
      omega
    · have hzero : bound - out.length = 0 := by omega
      rw [hzero, Nat.min_zero, List.replicate_zero, List.append_nil]

@[simp] theorem mode_prettyChar (s : PrettyState) (c : UInt8) :
    (prettyChar bound indent s c).mode = s.mode.next c := by
  unfold prettyChar PrettyState.mode next
  split_ifs <;> simp_all

/-- An indentation that fits is put down whole. -/
theorem putBlanks_of_fits {n : Nat} {out : List UInt8} (h : out.length + n ≤ bound) :
    putBlanks bound n out = out ++ List.replicate n 32 := by
  rw [putBlanks_eq, Nat.min_eq_left (by omega)]

/-- A character that fits is printed whole. -/
theorem out_prettyChar_of_fits {s : PrettyState} {c : UInt8}
    (h : s.out.length + (s.mode.piece indent c).length ≤ bound) :
    (prettyChar bound indent s c).out = s.out ++ s.mode.piece indent c := by
  unfold piece lineBreak PrettyState.mode at h ⊢
  unfold prettyChar
  split_ifs at h ⊢ with hstring hopen hclose hcomma hcolon
  · rfl
  · simp only [List.length_cons, List.length_replicate] at h
    dsimp only
    rw [putBlanks_of_fits (by simp only [List.length_append, List.length_cons, List.length_nil]; omega),
      List.append_assoc]
    rfl
  · simp only [List.length_append, List.length_cons, List.length_replicate, List.length_nil] at h
    dsimp only
    rw [putBlanks_of_fits (by simp only [List.length_append, List.length_cons, List.length_nil]; omega),
      List.append_assoc, List.append_assoc]
    rfl
  · simp only [List.length_cons, List.length_replicate] at h
    dsimp only
    rw [putBlanks_of_fits (by simp only [List.length_append, List.length_cons, List.length_nil]; omega),
      List.append_assoc]
    rfl
  · rfl
  · rfl

/-- One that does not fit uses up the buffer, and stays in it if there is room. -/
theorem length_prettyChar_of_not_fits {s : PrettyState} {c : UInt8} (hs : s.out.length < bound)
    (h : bound < s.out.length + (s.mode.piece indent c).length) :
    bound ≤ (prettyChar bound indent s c).out.length ∧
      ((prettyChar bound indent s c).out.length ≤ bound ↔
        s.out.length + s.mode.room indent c ≤ bound) := by
  unfold piece lineBreak PrettyState.mode at h
  unfold prettyChar room PrettyState.mode
  split_ifs at h ⊢ with hstring hopen hclose hcomma hcolon
  all_goals
    simp only [putBlanks_eq, List.length_append, List.length_cons, List.length_nil,
      List.length_replicate, and_true] at h ⊢
    omega

/-! ### The loop -/

/-- A full buffer stops the loop. -/
theorem prettyLoop_full {s : PrettyState} (h : bound ≤ s.out.length) (l : List UInt8) :
    prettyLoop bound indent l s = s := by
  cases l with
  | nil => rfl
  | cons c l => rw [prettyLoop, if_neg (by omega)]

theorem prettyLoop_append (l r : List UInt8) (s : PrettyState) :
    prettyLoop bound indent (l ++ r) s =
      prettyLoop bound indent r (prettyLoop bound indent l s) := by
  induction l generalizing s with
  | nil => rfl
  | cons c l ih =>
    rw [List.cons_append, prettyLoop, prettyLoop]
    split_ifs with h
    · exact ih _
    · exact (prettyLoop_full (by omega) r).symm

/-- What holds of every place in a text, at the first character and behind it. -/
theorem forall_split_cons {P : List UInt8 → UInt8 → Prop} (c : UInt8) (l : List UInt8) :
    (∀ pre d suf, c :: l = pre ++ d :: suf → P pre d) ↔
      P [] c ∧ ∀ pre d suf, l = pre ++ d :: suf → P (c :: pre) d := by
  constructor
  · intro h
    exact ⟨h [] c l rfl, fun pre d suf hl => h (c :: pre) d suf (congrArg (c :: ·) hl)⟩
  · rintro ⟨hhead, htail⟩ pre d suf hl
    cases pre with
    | nil =>
      obtain ⟨rfl, -⟩ := List.cons.inj hl
      exact hhead
    | cons e pre =>
      obtain ⟨rfl, hl'⟩ := List.cons.inj hl
      exact htail pre d suf hl'

/-- **The loop stays in the buffer** exactly if each character that it gets to finds room. -/
theorem length_prettyLoop_le_iff (l : List UInt8) {s : PrettyState} (hs : s.out.length ≤ bound) :
    (prettyLoop bound indent l s).out.length ≤ bound ↔
      ∀ pre c suf, l = pre ++ c :: suf →
        s.out.length + (printed indent s.mode pre).length < bound →
        s.out.length + (printed indent s.mode pre).length +
          (s.mode.after pre).room indent c ≤ bound := by
  induction l generalizing s with
  | nil => simpa [prettyLoop] using hs
  | cons c l ih =>
    rw [forall_split_cons]
    simp only [printed, List.length_nil, Nat.add_zero, List.length_append]
    by_cases hlt : s.out.length < bound
    · rw [prettyLoop, if_pos hlt]
      by_cases hfits : s.out.length + (s.mode.piece indent c).length ≤ bound
      · have hroom := room_le_length_piece indent s.mode c
        have hout := out_prettyChar_of_fits hfits
        have hhead : s.out.length + (s.mode.after []).room indent c ≤ bound :=
          (Nat.add_le_add_left hroom _).trans hfits
        rw [ih (by rw [hout, List.length_append]; exact hfits), hout, mode_prettyChar]
        simp only [List.length_append, Nat.add_assoc]
        exact ⟨fun h => ⟨fun _ => hhead, h⟩, fun h => h.2⟩
      -- the loop ends behind a character that does not fit
      · obtain ⟨hfull, hroom⟩ := length_prettyChar_of_not_fits hlt (not_le.mp hfits)
        rw [prettyLoop_full hfull, hroom]
        exact ⟨fun h => ⟨fun _ => h, fun pre d suf _ hbound => by omega⟩, fun h => h.1 hlt⟩
    · rw [prettyLoop_full (not_lt.mp hlt)]
      exact ⟨fun _ => ⟨fun h => absurd h hlt, fun pre d suf _ hbound => by omega⟩, fun _ => hs⟩

/-! ### Staying in the buffer -/

/-- The text is not empty, and no character of it that is printed, with the text in front of it in
less than `2 * strlen - 1` bytes, goes beyond them. -/
def PrettyFits (s : CString) (indent : Int) : Prop :=
  s.bytes ≠ [] ∧ ∀ pre c suf, s.bytes = pre ++ c :: suf →
    (printed indent .start pre).length < s.length * 2 - 1 →
    (printed indent .start pre).length + (PrettyMode.start.after pre).room indent c ≤ s.length * 2 - 1

theorem prettyWrites_lt_iff (s : CString) (indent : Int) (n : Nat) :
    (∀ j ∈ prettyWrites s indent, j < n) ↔ (prettyText s indent).length < n := by
  simp only [prettyWrites, List.mem_range, Nat.lt_succ_iff]
  exact ⟨fun h => h _ le_rfl, fun h j hj => lt_of_le_of_lt hj h⟩

theorem length_prettyText_lt_iff (s : CString) (indent : Int) :
    (prettyText s indent).length < s.length * 2 ↔ PrettyFits s indent := by
  rw [PrettyFits]
  by_cases hnil : s.bytes = []
  · have hlength : s.length = 0 := List.length_eq_zero_iff.mpr hnil
    simp [hlength, hnil]
  · have hpos : 0 < s.length := List.length_pos_iff.mpr hnil
    have hloop := @length_prettyLoop_le_iff (s.length * 2 - 1) indent s.bytes
      ⟨[], 0, false, false⟩ (Nat.zero_le _)
    simp only [List.length_nil, Nat.zero_add] at hloop
    have hle : (prettyText s indent).length < s.length * 2 ↔
        (prettyText s indent).length ≤ s.length * 2 - 1 := by omega
    rw [hle, and_iff_right hnil]
    exact hloop

/-- **The writes stay in the buffer** exactly if every character that is printed finds room. -/
theorem pretty_inBuffer_iff (s : CString) (indent : Int) :
    (∀ j ∈ prettyWrites s indent, j < s.length * 2) ↔ PrettyFits s indent := by
  rw [prettyWrites_lt_iff, length_prettyText_lt_iff]

/-- The terminator of `[1]` does not fit. -/
theorem pretty_overrun : ¬∀ (s : CString) (indent : Int), 0 < indent →
    ∀ j ∈ prettyWrites s indent, j < s.length * 2 := by
  intro h
  have hlast : 6 ∈ prettyWrites (cstr "[1]") 1 := by decide
  have hlt := h (cstr "[1]") 1 (by decide) 6 hlast
  exact absurd hlt (by decide)

end Luminix
