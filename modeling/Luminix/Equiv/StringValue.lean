import Luminix.Equiv.FieldValue
import Luminix.Equiv.Serialize

/-!
# String values

A string is written with escapes and read without undoing them, up to the size of the buffer.  It
comes back whole if there is nothing to escape; and also if it fills the buffer and all that would
be escaped is a run of backslashes at its end, since what the escapes add is cut off
(`stringSurvives_iff`).
-/

namespace Luminix

open CLib JsonSerializeState

/-! ### Escapes and what they look like -/

/-- A character that needs an escape, other than the backslash, does not start its own escape. -/
theorem escapeByte_cases (c : UInt8) :
    (isPlainByte c = true ∧ escapeByte c = [c]) ∨ (c = 92 ∧ escapeByte c = [92, 92]) ∨
      (isPlainByte c = false ∧ c ≠ 92 ∧ ∃ l, l ≠ [] ∧ escapeByte c = 92 :: l) := by
  unfold escapeByte
  split
  case h_2 => exact .inr (.inl ⟨rfl, rfl⟩)
  case h_8 c h34 h92 _ _ _ _ _ =>
    split_ifs with hlt
    · refine .inr (.inr ⟨?_, h92, _, List.cons_ne_nil _ _, rfl⟩)
      simp only [isPlainByte, Bool.and_eq_false_iff, decide_eq_false_iff_not]
      exact .inl (.inl (UInt8.not_le.mpr hlt))
    · refine .inl ⟨?_, rfl⟩
      simp only [isPlainByte, Bool.and_eq_true, decide_eq_true_eq, bne_iff_ne]
      exact ⟨⟨UInt8.not_lt.mp hlt, h34⟩, h92⟩
  all_goals exact .inr (.inr ⟨by decide, by decide, _, List.cons_ne_nil _ _, rfl⟩)

/-- Plain characters, and then backslashes only. -/
def BackslashesLast (l : List UInt8) : Prop := ∃ m, Plain (l.take m) ∧ ∀ c ∈ l.drop m, c = 92

theorem backslashesLast_nil : BackslashesLast [] := ⟨0, nofun, nofun⟩

theorem backslashesLast_cons_plain {c : UInt8} {l : List UInt8} (hc : isPlainByte c = true) :
    BackslashesLast (c :: l) ↔ BackslashesLast l := by
  constructor
  · rintro ⟨m, hplain, hback⟩
    cases m with
    | zero =>
      have h92 : c = 92 := hback c List.mem_cons_self
      rw [h92] at hc
      exact absurd hc (by decide)
    | succ m => exact ⟨m, fun d hd => hplain d (List.mem_cons_of_mem c hd), hback⟩
  · rintro ⟨m, hplain, hback⟩
    refine ⟨m + 1, fun d hd => ?_, hback⟩
    rcases List.mem_cons.mp hd with rfl | hd
    · exact hc
    · exact hplain d hd

theorem backslashesLast_cons_not_plain {c : UInt8} {l : List UInt8} (hc : isPlainByte c = false) :
    BackslashesLast (c :: l) ↔ c = 92 ∧ ∀ d ∈ l, d = 92 := by
  constructor
  · rintro ⟨m, hplain, hback⟩
    cases m with
    | zero => exact List.forall_mem_cons.mp hback
    | succ m =>
      have hplain := hplain c List.mem_cons_self
      rw [hc] at hplain
      exact absurd hplain Bool.false_ne_true
  · rintro ⟨rfl, hl⟩
    exact ⟨0, nofun, List.forall_mem_cons.mpr ⟨rfl, hl⟩⟩

/-- After backslashes too many, only backslashes agree with their escapes. -/
theorem take_backslashes_eq_iff (k : Nat) (l : List UInt8) :
    (List.replicate (k + 1) 92 ++ l.flatMap escapeByte).take l.length = l ↔ ∀ c ∈ l, c = 92 := by
  induction l generalizing k with
  | nil => exact ⟨fun _ => nofun, fun _ => rfl⟩
  | cons c l ih =>
    rw [List.replicate_succ, List.cons_append, List.length_cons, List.take_succ_cons,
      List.cons.injEq, List.forall_mem_cons, eq_comm (a := 92)]
    apply and_congr_right
    intro hc
    subst hc
    -- The escape of the next backslash makes the run longer by one.
    have hrun : List.replicate k 92 ++ (92 :: l).flatMap escapeByte =
        List.replicate (k + 1 + 1) 92 ++ l.flatMap escapeByte := by
      show List.replicate k 92 ++ (List.replicate 2 92 ++ l.flatMap escapeByte) = _
      rw [← List.append_assoc, List.replicate_append_replicate]
    rw [hrun]
    exact ih (k + 1)

/-- **When a text agrees with its escapes** as far as it goes. -/
theorem take_escaped_eq_iff (l : List UInt8) :
    (l.flatMap escapeByte).take l.length = l ↔ BackslashesLast l := by
  induction l with
  | nil => exact ⟨fun _ => backslashesLast_nil, fun _ => rfl⟩
  | cons c l ih =>
    rw [List.flatMap_cons, List.length_cons]
    rcases escapeByte_cases c with ⟨hplain, hesc⟩ | ⟨rfl, hesc⟩ | ⟨hplain, hne, t, -, hesc⟩
    · rw [hesc, List.singleton_append, List.take_succ_cons, List.cons.injEq,
        backslashesLast_cons_plain hplain, ← ih]
      exact ⟨fun h => h.2, fun h => ⟨rfl, h⟩⟩
    · rw [hesc, backslashesLast_cons_not_plain (by decide)]
      show (92 :: (List.replicate (0 + 1) 92 ++ l.flatMap escapeByte)).take (l.length + 1) = 92 :: l ↔ _
      rw [List.take_succ_cons, List.cons.injEq, take_backslashes_eq_iff]
    · rw [hesc, List.cons_append, List.take_succ_cons, List.cons.injEq,
        backslashesLast_cons_not_plain hplain]
      exact ⟨fun h => absurd h.1.symm hne, fun h => absurd h.1 hne⟩

theorem length_escaped_le_iff (s : CString) :
    (escaped s).length ≤ s.length ↔ Plain s.bytes := by
  show (s.bytes.flatMap escapeByte).length ≤ s.bytes.length ↔ Plain s.bytes
  have hle : ∀ l : List UInt8, l.length ≤ (l.flatMap escapeByte).length := by
    intro l
    induction l with
    | nil => exact Nat.le_refl _
    | cons c l ih =>
      have hc : 1 ≤ (escapeByte c).length := by
        rcases escapeByte_cases c with ⟨-, h⟩ | ⟨-, h⟩ | ⟨-, -, t, -, h⟩ <;> rw [h] <;> simp
      rw [List.flatMap_cons, List.length_append, List.length_cons]
      omega
  generalize s.bytes = l
  induction l with
  | nil => exact ⟨fun _ => nofun, fun _ => Nat.le_refl _⟩
  | cons c l ih =>
    have hl := hle l
    rw [List.flatMap_cons, List.length_append, List.length_cons]
    rcases escapeByte_cases c with ⟨hplain, hesc⟩ | ⟨rfl, hesc⟩ | ⟨hplain, -, t, ht, hesc⟩
    · rw [hesc, List.length_singleton]
      constructor
      · intro h
        exact List.forall_mem_cons.mpr ⟨hplain, ih.mp (by omega)⟩
      · intro h
        have := ih.mpr (List.forall_mem_cons.mp h).2
        omega
    · rw [hesc, List.length_cons, List.length_singleton]
      refine ⟨fun h => by omega, fun h => absurd (h 92 List.mem_cons_self) (by decide)⟩
    · have hpos := List.length_pos_of_ne_nil ht
      rw [hesc, List.length_cons]
      refine ⟨fun h => by omega, fun h => ?_⟩
      rw [h c List.mem_cons_self] at hplain
      exact absurd hplain (by decide)

/-! ### From the text back to the value -/

/-- What `json_parse_field_value` reads from a quoted string. -/
theorem jsonParseFieldValue_quoted (p : Platform) (s : CString) (r : List UInt8) :
    jsonParseFieldValue p .string (34 :: (escaped s).bytes ++ [34] ++ r) =
      (.string, FieldValue.zero.setString (escaped s), r) := by
  have htext : 34 :: (escaped s).bytes ++ [34] ++ r = 34 :: ((escaped s).bytes ++ 34 :: r) := by
    rw [List.append_assoc, List.cons_append, List.singleton_append]
  have htoken : jsonParseToken (34 :: ((escaped s).bytes ++ 34 :: r)) = (.string (escaped s), r) := by
    have h := parseToken_quoted (quotable_escaped s.bytes) r
    rwa [show CString.ofBytes (s.bytes.flatMap escapeByte) = escaped s from
      CString.ofBytes_bytes (escaped s)] at h
  rw [jsonParseFieldValue, htext, htoken]
  rfl

/-- The escapes, cut to the size of the buffer, are the string itself. -/
theorem truncate_escaped_eq_iff {s : CString} (hs : s.length < maxFieldLen) :
    (escaped s).truncate (maxFieldLen - 1) = s ↔
      Plain s.bytes ∨ (s.length = maxFieldLen - 1 ∧ BackslashesLast s.bytes) := by
  constructor
  · intro h
    by_cases hfull : s.length = maxFieldLen - 1
    · refine .inr ⟨hfull, (take_escaped_eq_iff s.bytes).mp ?_⟩
      have hbytes : (escaped s).bytes.take (maxFieldLen - 1) = s.bytes := congrArg CString.bytes h
      rwa [← hfull] at hbytes
    · -- Nothing has been cut off.
      left
      have hlen : min (maxFieldLen - 1) (escaped s).length = s.length :=
        (List.length_take (l := (escaped s).bytes)).symm.trans (congrArg CString.length h)
      exact (length_escaped_le_iff s).mp (by omega)
  · rintro (hplain | ⟨hfull, hlast⟩)
    · rw [escaped_of_plain hplain]
      exact CString.truncate_eq_self (by omega)
    · apply CString.ext
      rw [← hfull]
      exact (take_escaped_eq_iff s.bytes).mpr hlast

/-- The string comes back from `json_parse_field_value` out of the text that
`json_serialize_append_string` appends to the buffer, whatever stands after it. -/
def StringSurvives (p : Platform) (s : CString) : Prop :=
  ∀ (st : JsonSerializeState) (r : List UInt8), ∃ st' text,
    st.appendString p s = .ok st' ∧ st'.buffer = st.buffer ++ text ∧
      (jsonParseFieldValue p .string (text ++ r)).2.1.stringValue = s

/-- The string that is read is the escaped one, cut to the size of the buffer. -/
theorem stringSurvives_iff_truncate {p : Platform} (hp : p.Faithful) (s : CString) :
    StringSurvives p s ↔ (escaped s).truncate (maxFieldLen - 1) = s := by
  have hvalue : ∀ r, (jsonParseFieldValue p .string
      (34 :: (escaped s).bytes ++ [34] ++ r)).2.1.stringValue =
        (escaped s).truncate (maxFieldLen - 1) := by
    intro r
    rw [jsonParseFieldValue_quoted]
    exact FieldValue.stringValue_setString _ _
  constructor
  · intro h
    obtain ⟨st1, happend1, -, hbuffer1⟩ := writes_appendString hp s ⟨[], 0, 0, false⟩
    obtain ⟨st2, text, happend2, hbuffer2, hread⟩ := h ⟨[], 0, 0, false⟩ []
    have hst : st1 = st2 := Except.ok.inj (happend1.symm.trans happend2)
    have htext : text = 34 :: (escaped s).bytes ++ [34] := by
      rw [← hst, hbuffer1] at hbuffer2
      exact (List.append_cancel_left hbuffer2).symm
    rw [htext, hvalue] at hread
    exact hread
  · intro h st r
    obtain ⟨st', happend, -, hbuffer⟩ := writes_appendString hp s st
    exact ⟨st', _, happend, hbuffer, (hvalue r).trans h⟩

/-- **When a string survives.** -/
theorem stringSurvives_iff {p : Platform} (hp : p.Faithful) {s : CString}
    (hs : s.length < maxFieldLen) :
    StringSurvives p s ↔
      Plain s.bytes ∨ (s.length = maxFieldLen - 1 ∧ BackslashesLast s.bytes) :=
  (stringSurvives_iff_truncate hp s).trans (truncate_escaped_eq_iff hs)

theorem stringSurvives_iff_ab : StringSurvives .epoch (cstr "ab") :=
  (stringSurvives_iff Platform.epoch_faithful (by decide)).mpr (.inl (by decide))

/-- A quote comes back with the backslash of its escape. -/
theorem stringSurvives_fails : ¬∀ p : Platform, p.Faithful → ∀ s : CString,
    s.length < maxFieldLen → StringSurvives p s := by
  intro h
  have hsurvives := h _ Platform.epoch_faithful (cstr "a\"b") (by decide)
  have hcut := (stringSurvives_iff_truncate Platform.epoch_faithful _).mp hsurvives
  exact absurd hcut (by decide)

end Luminix
