import Luminix.Equiv.Compress
import Luminix.Equiv.ValueText
import Luminix.Json.Tools

/-!
# Merged texts

`json_merge_string` counts the brackets and the comma, but not the terminator, so `snprintf` leaves
out the closing bracket.
-/

namespace Luminix

open CLib TokenReader

variable {p : Platform} {a b : CString}

/-- The merged text is read as an array of the two texts. -/
def MergesToArray (p : Platform) (a b : CString) (strategy : JsonMergeStrategy) : Prop :=
  ∃ t ts us, jsonMergeString p (some a) (some b) strategy = some t ∧
    tokens a.bytes = ts ++ [.eof] ∧ tokens b.bytes = us ++ [.eof] ∧
    tokens t.bytes = .arrayStart :: (ts ++ .comma :: (us ++ [.arrayEnd, .eof]))

/-- **The merged text lacks the closing bracket.** -/
theorem bytes_jsonMergeString {t : CString} {strategy : JsonMergeStrategy}
    (h : jsonMergeString p (some a) (some b) strategy = some t) :
    t.bytes = 91 :: (a.bytes ++ 44 :: b.bytes) := by
  rw [jsonMergeString] at h
  split_ifs at h
  obtain rfl := Option.some.inj h
  have hopen : ascii "[" = [91] := by decide
  have hcomma : ascii "," = [44] := by decide
  have htext : ascii "[" ++ (a.bytes ++ (ascii "," ++ (b.bytes ++ ascii "]"))) =
      91 :: (a.bytes ++ 44 :: b.bytes) ++ ascii "]" := by
    rw [hopen, hcomma]
    simp
  have hlength : (91 :: (a.bytes ++ 44 :: b.bytes)).length = a.length + b.length + 3 - 1 := by
    simp only [List.length_cons, List.length_append, CString.length]
    omega
  have hzero : (0 : UInt8) ∉ 91 :: (a.bytes ++ 44 :: b.bytes) := by
    simp only [List.mem_cons, List.mem_append, not_or]
    exact ⟨by decide, a.nulFree, by decide, b.nulFree⟩
  rw [htext, ← hlength, List.take_left, CString.bytes_ofBytes hzero]

/-- The tokens of a merged text. -/
theorem tokens_jsonMergeString {t : CString} {strategy : JsonMergeStrategy}
    (h : jsonMergeString p (some a) (some b) strategy = some t) (ha : JsonDocument a.bytes)
    (hb : JsonDocument b.bytes) : ∃ ts us, tokens a.bytes = ts ++ [.eof] ∧
      tokens b.bytes = us ++ [.eof] ∧ tokens t.bytes = .arrayStart :: (ts ++ .comma :: (us ++ [.eof])) := by
  obtain ⟨ts, hts, hlexa⟩ := ha.lexes
  obtain ⟨us, hus, hlexb⟩ := hb.lexes
  have hlex := lexes_arrayStart.append (hlexa.comma hlexb) (by simp)
  have hproper : ∀ t ∈ [.arrayStart] ++ (ts ++ .comma :: us), Proper t := by
    intro t ht
    simp only [List.mem_append, List.mem_cons, List.not_mem_nil, or_false] at ht
    rcases ht with rfl | ht | rfl | ht
    · exact ⟨by simp, by simp⟩
    · exact hts t ht
    · exact ⟨by simp, by simp⟩
    · exact hus t ht
  refine ⟨ts, us, hlexa.tokens_eq hts, hlexb.tokens_eq hus, ?_⟩
  rw [bytes_jsonMergeString h]
  have htokens := hlex.tokens_eq hproper
  simpa using htokens

/-- **Merging two JSON texts never builds an array.** -/
theorem merge_never_array (p : Platform) {a b : CString} (ha : JsonDocument a.bytes)
    (hb : JsonDocument b.bytes) (strategy : JsonMergeStrategy) : ¬MergesToArray p a b strategy := by
  rintro ⟨t, ts, us, hmerge, hts, hus, htokens⟩
  obtain ⟨ts', us', hts', hus', htokens'⟩ := tokens_jsonMergeString hmerge ha hb
  obtain rfl : ts = ts' := List.append_cancel_right (hts.symm.trans hts')
  obtain rfl : us = us' := List.append_cancel_right (hus.symm.trans hus')
  have hlength := congrArg List.length (htokens.symm.trans htokens')
  simp at hlength

/-- Two empty arrays. -/
theorem merge_never_array_empty : ¬MergesToArray .epoch (cstr "[]") (cstr "[]") .concat :=
  merge_never_array .epoch jsonDocument_emptyArray jsonDocument_emptyArray .concat

/-- They are merged to `[[],[]`. -/
theorem merge_unclosed : ¬∀ (a b : CString) (strategy : JsonMergeStrategy),
    JsonDocument a.bytes → JsonDocument b.bytes → MergesToArray .epoch a b strategy := by
  intro h
  obtain ⟨t, ts, us, hmerge, hts, hus, htokens⟩ := h (cstr "[]") (cstr "[]") .concat
    jsonDocument_emptyArray jsonDocument_emptyArray
  have hmerged : jsonMergeString .epoch (some (cstr "[]")) (some (cstr "[]")) .concat =
      some (cstr "[[],[]") := by
    decide
  obtain rfl : t = cstr "[[],[]" := Option.some.inj (hmerge.symm.trans hmerged)
  have harray : (tokens (cstr "[]").bytes).length = 3 := by decide
  have hlength : (tokens (cstr "[[],[]").bytes).length = 7 := by decide
  rw [hts, List.length_append] at harray
  rw [hts] at hus
  obtain rfl := List.append_cancel_right hus
  rw [htokens] at hlength
  simp only [List.length_cons, List.length_append, List.length_nil] at harray hlength
  omega

end Luminix
