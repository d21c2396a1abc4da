import Luminix.Equiv.Compress
import Luminix.Json.Validate

/-!
# What is validated

`validate_json` reads two tokens: one that a value may start with, and the end of the text.  So it
accepts the texts that are a single token (`validateJson_success_iff`): no array and no object, but a
bracket or a brace on its own.
-/

namespace Luminix

open CLib

/-! ### Single tokens -/

/-- A text that is read as one token which a value may start with. -/
def TokenText (t : List UInt8) : Prop :=
  t ∈ [ascii "\x7b", ascii "[", ascii "false", ascii "null", ascii "true"] ∨ NumberText t ∨
    ∃ body, quotable false body = true ∧ t = 34 :: (body ++ [34])

/-- One token with white space around it. -/
def SingleToken (l : List UInt8) : Prop :=
  ∃ a t b, l = a ++ (t ++ b) ∧ (∀ c ∈ a, isSpace c = true) ∧ TokenText t ∧
    ∀ c ∈ b, isSpace c = true

/-! ### Acceptance -/

/-- The text of a token that a value may start with. -/
theorem tokenText_of_lexeme {t : JsonToken} {v : List UInt8} (h : Lexeme t v)
    (ht : t.startsValue = true) : TokenText v := by
  cases h with
  | fixed hfixed =>
    have hall : ∀ t ∈ fixedTokens, t.startsValue = true →
        t.text ∈ [ascii "\x7b", ascii "[", ascii "false", ascii "null", ascii "true"] := by
      decide
    exact Or.inl (hall t hfixed ht)
  | number hn => exact Or.inr (Or.inl hn)
  | string hbody => exact Or.inr (Or.inr ⟨_, hbody, rfl⟩)

/-- **A token that a value may start with**, and the text it is read off. -/
theorem exists_tokenText {l rest : List UInt8} {t : JsonToken}
    (h : jsonParseToken l = (t, rest)) (ht : t.startsValue = true) :
    ∃ v, TokenText v ∧ jsonSkipWhitespace l = v ++ rest := by
  have hscanned := scanned l
  rw [h] at hscanned
  cases hscanned with
  | eof => cases ht
  | @token a v _ _ ha hv hl =>
    refine ⟨v, tokenText_of_lexeme hv ht, ?_⟩
    rw [hl, jsonSkipWhitespace, List.dropWhile_append_of_pos ha]
    obtain ⟨c, v, rfl⟩ := List.exists_cons_of_ne_nil hv.ne_nil
    exact List.dropWhile_cons_of_neg (by simp [hv.notSpace_head c rfl])
  | unclosed => cases ht
  | stuck => cases ht

/-- The other direction: the text is read as such a token. -/
theorem parseToken_tokenText {v b : List UInt8} (hv : TokenText v)
    (hb : ∀ c ∈ b, isSpace c = true) :
    ∃ t, t.startsValue = true ∧ jsonParseToken (v ++ b) = (t, b) := by
  rcases hv with hv | hv | ⟨body, hquotable, rfl⟩
  · simp only [List.mem_cons, List.not_mem_nil, or_false] at hv
    rcases hv with rfl | rfl | rfl | rfl | rfl
    · exact ⟨.objectStart, rfl, rfl⟩
    · exact ⟨.arrayStart, rfl, rfl⟩
    · exact ⟨.boolean false, rfl, rfl⟩
    · exact ⟨.null, rfl, rfl⟩
    · exact ⟨.boolean true, rfl, rfl⟩
  · have hends : EndsNumber b := by
      rw [← List.append_nil b]
      exact endsNumber_blank hb endsNumber_nil
    refine ⟨_, rfl, parseToken_numberText hv hends fun c hc => ?_⟩
    have hspace := hb c (List.mem_of_mem_head? hc)
    constructor
    · rintro rfl
      cases hspace
    · rintro rfl
      cases hspace
  · refine ⟨.string (CString.ofBytes body), rfl, ?_⟩
    rw [List.cons_append, List.append_assoc, List.singleton_append, parseToken_quoted hquotable]

theorem validateEnd_success (l : List UInt8) :
    (validateEnd l).1 = .success ↔ (jsonParseToken l).1 = .eof := by
  rw [validateEnd]
  rcases jsonParseToken l with ⟨t, l'⟩
  cases t <;> simp

/-- Two tokens are read of an accepted text. -/
theorem validateJson_success (s : CString) : (validateJson (some s)).1 = .success ↔
    (jsonParseToken s.bytes).1.startsValue = true ∧
      (jsonParseToken (jsonParseToken s.bytes).2).1 = .eof := by
  rw [← validateEnd_success, validateJson]
  rcases jsonParseToken s.bytes with ⟨t, l⟩
  cases t <;> simp [JsonToken.startsValue]

/-- **What `validate_json` accepts.** -/
theorem validateJson_success_iff (s : CString) :
    (validateJson (some s)).1 = .success ↔ SingleToken s.bytes := by
  rw [validateJson_success, parseToken_eof_iff]
  constructor
  · rintro ⟨hstarts, hspace⟩
    have htoken : jsonParseToken s.bytes = ((jsonParseToken s.bytes).1, (jsonParseToken s.bytes).2) :=
      rfl
    obtain ⟨v, hv, hskip⟩ := exists_tokenText htoken hstarts
    refine ⟨s.bytes.takeWhile isSpace, v, (jsonParseToken s.bytes).2, ?_,
      fun c => List.mem_takeWhile_imp, hv, hspace⟩
    rw [← hskip]
    exact (List.takeWhile_append_dropWhile (p := isSpace)).symm
  · rintro ⟨a, v, b, hl, ha, hv, hb⟩
    obtain ⟨t, ht, hparse⟩ := parseToken_tokenText hv hb
    rw [hl, parseToken_blank ha, hparse]
    exact ⟨ht, hb⟩

/-! ### JSON -/

/-- A value that is no array and no object. -/
def JsonScalar (v : List UInt8) : Prop :=
  v ∈ [ascii "false", ascii "null", ascii "true"] ∨ JsonNumber v ∨
    ∃ l, JsonChars l ∧ v = 34 :: (l ++ [34])

/-- A JSON text whose value is a scalar. -/
def ScalarDocument (l : List UInt8) : Prop :=
  ∃ a v b, l = a ++ (v ++ b) ∧ IsJsonBlank a ∧ JsonScalar v ∧ IsJsonBlank b

/-- A JSON text whose value is an array or an object. -/
def CompoundDocument (l : List UInt8) : Prop :=
  ∃ a v b, l = a ++ (v ++ b) ∧ IsJsonBlank a ∧ JsonValue v ∧
    (v.head? = some 91 ∨ v.head? = some 123) ∧ IsJsonBlank b

theorem JsonScalar.jsonValue {v : List UInt8} (h : JsonScalar v) : JsonValue v := by
  rcases h with h | h | ⟨l, h, rfl⟩
  · exact .word h
  · exact .number h
  · exact .string h

theorem JsonScalar.tokenText {v : List UInt8} (h : JsonScalar v) : TokenText v := by
  rcases h with h | h | ⟨l, h, rfl⟩
  · exact Or.inl (List.mem_cons_of_mem _ (List.mem_cons_of_mem _ h))
  · exact Or.inr (Or.inl h.numberText)
  · exact Or.inr (Or.inr ⟨l, h.quotable, rfl⟩)

theorem jsonDocument_iff (l : List UInt8) :
    JsonDocument l ↔ ScalarDocument l ∨ CompoundDocument l := by
  constructor
  · rintro ⟨a, v, b, hl, ha, hv, hb⟩
    cases hv with
    | word h => exact Or.inl ⟨a, _, b, hl, ha, Or.inl h, hb⟩
    | number h => exact Or.inl ⟨a, _, b, hl, ha, Or.inr (Or.inl h), hb⟩
    | string h => exact Or.inl ⟨a, _, b, hl, ha, Or.inr (Or.inr ⟨_, h, rfl⟩), hb⟩
    | object h =>
      have hhead : v.head? = some 123 := by cases h <;> rfl
      exact Or.inr ⟨a, _, b, hl, ha, .object h, Or.inr hhead, hb⟩
    | emptyArray h => exact Or.inr ⟨a, _, b, hl, ha, .emptyArray h, Or.inl rfl, hb⟩
    | array h => exact Or.inr ⟨a, _, b, hl, ha, .array h, Or.inl rfl, hb⟩
  · rintro (⟨a, v, b, hl, ha, hv, hb⟩ | ⟨a, v, b, hl, ha, hv, -, hb⟩)
    · exact ⟨a, v, b, hl, ha, hv.jsonValue, hb⟩
    · exact ⟨a, v, b, hl, ha, hv, hb⟩

theorem ScalarDocument.singleToken {l : List UInt8} (h : ScalarDocument l) : SingleToken l := by
  obtain ⟨a, v, b, hl, ha, hv, hb⟩ := h
  exact ⟨a, v, b, hl, isSpace_of_blank ha, hv.tokenText, isSpace_of_blank hb⟩

/-- An array or an object ends in a character that is no white space. -/
theorem exists_of_compound {v : List UInt8} (hv : JsonValue v)
    (hhead : v.head? = some 91 ∨ v.head? = some 123) :
    ∃ c m d, v = c :: (m ++ [d]) ∧ (c = 91 ∨ c = 123) ∧ isSpace d = false := by
  cases hv with
  | word h =>
    simp only [List.mem_cons, List.not_mem_nil, or_false] at h
    rcases h with rfl | rfl | rfl <;> exact absurd hhead (by decide)
  | number h =>
    obtain ⟨c, l, rfl, hc⟩ := h.numberText.head
    rcases hhead with hhead | hhead
    all_goals
      obtain rfl := Option.some.inj hhead
      exact absurd hc (by decide)
  | string h => exact absurd hhead (by simp)
  | object h =>
    cases h with
    | empty => exact ⟨123, _, 125, rfl, Or.inr rfl, rfl⟩
    | members => exact ⟨123, _, 125, rfl, Or.inr rfl, rfl⟩
  | emptyArray h => exact ⟨91, _, 93, rfl, Or.inl rfl, rfl⟩
  | array h => exact ⟨91, _, 93, rfl, Or.inl rfl, rfl⟩

/-- **No array and no object is accepted.** -/
theorem CompoundDocument.not_success {s : CString} (h : CompoundDocument s.bytes) :
    (validateJson (some s)).1 ≠ .success := by
  obtain ⟨a, v, b, hl, ha, hv, hhead, hb⟩ := h
  obtain ⟨c, m, d, rfl, hc, hd⟩ := exists_of_compound hv hhead
  rw [ne_eq, validateJson_success, not_and, parseToken_eof_iff, hl,
    parseToken_blank (isSpace_of_blank ha)]
  have hrest : (jsonParseToken (c :: (m ++ [d]) ++ b)).2 = m ++ [d] ++ b := by
    rcases hc with rfl | rfl <;> rfl
  intro _ hspace
  rw [hrest] at hspace
  have hspaced := hspace d (by simp)
  rw [hd] at hspaced
  cases hspaced

/-- **When validation decides what is JSON.** -/
theorem validateJson_decides_iff (s : CString) :
    ((validateJson (some s)).1 = .success ↔ JsonDocument s.bytes) ↔
      ¬CompoundDocument s.bytes ∧ (SingleToken s.bytes → ScalarDocument s.bytes) := by
  have hcompound : CompoundDocument s.bytes → ¬SingleToken s.bytes := fun h htoken =>
    h.not_success ((validateJson_success_iff s).mpr htoken)
  have hscalar : ScalarDocument s.bytes → SingleToken s.bytes := ScalarDocument.singleToken
  rw [validateJson_success_iff, jsonDocument_iff]
  constructor
  · intro h
    have hnot : ¬CompoundDocument s.bytes := fun hc => hcompound hc (h.mpr (Or.inr hc))
    exact ⟨hnot, fun htoken => (h.mp htoken).resolve_right hnot⟩
  · rintro ⟨hnot, himp⟩
    constructor
    · exact fun htoken => Or.inl (himp htoken)
    · rintro (h | h)
      · exact hscalar h
      · exact absurd h hnot

/-- `{}` is refused, and `{` accepted. -/
theorem braces_validated :
    validateJson (some (cstr "\x7b")) = (.success, none) ∧
    validateJson (some (cstr "\x7b\x7d")) =
      (.invalidInput, some (ascii "Invalid JSON: extra characters after value")) ∧
    JsonDocument (cstr "\x7b\x7d").bytes := by
  have hbytes : (cstr "\x7b\x7d").bytes = 123 :: ([] ++ [125]) := by decide
  refine ⟨by decide, by decide, ?_⟩
  rw [hbytes]
  exact ⟨[], _, [], rfl, isJsonBlank_nil, .object (.empty isJsonBlank_nil), isJsonBlank_nil⟩

/-- A message is left exactly when a text is refused. -/
theorem validateJson_message (s : CString) :
    (validateJson (some s)).2 = none ↔ (validateJson (some s)).1 = .success := by
  have hend (l : List UInt8) : (validateEnd l).2 = none ↔ (validateEnd l).1 = .success := by
    rw [validateEnd]
    rcases jsonParseToken l with ⟨t, l'⟩
    cases t <;> simp
  rw [validateJson]
  rcases jsonParseToken s.bytes with ⟨t, l⟩
  cases t <;> simp [JsonToken.startsValue, hend]

end Luminix
