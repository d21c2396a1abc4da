import Luminix.Equiv.Format
import Luminix.Equiv.JsonTokens

/-!
# Skipping a JSON value

Of a JSON value `json_skip_token_value` reads the tokens that `Skipped` tells of, and they end where
the value ends.  So behind the skipped value no white space is missing and nothing more has been read
(`skip_value_exact`).
-/

namespace Luminix

open CLib

/-! ### Parts of a value -/

/-- A value, up to a text that ends a number. -/
def SkipsValue (v : List UInt8) : Prop :=
  ∀ r, EndsNumber r → ∃ t ts, IsItem t ∧ Skipped .success t ts ∧ Spans (t :: ts) (v ++ r) r

def SkipsObject (v : List UInt8) : Prop :=
  ∀ r, ∃ ts, Skipped .success .objectStart ts ∧ Spans (.objectStart :: ts) (v ++ r) r

/-- A member, up to white space. -/
def SkipsMember (m : List UInt8) : Prop :=
  ∀ r, EndsNumber r → ∃ key t ts x, Skipped .success t ts ∧
    Spans (.string key :: .colon :: t :: ts) (m ++ r) x ∧ jsonParseToken x = jsonParseToken r

/-- Members, up to and with the brace behind them. -/
def SkipsMembers (l : List UInt8) : Prop :=
  ∀ r, ∃ ts, Skipped .success .objectStart ts ∧ Spans ts (l ++ 125 :: r) r

/-- Elements, up to and with the bracket behind them. -/
def SkipsElements (l : List UInt8) : Prop :=
  ∀ r, ∃ ts, Skipped .success .arrayStart ts ∧ Spans ts (l ++ 93 :: r) r

section

variable {a b c d v m l r : List UInt8} {t : JsonToken} {ts : List JsonToken}

theorem spans_congr {l' : List UInt8} (h : jsonParseToken l = jsonParseToken m)
    (hspan : Spans (t :: ts) l l') : Spans (t :: ts) m l' := by
  obtain ⟨x, hparse, hrest⟩ := hspan
  exact ⟨x, h.symm.trans hparse, hrest⟩

/-- A value of one token. -/
theorem skipsValue_token (h : ∀ r, EndsNumber r → ∃ t, IsItem t ∧ t ≠ .objectStart ∧
    t ≠ .arrayStart ∧ jsonParseToken (v ++ r) = (t, r)) : SkipsValue v := by
  intro r hr
  obtain ⟨t, hitem, hobject, harray, hparse⟩ := h r hr
  exact ⟨t, [], hitem, .token hobject harray, spans_singleton.mpr hparse⟩

theorem skipsValue_word (h : l ∈ [ascii "false", ascii "null", ascii "true"]) : SkipsValue l := by
  refine skipsValue_token fun r _ => ?_
  simp only [List.mem_cons, List.not_mem_nil, or_false] at h
  rcases h with rfl | rfl | rfl
  · exact ⟨.boolean false, by simp [IsItem], by simp, by simp, rfl⟩
  · exact ⟨.null, by simp [IsItem], by simp, by simp, rfl⟩
  · exact ⟨.boolean true, by simp [IsItem], by simp, by simp, rfl⟩

theorem SkipsObject.value (h : SkipsObject v) : SkipsValue v := by
  intro r _
  obtain ⟨ts, hts, hspan⟩ := h r
  exact ⟨.objectStart, ts, by simp [IsItem], hts, hspan⟩

theorem skipsObject_empty (ha : IsJsonBlank a) : SkipsObject (123 :: (a ++ [125])) := by
  intro r
  have hend : jsonParseToken (a ++ 125 :: r) = (.objectEnd, r) := by
    rw [parseToken_blank (isSpace_of_blank ha)]
    rfl
  refine ⟨_, .objectEnd, a ++ 125 :: r, ?_, spans_singleton.mpr hend⟩
  rw [List.cons_append, List.append_assoc]
  rfl

theorem SkipsMembers.object (h : SkipsMembers l) : SkipsObject (123 :: (l ++ [125])) := by
  intro r
  obtain ⟨ts, hts, hspan⟩ := h r
  refine ⟨ts, hts, l ++ 125 :: r, ?_, hspan⟩
  rw [List.cons_append, List.append_assoc]
  rfl

theorem skipsValue_emptyArray (ha : IsJsonBlank a) : SkipsValue (91 :: (a ++ [93])) := by
  intro r _
  have hend : jsonParseToken (a ++ 93 :: r) = (.arrayEnd, r) := by
    rw [parseToken_blank (isSpace_of_blank ha)]
    rfl
  refine ⟨.arrayStart, _, by simp [IsItem], .arrayEnd, a ++ 93 :: r, ?_, spans_singleton.mpr hend⟩
  rw [List.cons_append, List.append_assoc]
  rfl

theorem SkipsElements.value (h : SkipsElements l) : SkipsValue (91 :: (l ++ [93])) := by
  intro r _
  obtain ⟨ts, hts, hspan⟩ := h r
  refine ⟨.arrayStart, ts, by simp [IsItem], hts, l ++ 93 :: r, ?_, hspan⟩
  rw [List.cons_append, List.append_assoc]
  rfl

/-! ### Members and elements -/

theorem skipsMember {key : List UInt8} (ha : IsJsonBlank a) (hkey : JsonChars key)
    (hb : IsJsonBlank b) (hc : IsJsonBlank c) (hv : SkipsValue v) (hd : IsJsonBlank d) :
    SkipsMember (a ++ (34 :: (key ++ 34 :: (b ++ 58 :: (c ++ (v ++ d)))))) := by
  intro r hr
  obtain ⟨t, ts, -, hts, hspan⟩ := hv (d ++ r) (endsNumber_blank (isSpace_of_blank hd) hr)
  refine ⟨CString.ofBytes key, t, ts, d ++ r, hts,
    ⟨b ++ 58 :: (c ++ (v ++ (d ++ r))), ?_, c ++ (v ++ (d ++ r)), ?_, ?_⟩,
    parseToken_blank (isSpace_of_blank hd) r⟩
  · have htext : a ++ (34 :: (key ++ 34 :: (b ++ 58 :: (c ++ (v ++ d))))) ++ r =
        a ++ 34 :: (key ++ 34 :: (b ++ 58 :: (c ++ (v ++ (d ++ r))))) := by
      simp
    rw [htext, parseToken_blank (isSpace_of_blank ha), parseToken_quoted hkey.quotable]
  · rw [parseToken_blank (isSpace_of_blank hb)]
    rfl
  · exact spans_congr (parseToken_blank (isSpace_of_blank hc) _).symm hspan

/-- The last member. -/
theorem SkipsMember.last (h : SkipsMember m) : SkipsMembers m := by
  intro r
  obtain ⟨key, t, ts, x, hts, hspan, hx⟩ := h (125 :: r) (endsNumber_cons rfl r)
  have hspans := spans_append.mpr ⟨x, hspan, spans_singleton.mpr hx⟩
  exact ⟨_, .objectLast hts, hspans⟩

/-- A member with a comma behind it. -/
theorem SkipsMember.more (h : SkipsMember m) (hrest : SkipsMembers l) :
    SkipsMembers (m ++ 44 :: l) := by
  intro r
  obtain ⟨key, t, ts, x, hts, hspan, hx⟩ := h (44 :: (l ++ 125 :: r)) (endsNumber_cons rfl _)
  obtain ⟨us, hus, hmembers⟩ := hrest r
  have hcomma : Spans (.comma :: us) x r := ⟨l ++ 125 :: r, hx, hmembers⟩
  have hspans := spans_append.mpr ⟨x, hspan, hcomma⟩
  rw [List.append_assoc, List.cons_append]
  exact ⟨_, .objectMore hts hus, hspans⟩

/-- A value with white space in front of it. -/
theorem SkipsValue.blank_append (h : SkipsValue v) (ha : IsJsonBlank a) (hr : EndsNumber r) :
    ∃ t ts, IsItem t ∧ Skipped .success t ts ∧ Spans (t :: ts) (a ++ (v ++ r)) r := by
  obtain ⟨t, ts, hitem, hts, hspan⟩ := h r hr
  exact ⟨t, ts, hitem, hts, spans_congr (parseToken_blank (isSpace_of_blank ha) _).symm hspan⟩

theorem SkipsValue.last (h : SkipsValue v) (ha : IsJsonBlank a) (hb : IsJsonBlank b) :
    SkipsElements (a ++ (v ++ b)) := by
  intro r
  obtain ⟨t, ts, hitem, hts, hspan⟩ := h.blank_append ha
    (endsNumber_blank (isSpace_of_blank hb) (endsNumber_cons (c := 93) rfl r))
  have hend : jsonParseToken (b ++ 93 :: r) = (.arrayEnd, r) := parseToken_blank (isSpace_of_blank hb) _
  have hspans := spans_append.mpr ⟨_, hspan, spans_singleton.mpr hend⟩
  rw [List.append_assoc, List.append_assoc]
  exact ⟨_, .arrayLast hitem hts, hspans⟩

theorem SkipsValue.more (h : SkipsValue v) (ha : IsJsonBlank a) (hb : IsJsonBlank b)
    (hrest : SkipsElements l) : SkipsElements (a ++ (v ++ (b ++ 44 :: l))) := by
  intro r
  obtain ⟨t, ts, hitem, hts, hspan⟩ := h.blank_append ha
    (endsNumber_blank (isSpace_of_blank hb) (endsNumber_cons (c := 44) rfl (l ++ 93 :: r)))
  obtain ⟨us, hus, helements⟩ := hrest r
  have hcomma : Spans (.comma :: us) (b ++ 44 :: (l ++ 93 :: r)) r :=
    ⟨l ++ 93 :: r, parseToken_blank (isSpace_of_blank hb) _, helements⟩
  have hspans := spans_append.mpr ⟨_, hspan, hcomma⟩
  simp only [List.append_assoc, List.cons_append]
  exact ⟨_, .arrayMore hitem hts hus, hspans⟩

end

/-! ### Values -/

/-- **Every JSON value is skipped, and it alone.** -/
theorem JsonValue.skips {v : List UInt8} (hv : JsonValue v) : SkipsValue v := by
  refine @JsonValue.rec (fun l _ => SkipsValue l) (fun l _ => SkipsObject l)
    (fun l _ => SkipsMember l) (fun l _ => SkipsMembers l) (fun l _ => SkipsElements l) ?word ?number
    ?string ?object ?emptyArray ?array ?empty ?members ?member ?oneMember ?moreMembers ?oneElement
    ?moreElements v hv
  case word => exact fun h => skipsValue_word h
  case number =>
    exact fun h => skipsValue_token fun r hr =>
      ⟨_, by simp [IsItem], by simp, by simp, parseToken_jsonNumber h hr⟩
  case string =>
    intro l h
    refine skipsValue_token fun r _ => ⟨.string (CString.ofBytes l), by simp [IsItem], by simp,
      by simp, ?_⟩
    rw [List.cons_append, List.append_assoc]
    exact parseToken_quoted h.quotable r
  case object => exact fun _ h => h.value
  case emptyArray => exact fun ha => skipsValue_emptyArray ha
  case array => exact fun _ h => h.value
  case empty => exact fun ha => skipsObject_empty ha
  case members => exact fun _ h => h.object
  case member => exact fun ha hkey hb hc _ hd hv => skipsMember ha hkey hb hc hv hd
  case oneMember => exact fun _ h => h.last
  case moreMembers => exact fun _ _ h hrest => h.more hrest
  case oneElement => exact fun ha _ hb h => h.last ha hb
  case moreElements => exact fun ha _ hb _ h hrest => h.more ha hb hrest

/-- What may stand behind a value: nothing, white space, a comma, a colon, or a closing bracket. -/
def EndsValue (r : List UInt8) : Prop :=
  ∀ c ∈ r.head?, isSpace c = true ∨ c = 44 ∨ c = 58 ∨ c = 93 ∨ c = 125

theorem EndsValue.endsNumber {r : List UInt8} (h : EndsValue r) : EndsNumber r := by
  intro c hc
  rcases h c hc with hspace | rfl | rfl | rfl | rfl
  · by_contra hnumber
    rw [Bool.not_eq_false] at hnumber
    simp only [isNumberByte, isSpace, isDigit, Bool.or_eq_true, Bool.and_eq_true, beq_iff_eq,
      decide_eq_true_eq, UInt8.le_iff_toNat_le, ← UInt8.toNat_inj, UInt8.reduceToNat] at hspace hnumber
    omega
  · rfl
  · rfl
  · rfl
  · rfl

/-- **Skipping a value is exact**: behind its first token `json_skip_token_value` returns `SUCCESS`,
and leaves what stands behind the value. -/
theorem skip_value_exact {v r : List UInt8} (hv : JsonValue v) (hr : EndsValue r) {fuel : Nat}
    (hfuel : (v ++ r).length < fuel) :
    jsonSkipTokenValue fuel (jsonParseToken (v ++ r)).1 (jsonParseToken (v ++ r)).2 =
      some (.success, r) := by
  obtain ⟨t, ts, -, hts, m, hparse, hspan⟩ := hv.skips r hr.endsNumber
  have hle : m.length ≤ (v ++ r).length := length_of_parseToken hparse
  rw [hparse]
  exact skipTokenValue_of_skipped hts (hle.trans_lt hfuel) hspan

/-- An array in an array. -/
theorem skip_value_exact_nested :
    jsonSkipTokenValue 8 (jsonParseToken (ascii "[[]]" ++ ascii ", 1")).1
      (jsonParseToken (ascii "[[]]" ++ ascii ", 1")).2 = some (.success, ascii ", 1") := by
  have hinner : JsonValue (91 :: ([] ++ [93])) := .emptyArray isJsonBlank_nil
  have houter : JsonValue (ascii "[[]]") := .array (.one isJsonBlank_nil hinner isJsonBlank_nil)
  have hends : EndsValue (ascii ", 1") := by
    intro c hc
    obtain rfl : (44 : UInt8) = c := Option.some.inj hc
    exact .inr (.inl rfl)
  exact skip_value_exact houter hends (by decide)

end Luminix
