import Luminix.Equiv.Format
import Luminix.Equiv.JsonTokens
import Luminix.Json.Places

/-!
# Tokens in their places

A text is one JSON object exactly if its tokens begin with a brace, stand in their places up to the
end of it, are spelled as in JSON, and only white space follows (`jsonText_iff_spelled`).  These are
the tokens that `json_parse_token` reads (`Spelled.spans`).
-/

namespace Luminix

open CLib

variable {s s' s'' : Place × List Bracket} {t : JsonToken} {ts us : List JsonToken}
  {brackets : List Bracket} {a w l l' : List UInt8}

/-! ### Following the tokens -/

theorem placesAfter_append (s : Place × List Bracket) (ts us : List JsonToken) :
    placesAfter s (ts ++ us) = (placesAfter s ts).bind fun s => placesAfter s us := by
  induction ts generalizing s with
  | nil => rfl
  | cons t ts ih =>
    show (placeAfter s t).bind (fun s => placesAfter s (ts ++ us)) = _
    rw [placesAfter, Option.bind_assoc]
    exact congrArg _ (funext ih)

/-- What is spelled one after another. -/
theorem Spelled.append {l'' : List UInt8} (h : Spelled ts l l') (h' : Spelled us l' l'') :
    Spelled (ts ++ us) l l'' := by
  induction h with
  | nil => exact h'
  | cons ha hw _ ih => exact .cons ha hw (ih h')

/-- What stands behind the text does not matter. -/
theorem Spelled.append_right (h : Spelled ts l l') (r : List UInt8) :
    Spelled ts (l ++ r) (l' ++ r) := by
  induction h with
  | nil => exact .nil
  | cons ha hw _ ih =>
    rw [List.append_assoc, List.append_assoc]
    exact .cons ha hw ih

/-- White space may stand before the first token. -/
theorem Spelled.blank_append (h : Spelled (t :: ts) l l') (ha : IsJsonBlank a) :
    Spelled (t :: ts) (a ++ l) l' := by
  cases h with
  | cons hb hw h =>
    rw [← List.append_assoc]
    exact .cons (fun c hc => (List.mem_append.mp hc).elim (ha c) (hb c)) hw h

theorem spelled_singleton (ha : IsJsonBlank a) (hw : JsonLexeme t w) (l : List UInt8) :
    Spelled [t] (a ++ (w ++ l)) l :=
  .cons ha hw .nil

/-! ### From the tokens to the text -/

/-- Behind the first token of a value stands the rest of it. -/
theorem Completes.cons_value (h : Completes s l) (ha : IsJsonBlank a) (hw : JsonLexeme t w)
    (hplace : placeAfterValue brackets t = some s) :
    Completes (.value, brackets) (a ++ (w ++ l)) := by
  cases hw with
  | objectStart =>
    obtain rfl := Option.some.inj hplace
    cases h with
    | firstKey h =>
      cases h with
      | members hm h => simpa using Completes.value ha (.object (.members hm)) h
    | emptyObject hb h => simpa using Completes.value ha (.object (.empty hb)) h
  | arrayStart =>
    obtain rfl := Option.some.inj hplace
    cases h with
    | firstValue h =>
      cases h with
      | value hb hv h =>
        cases h with
        | arrayEnd hc h => simpa using Completes.value ha (.array (.one hb hv hc)) h
        | moreElements hc he h => simpa using Completes.value ha (.array (.more hb hv hc he)) h
    | emptyArray hb h => simpa using Completes.value ha (.emptyArray hb) h
  | string hs =>
    obtain rfl := Option.some.inj hplace
    exact .value ha (.string hs) h
  | number hn =>
    obtain rfl := Option.some.inj hplace
    exact .value ha (.number hn) h
  | «false» =>
    obtain rfl := Option.some.inj hplace
    exact .value ha (.word (by simp)) h
  | «true» =>
    obtain rfl := Option.some.inj hplace
    exact .value ha (.word (by simp)) h
  | null =>
    obtain rfl := Option.some.inj hplace
    exact .value ha (.word (by simp)) h
  | _ => cases hplace

/-- A key, its colon and its value are a member, and so may more be. -/
theorem Completes.cons_key {chars : List UInt8} (h : Completes (.colon, .object :: brackets) l)
    (ha : IsJsonBlank a) (hs : JsonChars chars) :
    Completes (.key, .object :: brackets) (a ++ (34 :: (chars ++ [34]) ++ l)) := by
  cases h with
  | colon hb hc hv h =>
    cases h with
    | objectEnd hd h => simpa using Completes.members (.one (.member ha hs hb hc hv hd)) h
    | moreMembers hd hm h => simpa using Completes.members (.more (.member ha hs hb hc hv hd) hm) h

/-- **A token in its place is completed by what completes the text behind it.** -/
theorem Completes.cons (h : Completes s' l) (ha : IsJsonBlank a) (hw : JsonLexeme t w)
    (hplace : placeAfter s t = some s') : Completes s (a ++ (w ++ l)) := by
  obtain ⟨place, brackets⟩ := s
  cases place with
  | value => exact h.cons_value ha hw hplace
  | firstValue =>
    -- only the end of an array has a place here and none where a value has to stand
    by_cases hend : t = .arrayEnd ∧ brackets.head? = some .array
    · obtain ⟨rfl, hhead⟩ := hend
      obtain ⟨rest, rfl⟩ := List.head?_eq_some_iff.mp hhead
      obtain rfl := Option.some.inj hplace
      cases hw with
      | arrayEnd => exact .emptyArray ha h
    · refine .firstValue (h.cons_value ha hw ?_)
      cases brackets with
      | nil => exact hplace
      | cons b brackets =>
        cases b with
        | object => exact hplace
        | array =>
          cases hw with
          | arrayEnd => exact absurd ⟨rfl, rfl⟩ hend
          | _ => exact hplace
  -- in the other places the innermost bracket and the token say what is meant
  | firstKey =>
    rcases brackets with _ | ⟨_ | _, brackets⟩ <;> cases hw <;> cases hplace
    · exact .emptyObject ha h
    next hs => exact .firstKey (h.cons_key ha hs)
  | key =>
    rcases brackets with _ | ⟨_ | _, brackets⟩ <;> cases hw <;> cases hplace
    next hs => exact h.cons_key ha hs
  | colon =>
    rcases brackets with _ | ⟨_ | _, brackets⟩ <;> cases hw <;> cases hplace
    cases h with
    | value hb hv h => simpa using Completes.colon ha hb hv h
  | next =>
    rcases brackets with _ | ⟨_ | _, brackets⟩ <;> cases hw <;> cases hplace
    · exact .objectEnd ha h
    · cases h with
      | members hm h => exact .moreMembers ha hm h
    · exact .arrayEnd ha h
    · cases h with
      | value hb hv h =>
        cases h with
        | arrayEnd hc h => simpa using Completes.moreElements ha (.one hb hv hc) h
        | moreElements hc he h => simpa using Completes.moreElements ha (.more hb hv hc he) h

theorem Completes.of_spelled (h : Completes s' l') (hts : Spelled ts l l')
    (hplaces : placesAfter s ts = some s') : Completes s l := by
  induction hts generalizing s with
  | nil => exact Option.some.inj hplaces ▸ h
  | cons ha hw _ ih =>
    obtain ⟨s₁, hplace, hrest⟩ := Option.bind_eq_some_iff.mp hplaces
    exact (ih h hrest).cons ha hw hplace

/-- What completes an object makes it a text. -/
theorem Completes.jsonText (h : Completes s l') (hts : Spelled (.objectStart :: ts) l l')
    (hplaces : placesAfter (.value, []) (.objectStart :: ts) = some s) : JsonText l := by
  cases hts with
  | cons ha hw hspelled =>
    cases hw
    have hobject := h.of_spelled hspelled (hplaces : placesAfter (.firstKey, [.object]) ts = _)
    cases hobject with
    | firstKey hkey =>
      cases hkey with
      | members hm hrest =>
        cases hrest with
        | done hl => exact ⟨_, _, _, by simp, ha, .members hm, hl⟩
    | emptyObject hb hrest =>
      cases hrest with
      | done hl => exact ⟨_, _, _, by simp, ha, .empty hb, hl⟩

/-- A text is a document. -/
theorem JsonText.document (h : JsonText l) : JsonDocument l := by
  obtain ⟨a, v, b, hl, ha, hv, hb⟩ := h
  exact ⟨a, v, b, hl, ha, .object hv, hb⟩

/-! ### From the text to the tokens -/

/-- The text is spelled out by tokens that lead from one place to what follows a value. -/
def Follows (place : Place) (bracket : Bracket) (l : List UInt8) : Prop :=
  ∃ ts b, IsJsonBlank b ∧ Spelled ts l b ∧ ∀ brackets,
    placesAfter (place, bracket :: brackets) ts = some (.next, bracket :: brackets)

/-- So is a value, and no bracket matters to it. -/
def IsValueText (l : List UInt8) : Prop :=
  ∃ ts, Spelled ts l [] ∧ ∀ brackets, placesAfter (.value, brackets) ts = some (.next, brackets)

theorem isValueText_token (hw : JsonLexeme t w)
    (hplace : ∀ brackets, placeAfterValue brackets t = some (.next, brackets)) : IsValueText w := by
  refine ⟨[t], by simpa using spelled_singleton isJsonBlank_nil hw [], fun brackets => ?_⟩
  rw [placesAfter, placeAfter, hplace]
  rfl

/-- What may stand where the first value has to may stand where it may end. -/
theorem placesAfter_firstValue (h : placesAfter (.value, brackets) (t :: ts) = some s) :
    placesAfter (.firstValue, brackets) (t :: ts) = some s := by
  obtain ⟨s', hplace, hrest⟩ := Option.bind_eq_some_iff.mp h
  have hfirst : placeAfter (.firstValue, brackets) t = some s' := by
    rcases brackets with _ | ⟨_ | _, brackets⟩ <;> cases t <;> first | exact hplace | cases hplace
  exact Option.bind_eq_some_iff.mpr ⟨s', hfirst, hrest⟩

theorem placesAfter_firstKey (h : placesAfter (.key, brackets) (t :: ts) = some s) :
    placesAfter (.firstKey, brackets) (t :: ts) = some s := by
  obtain ⟨s', hplace, hrest⟩ := Option.bind_eq_some_iff.mp h
  have hfirst : placeAfter (.firstKey, brackets) t = some s' := by
    rcases brackets with _ | ⟨_ | _, brackets⟩ <;> cases t <;> first | exact hplace | cases hplace
  exact Option.bind_eq_some_iff.mpr ⟨s', hfirst, hrest⟩

/-- An object is a value that begins with a brace. -/
def IsObjectText (l : List UInt8) : Prop :=
  ∃ ts, Spelled (.objectStart :: ts) l [] ∧
    ∀ brackets, placesAfter (.value, brackets) (.objectStart :: ts) = some (.next, brackets)

/-- Something between two brackets, which may be white space. -/
theorem Spelled.between {b r : List UInt8} {closing : JsonToken} (ho : JsonLexeme t w)
    (h : Spelled ts l b) (hb : IsJsonBlank b) (hc : JsonLexeme closing r) :
    Spelled (t :: (ts ++ [closing])) (w ++ (l ++ r)) [] := by
  have hclose : Spelled [closing] (b ++ r) [] := by simpa using spelled_singleton hb hc []
  exact .cons (a := []) isJsonBlank_nil ho ((h.append_right r).append hclose)

theorem Follows.object (h : Follows .key .object l) : IsObjectText (123 :: (l ++ [125])) := by
  obtain ⟨ts, b, hb, hts, hplaces⟩ := h
  refine ⟨_, .between .objectStart hts hb .objectEnd, fun brackets => ?_⟩
  cases ts with
  | nil => cases hplaces []
  | cons t ts =>
    show placesAfter (.firstKey, .object :: brackets) (t :: ts ++ [.objectEnd]) = _
    rw [placesAfter_append, placesAfter_firstKey (hplaces brackets)]
    rfl

theorem Follows.array (h : Follows .value .array l) : IsValueText (91 :: (l ++ [93])) := by
  obtain ⟨ts, b, hb, hts, hplaces⟩ := h
  refine ⟨_, .between .arrayStart hts hb .arrayEnd, fun brackets => ?_⟩
  cases ts with
  | nil => cases hplaces []
  | cons t ts =>
    show placesAfter (.firstValue, .array :: brackets) (t :: ts ++ [.arrayEnd]) = _
    rw [placesAfter_append, placesAfter_firstValue (hplaces brackets)]
    rfl

/-- A value with white space around it is an element. -/
theorem IsValueText.follows {v b : List UInt8} (hv : IsValueText v) (ha : IsJsonBlank a)
    (hb : IsJsonBlank b) : Follows .value .array (a ++ (v ++ b)) := by
  obtain ⟨ts, hts, hplaces⟩ := hv
  cases ts with
  | nil => cases hplaces []
  | cons t ts => exact ⟨t :: ts, b, hb, (hts.append_right b).blank_append ha, fun _ => hplaces _⟩

/-- A key, a colon and a value are a member. -/
theorem IsValueText.member {key v b c d : List UInt8} (hv : IsValueText v) (ha : IsJsonBlank a)
    (hkey : JsonChars key) (hb : IsJsonBlank b) (hc : IsJsonBlank c) (hd : IsJsonBlank d) :
    Follows .key .object (a ++ (34 :: (key ++ 34 :: (b ++ 58 :: (c ++ (v ++ d)))))) := by
  obtain ⟨ts, hts, hplaces⟩ := hv
  cases ts with
  | nil => cases hplaces []
  | cons t ts =>
    have hspelled : Spelled (.string (CString.ofBytes key) :: .colon :: t :: ts) _ d :=
      .cons ha (.string hkey) (.cons hb .colon ((hts.append_right d).blank_append hc))
    refine ⟨_, d, hd, by simpa using hspelled, fun brackets => ?_⟩
    exact hplaces (.object :: brackets)

/-- Two parts with a comma between them. -/
theorem Follows.comma {place : Place} {bracket : Bracket} {r : List UInt8}
    (h : Follows place bracket l) (h' : Follows place bracket r)
    (hcomma : ∀ brackets, placeAfter (.next, bracket :: brackets) .comma =
      some (place, bracket :: brackets)) :
    Follows place bracket (l ++ 44 :: r) := by
  obtain ⟨ts, b, hb, hts, hplaces⟩ := h
  obtain ⟨us, b', hb', hus, hplaces'⟩ := h'
  have hmiddle : Spelled (.comma :: us) (b ++ ([44] ++ r)) b' := .cons hb .comma hus
  refine ⟨_, b', hb', (hts.append_right ([44] ++ r)).append hmiddle, fun brackets => ?_⟩
  rw [placesAfter_append, hplaces, Option.bind_some, placesAfter, hcomma]
  exact hplaces' brackets

/-- **The tokens of a value.** -/
theorem JsonValue.isValueText {v : List UInt8} (h : JsonValue v) : IsValueText v := by
  refine @JsonValue.rec (fun v _ => IsValueText v) (fun v _ => IsObjectText v)
    (fun m _ => Follows .key .object m) (fun l _ => Follows .key .object l)
    (fun l _ => Follows .value .array l) ?word ?number ?string ?object ?emptyArray ?array
    ?emptyObject ?members ?member ?one ?more ?oneElement ?moreElements v h
  case word =>
    intro l hl
    simp only [List.mem_cons, List.not_mem_nil, or_false] at hl
    rcases hl with rfl | rfl | rfl
    · exact isValueText_token .false fun _ => rfl
    · exact isValueText_token .null fun _ => rfl
    · exact isValueText_token .true fun _ => rfl
  case number => exact fun hn => isValueText_token (.number hn) fun _ => rfl
  case string => exact fun hs => isValueText_token (.string hs) fun _ => rfl
  case object => exact fun _ ⟨ts, hts, hplaces⟩ => ⟨_, hts, hplaces⟩
  case emptyArray => exact fun ha => ⟨_, .between .arrayStart .nil ha .arrayEnd, fun _ => rfl⟩
  case array => exact fun _ ih => ih.array
  case emptyObject => exact fun ha => ⟨_, .between .objectStart .nil ha .objectEnd, fun _ => rfl⟩
  case members => exact fun _ ih => ih.object
  case member => exact fun ha hkey hb hc _ hd ih => ih.member ha hkey hb hc hd
  case one => exact fun _ ih => ih
  case more => exact fun _ _ ih ih' => ih.comma ih' fun _ => rfl
  case oneElement => exact fun ha _ hb ih => ih.follows ha hb
  case moreElements =>
    intro a v b l ha _ hb _ ih ih'
    have hmore := (ih.follows ha hb).comma ih' fun _ => rfl
    simpa using hmore

/-- The members of an object, one after another. -/
theorem JsonMembers.follows {m : List UInt8} (h : JsonMembers m) : Follows .key .object m := by
  have hmember : ∀ {m : List UInt8}, JsonMember m → Follows .key .object m := by
    rintro _ ⟨ha, hkey, hb, hc, hv, hd⟩
    exact hv.isValueText.member ha hkey hb hc hd
  induction h using JsonMembers.induct with
  | one h => exact hmember h
  | more h _ ih => exact (hmember h).comma ih fun _ => rfl

theorem JsonObject.isObjectText {v : List UInt8} (h : JsonObject v) : IsObjectText v := by
  cases h with
  | empty ha => exact ⟨_, .between .objectStart .nil ha .objectEnd, fun _ => rfl⟩
  | members hm => exact hm.follows.object

/-- **A JSON text** is what its tokens spell, each in its place, up to the end of the object. -/
theorem jsonText_iff_spelled : JsonText l ↔ ∃ ts rest,
    Spelled (.objectStart :: ts) l rest ∧
      placesAfter (.value, []) (.objectStart :: ts) = some (.next, []) ∧ IsJsonBlank rest := by
  constructor
  · rintro ⟨a, v, b, rfl, ha, hv, hb⟩
    obtain ⟨ts, hts, hplaces⟩ := hv.isObjectText
    exact ⟨ts, b, (hts.append_right b).blank_append ha, hplaces [], hb⟩
  · rintro ⟨ts, rest, hts, hplaces, hrest⟩
    exact (Completes.done hrest).jsonText hts hplaces

/-! ### The tokens that are read -/

/-- A number ends in front of every token that may follow it, and at the end of the text. -/
theorem Spelled.endsNumber (h : Spelled ts l l') (hblank : IsJsonBlank l')
    (hplace : (placesAfter (.next, brackets) ts).isSome = true) : EndsNumber l := by
  have hnil : EndsNumber [] := by simp [EndsNumber]
  cases h with
  | nil =>
    have hend := endsNumber_blank (isSpace_of_blank hblank) hnil
    rwa [List.append_nil] at hend
  | @cons t ts a w l l' ha hw h =>
    refine endsNumber_blank (isSpace_of_blank ha) ?_
    rcases brackets with _ | ⟨_ | _, brackets⟩ <;> cases hw <;> first | cases hplace | skip
    all_goals
      intro c hc
      obtain rfl := Option.some.inj hc
      rfl

theorem place_after_number {n : CString} (h : placeAfter s (.number n) = some s') :
    ∃ brackets, s' = (.next, brackets) := by
  obtain ⟨place, brackets⟩ := s
  cases place <;> rcases brackets with _ | ⟨_ | _, brackets⟩ <;> cases h <;> exact ⟨_, rfl⟩

/-- What JSON spells is read as that token. -/
theorem parseToken_lexeme (hw : JsonLexeme t w) (ha : IsJsonBlank a)
    (hnumber : (∃ n, t = .number n) → EndsNumber l) : jsonParseToken (a ++ (w ++ l)) = (t, l) := by
  rw [parseToken_blank (isSpace_of_blank ha)]
  cases hw with
  | string hs => simpa using parseToken_quoted hs.quotable l
  | number hn => exact parseToken_jsonNumber hn (hnumber ⟨_, rfl⟩)
  | _ => rfl

/-- **The tokens in their places are those that are read**, as far as they are looked at. -/
theorem Spelled.spans (h : Spelled (ts ++ us) l l') (hblank : IsJsonBlank l')
    (hplaces : (placesAfter s (ts ++ us)).isSome = true) :
    ∃ m, Spelled ts l m ∧ Spans ts l m ∧ Spelled us m l' := by
  induction ts generalizing s l with
  | nil => exact ⟨l, .nil, rfl, h⟩
  | cons t ts ih =>
    cases h with
    | @cons _ _ a w l _ ha hw h =>
      obtain ⟨q, hq⟩ := Option.isSome_iff_exists.mp hplaces
      obtain ⟨s', hplace, hrest⟩ := Option.bind_eq_some_iff.mp hq
      have hsome : (placesAfter s' (ts ++ us)).isSome = true :=
        Option.isSome_iff_exists.mpr ⟨q, hrest⟩
      have hread : jsonParseToken (a ++ (w ++ l)) = (t, l) := by
        refine parseToken_lexeme hw ha ?_
        rintro ⟨n, rfl⟩
        obtain ⟨brackets, rfl⟩ := place_after_number hplace
        exact h.endsNumber hblank hsome
      obtain ⟨m, hts, hspan, hus⟩ := ih h hsome
      exact ⟨m, .cons ha hw hts, ⟨l, hread, hspan⟩, hus⟩

end Luminix
