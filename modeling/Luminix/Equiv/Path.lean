import Luminix.Equiv.Lexemes
import Luminix.Equiv.Progress
import Luminix.Equiv.ValueText
import Luminix.Json.Tools

/-!
# Looking up a member by its path

For a path `$.k`, `json_path_query_string_simplified` goes through the members of an object until it
finds the key.  Of the values in front it skips one token each, where the other functions call
`json_skip_token_value`: behind an object or an array it finds no comma, and gives up
(`path_finds_iff`).
-/

namespace Luminix

open CLib TokenReader

/-! ### The members of an object -/

/-- A member with the white space around it, given by its key and the text of its value. -/
inductive MemberText : List UInt8 → List UInt8 → List UInt8 → Prop
  | member {a key b c v d : List UInt8} (ha : IsJsonBlank a) (hkey : JsonChars key) (hb : IsJsonBlank b)
      (hc : IsJsonBlank c) (hv : JsonValue v) (hd : IsJsonBlank d) :
      MemberText key v (a ++ (34 :: (key ++ 34 :: (b ++ 58 :: (c ++ (v ++ d))))))

/-- Members with commas between them, in their order. -/
inductive MemberTexts : List (List UInt8 × List UInt8) → List UInt8 → Prop
  | one {key v m : List UInt8} (hm : MemberText key v m) : MemberTexts [(key, v)] m
  | more {key v m l : List UInt8} {ms : List (List UInt8 × List UInt8)} (hm : MemberText key v m)
      (hrest : MemberTexts ms l) : MemberTexts ((key, v) :: ms) (m ++ 44 :: l)

/-- A JSON text that is one object with these members. -/
def ObjectText (ms : List (List UInt8 × List UInt8)) (s : List UInt8) : Prop :=
  ∃ a l b, s = a ++ 123 :: (l ++ 125 :: b) ∧ IsJsonBlank a ∧ IsJsonBlank b ∧
    (ms = [] ∧ IsJsonBlank l ∨ MemberTexts ms l)

/-! ### One member -/

/-- A value that is an object or an array. -/
def IsNested (v : List UInt8) : Prop := ∃ l, v = 123 :: l ∨ v = 91 :: l

instance (v : List UInt8) : Decidable (IsNested v) :=
  decidable_of_iff (v.head? = some 123 ∨ v.head? = some 91) <| by
    cases v <;> simp [IsNested, exists_or]

/-- A number, a boolean or `null`. -/
def IsPlain (v : List UInt8) : Prop :=
  JsonNumber v ∨ v ∈ [ascii "false", ascii "null", ascii "true"]

variable {p : Platform} {k : CString} {key v m l r : List UInt8}

theorem MemberText.reads (h : MemberText key v m) (r : List UInt8) :
    ∃ x y d, jsonParseToken (m ++ r) = (.string (CString.ofBytes key), x) ∧
      jsonParseToken x = (.colon, y) ∧ jsonParseToken y = jsonParseToken (v ++ (d ++ r)) ∧
      IsJsonBlank d := by
  cases h with
  | @member a key b c v d ha hkey hb hc hv hd =>
    refine ⟨b ++ 58 :: (c ++ (v ++ (d ++ r))), c ++ (v ++ (d ++ r)), d, ?_, ?_,
      parseToken_blank (isSpace_of_blank hc) _, hd⟩
    · have htext : a ++ (34 :: (key ++ 34 :: (b ++ 58 :: (c ++ (v ++ d))))) ++ r =
          a ++ 34 :: (key ++ 34 :: (b ++ 58 :: (c ++ (v ++ (d ++ r))))) := by
        simp
      rw [htext, parseToken_blank (isSpace_of_blank ha), parseToken_quoted hkey.quotable]
    · rw [parseToken_blank (isSpace_of_blank hb)]
      rfl

theorem JsonObject.isNested (h : JsonObject v) : IsNested v := by
  cases h with
  | empty _ => exact ⟨_, .inl rfl⟩
  | members _ => exact ⟨_, .inl rfl⟩

/-- A value that is no object and no array is a single token. -/
theorem JsonValue.skip_flat (hv : JsonValue v) (hflat : ¬IsNested v) (hr : EndsNumber r) :
    jsonParseToken (jsonParseToken (v ++ r)).2 = jsonParseToken r := by
  have hsingle : ∀ {t : JsonToken} {o : Bool}, t ≠ .none → Lexes v [t] o →
      jsonParseToken (jsonParseToken (v ++ r)).2 = jsonParseToken r := by
    intro t o ht hlex
    obtain ⟨r', hparse, hrest⟩ := (hlex r fun _ => hr).head ht
    rw [hparse]
    cases hrest with
    | done h => exact h
  cases hv with
  | word h =>
    obtain ⟨t, hlex⟩ := lexes_word h
    exact hsingle t.ne_none hlex
  | number h => exact hsingle (by simp) (lexes_jsonNumber h)
  | string h => exact hsingle (by simp) (lexes_chars h)
  | object h => exact absurd h.isNested hflat
  | emptyArray _ => exact absurd ⟨_, .inr rfl⟩ hflat
  | array _ => exact absurd ⟨_, .inr rfl⟩ hflat

/-- Behind the first token of an object or of an array there is no comma. -/
theorem JsonValue.skip_nested (hv : JsonValue v) (hnested : IsNested v) (hr : EndsNumber r) :
    (jsonParseToken (jsonParseToken (v ++ r)).2).1 ≠ .comma := by
  obtain ⟨ts, hts, hlex⟩ := hv.lexes
  have hreads := hlex r fun _ => hr
  -- the second token decides
  have hsecond : ∀ {t u : JsonToken} {us : List JsonToken}, ts = t :: u :: us → t ≠ .none →
      u ≠ .comma → (jsonParseToken (jsonParseToken (v ++ r)).2).1 ≠ .comma := by
    intro t u us htokens ht hcomma
    rw [htokens] at hreads
    obtain ⟨l, hparse, hrest⟩ := hreads.head ht
    rw [hparse]
    cases hrest with
    | token _ hscan _ => rwa [hscan]
    | stuck hscan _ => rwa [hscan]
  rcases hts.cases with ⟨t, rfl⟩ | ⟨us, rfl, hne, hcomma, -⟩ | ⟨ms, rfl⟩
  · obtain ⟨l, hparse, -⟩ := hreads.head t.ne_none
    have hstart : t.token = .objectStart ∨ t.token = .arrayStart := by
      obtain ⟨w, rfl | rfl⟩ := hnested
      · exact .inl (congrArg Prod.fst hparse).symm
      · exact .inr (congrArg Prod.fst hparse).symm
    have hscalar := t.scalar
    rcases hstart with h | h <;> rw [h] at hscalar <;> cases hscalar
  · obtain ⟨u, us, rfl⟩ := List.exists_cons_of_ne_nil hne
    exact hsecond rfl (by simp) fun h => hcomma (by rw [h]; rfl)
  · rcases ms with _ | ⟨m, _ | ⟨m', ms⟩⟩
    · exact hsecond rfl (by simp) (by simp)
    · exact hsecond rfl (by simp) (by simp)
    · exact hsecond rfl (by simp) (by simp)

theorem IsPlain.nulFree (hv : IsPlain v) : (0 : UInt8) ∉ v := by
  have hmarks : (0 : UInt8) ∉ ascii "-+.eE" := by decide
  have hwords : ∀ l ∈ [ascii "false", ascii "null", ascii "true"], (0 : UInt8) ∉ l := by
    decide
  rcases hv with hv | hv
  · intro hzero
    exact (hv.numberText.mem hzero).elim Bool.false_ne_true hmarks
  · exact hwords v hv

/-- The text of a number, a boolean or `null` is given back if it can be copied. -/
theorem IsPlain.pathValue (hv : IsPlain v) (hr : EndsNumber r) :
    pathValue p (jsonParseToken (v ++ r)).1 =
      if p.malloc (v.length + 1) then some (CString.ofBytes v) else none := by
  have hlength : (CString.ofBytes v).length = v.length :=
    congrArg List.length (CString.bytes_ofBytes hv.nulFree)
  have hdup : jsonStrdup p (CString.ofBytes v) =
      if p.malloc (v.length + 1) then some (CString.ofBytes v) else none := by
    rw [jsonStrdup, hlength]
  rw [← hdup]
  rcases hv with hv | hv
  · rw [parseToken_jsonNumber hv hr]
    rfl
  · simp only [List.mem_cons, List.not_mem_nil, or_false] at hv
    rcases hv with rfl | rfl | rfl
    · rfl
    · rfl
    · rfl

/-! ### The loop -/

/-- The member that is looked for. -/
theorem pathLoop_key (hm : MemberText k.bytes v m) (hr : EndsNumber r) (fuel : Nat) : ∃ d,
    EndsNumber (d ++ r) ∧
      pathLoop p k (fuel + 1) (m ++ r) = .ok (pathValue p (jsonParseToken (v ++ (d ++ r))).1) := by
  obtain ⟨x, y, d, hstring, hcolon, hvalue, hd⟩ := hm.reads r
  refine ⟨d, endsNumber_blank (isSpace_of_blank hd) hr, ?_⟩
  rw [pathLoop, hstring]
  dsimp only
  rw [hcolon]
  dsimp only
  rw [if_pos (CString.ofBytes_bytes k), hvalue]

section

variable (hm : MemberText key v m) (hzero : (0 : UInt8) ∉ m) (hkey : key ≠ k.bytes)

include hm hzero hkey

/-- Any other member: one token of its value is skipped, and a comma has to follow. -/
theorem pathLoop_other (r : List UInt8) (fuel : Nat) : ∃ d, IsJsonBlank d ∧
    (∀ l, jsonParseToken (jsonParseToken (v ++ (d ++ r))).2 = (.comma, l) →
      pathLoop p k (fuel + 1) (m ++ r) = pathLoop p k fuel l) ∧
    ((jsonParseToken (jsonParseToken (v ++ (d ++ r))).2).1 ≠ .comma →
      pathLoop p k (fuel + 1) (m ++ r) = .ok none) := by
  obtain ⟨x, y, d, hstring, hcolon, hvalue, hd⟩ := hm.reads r
  have hne : CString.ofBytes key ≠ k := by
    rintro rfl
    have hnul : (0 : UInt8) ∉ key := by
      cases hm
      exact fun h => hzero (by simp [h])
    exact hkey (CString.bytes_ofBytes hnul).symm
  refine ⟨d, hd, fun l hcomma => ?_, fun hcomma => ?_⟩
  · rw [pathLoop, hstring]
    simp only [hcolon, if_neg hne, hvalue, hcomma]
  · rw [pathLoop, hstring]
    simp only [hcolon, if_neg hne, hvalue]
    split
    · rename_i heq
      exact absurd (congrArg Prod.fst heq) hcomma
    · rfl

theorem pathLoop_flat (hv : ¬IsNested v) (hr : EndsNumber r) (fuel : Nat) :
    (∀ l, jsonParseToken r = (.comma, l) →
      pathLoop p k (fuel + 1) (m ++ r) = pathLoop p k fuel l) ∧
    ((jsonParseToken r).1 ≠ .comma → pathLoop p k (fuel + 1) (m ++ r) = .ok none) := by
  obtain ⟨d, hd, hnext, hend⟩ := @pathLoop_other p k key v m hm hzero hkey r fuel
  have hskip : jsonParseToken (jsonParseToken (v ++ (d ++ r))).2 = jsonParseToken r := by
    cases hm with
    | member _ _ _ _ hjson _ =>
      rw [hjson.skip_flat hv (endsNumber_blank (isSpace_of_blank hd) hr),
        parseToken_blank (isSpace_of_blank hd)]
  rw [hskip] at hnext hend
  exact ⟨hnext, hend⟩

theorem pathLoop_nested (hv : IsNested v) (hr : EndsNumber r) (fuel : Nat) :
    pathLoop p k (fuel + 1) (m ++ r) = .ok none := by
  obtain ⟨d, hd, -, hend⟩ := @pathLoop_other p k key v m hm hzero hkey r fuel
  refine hend ?_
  cases hm with
  | member _ _ _ _ hjson _ =>
    exact hjson.skip_nested hv (endsNumber_blank (isSpace_of_blank hd) hr)

end

/-- The member that the loop finds, given by its value: the first one with the key, unless there is an
object or an array in front of it. -/
def pathMember (k : List UInt8) : List (List UInt8 × List UInt8) → Option (List UInt8)
  | [] => none
  | (key, v) :: ms => if key = k then some v else if IsNested v then none else pathMember k ms

/-- The loop has found the value `v`, or nothing. -/
def PathEnds (p : Platform) (v : Option (List UInt8)) (result : Except Failure (Option CString)) :
    Prop :=
  match v with
  | none => result = .ok none
  | some v => ∃ r, EndsNumber r ∧ result = .ok (pathValue p (jsonParseToken (v ++ r)).1)

/-- **The loop over all members.** -/
theorem pathLoop_members {ms : List (List UInt8 × List UInt8)} (h : MemberTexts ms l)
    (hzero : (0 : UInt8) ∉ l) {fuel : Nat} (hfuel : ms.length ≤ fuel) (r : List UInt8) :
    PathEnds p (pathMember k.bytes ms) (pathLoop p k fuel (l ++ 125 :: r)) := by
  induction h generalizing fuel with
  | @one key v m hm =>
    obtain ⟨fuel, rfl⟩ := Nat.exists_eq_add_of_le' hfuel
    rw [pathMember]
    split_ifs with hkey hv
    · subst hkey
      obtain ⟨d, hd, hloop⟩ := @pathLoop_key p k v m (125 :: r) hm (endsNumber_cons rfl r) fuel
      exact ⟨_, hd, hloop⟩
    · exact pathLoop_nested hm hzero hkey hv (endsNumber_cons rfl r) fuel
    · have hend : jsonParseToken (125 :: r) = (.objectEnd, r) := rfl
      exact (pathLoop_flat hm hzero hkey hv (endsNumber_cons rfl r) fuel).2 (by simp [hend])
  | @more key v m l ms hm hrest ih =>
    obtain ⟨fuel, rfl⟩ := Nat.exists_eq_add_of_le' hfuel
    have hzeros : (0 : UInt8) ∉ m ∧ (0 : UInt8) ∉ l := by simpa using hzero
    have htail : EndsNumber (44 :: (l ++ 125 :: r)) := endsNumber_cons rfl _
    rw [pathMember, List.append_assoc, List.cons_append, List.length_cons, ← Nat.add_assoc]
    split_ifs with hkey hv
    · subst hkey
      obtain ⟨d, hd, hloop⟩ := @pathLoop_key p k v m _ hm htail (fuel + ms.length)
      exact ⟨_, hd, hloop⟩
    · exact pathLoop_nested hm hzeros.1 hkey hv htail _
    · rw [(pathLoop_flat hm hzeros.1 hkey hv htail _).1 _ rfl]
      exact ih hzeros.2 (by omega)

/-- For any text the loop comes to an end: each round reads a token. -/
theorem pathLoop_ne_error {fuel : Nat} (hfuel : l.length < fuel) (e : Failure) :
    pathLoop p k fuel l ≠ .error e := by
  induction fuel generalizing l with
  | zero => exact absurd hfuel (Nat.not_lt_zero _)
  | succ fuel ih =>
    rw [pathLoop]
    split
    · rename_i currentKey l₁ hstring
      split
      · rename_i l₂ hcolon
        split_ifs with hkey
        · simp
        · split
          · rename_i l₄ hcomma
            have h₁ := length_of_parseToken hstring
            have h₂ := length_of_parseToken hcolon
            have h₃ := length_parseToken_le l₂
            have h₄ := length_parseToken_lt hcomma (by simp) (by simp)
            exact ih (by omega)
          · simp
      · simp
    · simp

theorem jsonPathQuery_ne_error (p : Platform) (s path : Option CString) (e : Failure) :
    jsonPathQueryStringSimplified p s path ≠ .error e := by
  unfold jsonPathQueryStringSimplified
  split
  · split_ifs with hroot
    · simp
    · split
      · split
        · exact pathLoop_ne_error (Nat.lt_succ_self _) e
        · simp
      · simp
  · simp

/-! ### The first member with the key -/

section

variable {k : List UInt8} {ms pre post : List (List UInt8 × List UInt8)}

theorem pathMember_of_forall_ne (h : ∀ m ∈ ms, m.1 ≠ k) : pathMember k ms = none := by
  induction ms with
  | nil => rfl
  | cons m ms ih =>
    rw [pathMember, if_neg (h m List.mem_cons_self)]
    split_ifs with hv
    · rfl
    · exact ih fun m hm => h m (List.mem_cons_of_mem _ hm)

theorem pathMember_append (hkeys : ∀ m ∈ pre, m.1 ≠ k) (v : List UInt8) :
    pathMember k (pre ++ (k, v) :: post) = some v ↔ ∀ m ∈ pre, ¬IsNested m.2 := by
  induction pre with
  | nil => simp [pathMember]
  | cons m pre ih =>
    have hrest := ih fun m hm => hkeys m (List.mem_cons_of_mem _ hm)
    rw [List.cons_append, pathMember, if_neg (hkeys m List.mem_cons_self), List.forall_mem_cons]
    split_ifs with hv
    · simp [hv]
    · rw [hrest, and_iff_right hv]

theorem pathMember_append_or (v : List UInt8) (hkeys : ∀ m ∈ pre, m.1 ≠ k) :
    pathMember k (pre ++ (k, v) :: post) = some v ∨ pathMember k (pre ++ (k, v) :: post) = none := by
  induction pre with
  | nil => simp [pathMember]
  | cons m pre ih =>
    rw [List.cons_append, pathMember, if_neg (hkeys m List.mem_cons_self)]
    split_ifs with hv
    · exact .inr rfl
    · exact ih fun m hm => hkeys m (List.mem_cons_of_mem _ hm)

end

/-! ### The function -/

/-- The path `$.k`. -/
def memberPath (k : CString) : CString := CString.ofBytes (36 :: 46 :: k.bytes)

/-- For a key that is not there, nothing is found; for a key whose first member is a number, a
boolean or `null`, the text of that value. -/
def PathFinds (p : Platform) (s k : CString) (ms : List (List UInt8 × List UInt8)) : Prop :=
  ((∀ m ∈ ms, m.1 ≠ k.bytes) →
    jsonPathQueryStringSimplified p (some s) (some (memberPath k)) = .ok none) ∧
  ∀ pre v post, ms = pre ++ (k.bytes, v) :: post → (∀ m ∈ pre, m.1 ≠ k.bytes) → IsPlain v →
    jsonPathQueryStringSimplified p (some s) (some (memberPath k)) = .ok (some (CString.ofBytes v))

theorem MemberTexts.length_le {ms : List (List UInt8 × List UInt8)} (h : MemberTexts ms l) :
    ms.length ≤ l.length := by
  induction h with
  | one hm =>
    cases hm
    simp only [List.length_append, List.length_cons, List.length_nil]
    omega
  | more _ _ ih =>
    simp only [List.length_append, List.length_cons]
    omega

theorem jsonPathQuery_memberPath (p : Platform) (s k : CString) :
    jsonPathQueryStringSimplified p (some s) (some (memberPath k)) =
      match jsonParseToken s.bytes with
      | (.objectStart, l) => pathLoop p k (l.length + 1) l
      | _ => .ok none := by
  have hnul : (0 : UInt8) ∉ 36 :: 46 :: k.bytes := by simpa using k.nulFree
  have hbytes : (memberPath k).bytes = 36 :: 46 :: k.bytes := CString.bytes_ofBytes hnul
  have hne : memberPath k ≠ cstr "$" := by
    intro h
    have hlength := congrArg CString.length h
    rw [CString.length, hbytes, List.length_cons, List.length_cons] at hlength
    have hone : (cstr "$").length = 1 := by decide
    omega
  rw [jsonPathQueryStringSimplified, if_neg hne, hbytes]
  conv_rhs => rw [← CString.ofBytes_bytes k]
  rfl

theorem ObjectText.query {ms : List (List UInt8 × List UInt8)} {s : CString}
    (h : ObjectText ms s.bytes) : PathEnds p (pathMember k.bytes ms)
      (jsonPathQueryStringSimplified p (some s) (some (memberPath k))) := by
  obtain ⟨a, l, b, hs, ha, hb, hms⟩ := h
  have hparse : jsonParseToken s.bytes = (.objectStart, l ++ 125 :: b) := by
    rw [hs, parseToken_blank (isSpace_of_blank ha)]
    rfl
  rw [jsonPathQuery_memberPath, hparse]
  dsimp only
  rcases hms with ⟨rfl, hl⟩ | hms
  · rw [pathLoop, parseToken_blank (isSpace_of_blank hl)]
    rfl
  · have hzero : (0 : UInt8) ∉ l := fun h0 => s.nulFree (by simp [hs, h0])
    have hlength := hms.length_le
    refine pathLoop_members hms hzero ?_ b
    rw [List.length_append]
    omega

theorem jsonNumber_zero : JsonNumber (ascii "0") :=
  ⟨[], ascii "0", [], [], by decide, .inl rfl, .inl rfl, .inl rfl, .inl rfl⟩

/-- The object `{"a":[],"b":0}`. -/
theorem objectText_array_zero : ObjectText [(ascii "a", ascii "[]"), (ascii "b", ascii "0")]
    (cstr "\x7b\"a\":[],\"b\":0\x7d").bytes := by
  have ha : JsonChars (ascii "a") := @jsonChars_of_chars "a".toList (by decide)
  have hb : JsonChars (ascii "b") := @jsonChars_of_chars "b".toList (by decide)
  have harray : JsonValue (ascii "[]") := .emptyArray isJsonBlank_nil
  have hnil := isJsonBlank_nil
  have hmembers := MemberTexts.more (.member hnil ha hnil hnil harray hnil)
    (.one (.member hnil hb hnil hnil (.number jsonNumber_zero) hnil))
  exact ⟨[], _, [], by decide, hnil, hnil, .inr hmembers⟩

/-- **A member is found** exactly if there is no object and no array among the values in front of
it, and there is memory for its text. -/
theorem path_finds_iff (p : Platform) (s k : CString) (ms : List (List UInt8 × List UInt8))
    (hs : ObjectText ms s.bytes) : PathFinds p s k ms ↔
      ∀ pre v post, ms = pre ++ (k.bytes, v) :: post → (∀ m ∈ pre, m.1 ≠ k.bytes) → IsPlain v →
        p.malloc (v.length + 1) = true ∧ ∀ m ∈ pre, ¬IsNested m.2 := by
  have hquery := @ObjectText.query p k ms s hs
  constructor
  · rintro ⟨-, hfinds⟩ pre v post rfl hkeys hv
    have hfound := hfinds pre v post rfl hkeys hv
    rcases pathMember_append_or v hkeys with hmember | hmember
    · refine ⟨?_, (pathMember_append hkeys v).mp hmember⟩
      rw [hmember] at hquery
      obtain ⟨r, hr, hresult⟩ := hquery
      rw [hfound, hv.pathValue hr] at hresult
      by_contra hmalloc
      rw [if_neg hmalloc] at hresult
      cases hresult
    · rw [hmember, PathEnds, hfound] at hquery
      cases hquery
  · intro hflat
    refine ⟨fun hkeys => ?_, fun pre v post hms hkeys hv => ?_⟩
    · rwa [pathMember_of_forall_ne hkeys] at hquery
    · obtain ⟨hmalloc, hpre⟩ := hflat pre v post hms hkeys hv
      rw [hms, (pathMember_append hkeys v).mpr hpre] at hquery
      obtain ⟨r, hr, hresult⟩ := hquery
      rw [hresult, hv.pathValue hr, if_pos hmalloc]

/-- In this object the second key has a plain value. -/
theorem path_finds_array_zero : PathFinds .epoch (cstr "\x7b\"a\":[],\"b\":0\x7d") (cstr "b")
    [(ascii "a", ascii "[]"), (ascii "b", ascii "0")] ↔
      ∀ pre v post, [(ascii "a", ascii "[]"), (ascii "b", ascii "0")] =
        pre ++ ((cstr "b").bytes, v) :: post → (∀ m ∈ pre, m.1 ≠ (cstr "b").bytes) → IsPlain v →
          Platform.epoch.malloc (v.length + 1) = true ∧ ∀ m ∈ pre, ¬IsNested m.2 :=
  path_finds_iff .epoch _ _ _ objectText_array_zero

/-- Behind an empty array nothing is found. -/
theorem path_loses_member : ¬∀ (s k : CString) (ms : List (List UInt8 × List UInt8)),
    ObjectText ms s.bytes → PathFinds .epoch s k ms := by
  intro h
  have hfound := (h _ (cstr "b") _ objectText_array_zero).2 [(ascii "a", ascii "[]")] (ascii "0") []
    (by decide) (by decide) (.inl jsonNumber_zero)
  exact absurd hfound (by decide)

end Luminix
