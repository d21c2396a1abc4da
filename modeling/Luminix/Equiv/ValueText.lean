import Luminix.Equiv.JsonTokens
import Luminix.Equiv.Nested

/-!
# The tokens of JSON values

Every value of JSON is read as the tokens of a value (`JsonValue.lexes`), and every object as those
of an object (`JsonObject.lexes`).  So what is shown of values and members by their tokens holds for
all texts of JSON.
-/

namespace Luminix

open CLib TokenReader

/-! ### Parts -/

section

variable {l v w : List UInt8} {ts us : List JsonToken} {c d : UInt8} {t u : JsonToken}

/-- A character that is a token. -/
theorem lexes_mark (ht : t ≠ .none) (h : ∀ r, jsonParseToken (c :: r) = (t, r)) :
    Lexes [c] [t] false := fun r _ => .token ht (h r) (.done rfl)

/-- A text with a mark behind it, which ends a number. -/
theorem Lexes.concat_mark (h : Lexes l ts true) (hd : isNumberByte d = false)
    (hmark : Lexes [d] [u] false) : Lexes (l ++ [d]) (ts ++ [u]) false := by
  have hcloses : Closes [d] := by
    refine ⟨List.cons_ne_nil d [], fun e he => ?_⟩
    obtain rfl : d = e := Option.some.inj he
    exact hd
  exact h.append hmark fun _ => hcloses

/-- Two texts with a comma between them. -/
theorem Lexes.comma (h : Lexes v ts true) (h' : Lexes w us true) :
    Lexes (v ++ 44 :: w) (ts ++ .comma :: us) true := by
  have hcomma : Lexes [44] [.comma] false := lexes_mark (by simp) fun _ => rfl
  have happend := (h.concat_mark rfl hcomma).append h' (by simp)
  rwa [List.append_assoc, List.append_assoc] at happend

/-- A word of JSON is one token. -/
theorem lexes_word (h : l ∈ [ascii "false", ascii "null", ascii "true"]) :
    ∃ t : Scalar, Lexes l [t.token] false := by
  simp only [List.mem_cons, List.not_mem_nil, or_false] at h
  rcases h with rfl | rfl | rfl
  · exact ⟨⟨.boolean false, rfl⟩, fun _ _ => .token (by simp) rfl (.done rfl)⟩
  · exact ⟨.null, fun _ _ => .token (by simp [Scalar.null]) rfl (.done rfl)⟩
  · exact ⟨⟨.boolean true, rfl⟩, fun _ _ => .token (by simp) rfl (.done rfl)⟩

theorem lexes_chars (h : JsonChars l) :
    Lexes (34 :: (l ++ [34])) [.string (CString.ofBytes l)] false := lexes_quoted h.quotable

theorem lexes_jsonNumber (h : JsonNumber l) : Lexes l [.number (CString.ofBytes l)] true :=
  fun _ hr => .token (by simp) (parseToken_jsonNumber h (hr rfl)) (.done rfl)

end

/-! ### The rules of the grammar -/

/-- The text is read as a value. -/
def ReadsValue (l : List UInt8) : Prop := ∃ ts, ValueTokens ts ∧ Lexes l ts true

/-- The text is read as an object. -/
def ReadsObject (l : List UInt8) : Prop := ∃ ms, Lexes l (anyObjectTokens ms) true

/-- The tokens of a member. -/
def AnyMember.memberTokens (m : AnyMember) : List JsonToken := Luminix.memberTokens m.key m.value

/-- The text is read as members, with commas between them. -/
def ReadsMembers (l : List UInt8) : Prop :=
  ∃ m : AnyMember, ∃ ms : List AnyMember, Lexes l (sepBy ((m :: ms).map AnyMember.memberTokens)) true

/-- The text is read as values, with commas between them. -/
def ReadsElements (l : List UInt8) : Prop :=
  ∃ x xs, (∀ y ∈ x :: xs, ValueTokens y) ∧ Lexes l (sepBy (x :: xs)) true

theorem membersTail_eq (ms : List AnyMember) :
    membersTail ms = sepBy (ms.map AnyMember.memberTokens) ++ [.objectEnd] := by
  rw [membersTail, objectTail, List.map_map]
  rfl

section

variable {l v a b : List UInt8}

theorem lexes_objectStart : Lexes [123] [.objectStart] false := lexes_mark (by simp) fun _ => rfl

theorem lexes_objectEnd : Lexes [125] [.objectEnd] false := lexes_mark (by simp) fun _ => rfl

theorem lexes_arrayStart : Lexes [91] [.arrayStart] false := lexes_mark (by simp) fun _ => rfl

theorem lexes_arrayEnd : Lexes [93] [.arrayEnd] false := lexes_mark (by simp) fun _ => rfl

theorem ReadsObject.value (h : ReadsObject l) : ReadsValue l := by
  obtain ⟨ms, hlex⟩ := h
  have htokens : ValueTokens (objectTokens (ms.map AnyMember.member)) := by
    refine .object fun m hm => ?_
    obtain ⟨m, -, rfl⟩ := List.mem_map.mp hm
    exact m.tokens
  exact ⟨_, htokens, hlex⟩

theorem readsObject_empty (ha : IsJsonBlank a) : ReadsObject (123 :: (a ++ [125])) := by
  have hlex := lexes_objectStart.append (lexes_objectEnd.blank_append (isSpace_of_blank ha)) (by simp)
  exact ⟨[], hlex.opened true⟩

theorem ReadsMembers.object (h : ReadsMembers l) : ReadsObject (123 :: (l ++ [125])) := by
  obtain ⟨m, ms, hlex⟩ := h
  have htext := lexes_objectStart.append (hlex.concat_mark rfl lexes_objectEnd) (by simp)
  refine ⟨m :: ms, ?_⟩
  rw [anyObjectTokens, membersTail_eq]
  exact htext.opened true

theorem readsValue_emptyArray (ha : IsJsonBlank a) : ReadsValue (91 :: (a ++ [93])) := by
  have harray : ValueTokens (arrayTokens []) := .array fun x hx => absurd hx List.not_mem_nil
  have hlex := lexes_arrayStart.append (lexes_arrayEnd.blank_append (isSpace_of_blank ha)) (by simp)
  exact ⟨_, harray, hlex.opened true⟩

theorem ReadsElements.value (h : ReadsElements l) : ReadsValue (91 :: (l ++ [93])) := by
  obtain ⟨x, xs, hvalues, hlex⟩ := h
  have htext := lexes_arrayStart.append (hlex.concat_mark rfl lexes_arrayEnd) (by simp)
  exact ⟨_, .array hvalues, htext.opened true⟩

/-- A member, with white space around it. -/
theorem lexes_member {key c d : List UInt8} (ha : IsJsonBlank a) (hkey : JsonChars key)
    (hb : IsJsonBlank b) (hc : IsJsonBlank c) (hv : ReadsValue v) (hd : IsJsonBlank d) :
    ∃ m : AnyMember,
      Lexes (a ++ (34 :: (key ++ 34 :: (b ++ 58 :: (c ++ (v ++ d)))))) m.memberTokens true := by
  obtain ⟨ts, hts, hlex⟩ := hv
  have hcolon : Lexes [58] [.colon] false := lexes_mark (by simp) fun _ => rfl
  have hvalue := (hlex.concat_blank (isSpace_of_blank hd)).blank_append (isSpace_of_blank hc)
  have hrest := (hcolon.append hvalue (by simp)).blank_append (isSpace_of_blank hb)
  have hmember := ((lexes_chars hkey).append hrest (by simp)).blank_append (isSpace_of_blank ha)
  refine ⟨⟨CString.ofBytes key, ts, hts⟩, ?_⟩
  have htext : a ++ (34 :: (key ++ 34 :: (b ++ 58 :: (c ++ (v ++ d))))) =
      a ++ (34 :: (key ++ [34]) ++ (b ++ ([58] ++ (c ++ (v ++ d))))) := by
    simp
  rw [htext]
  exact hmember

theorem ReadsMembers.cons {m : AnyMember} (h : Lexes v m.memberTokens true) (hrest : ReadsMembers l) :
    ReadsMembers (v ++ 44 :: l) := by
  obtain ⟨m', ms, hlex⟩ := hrest
  exact ⟨m, m' :: ms, h.comma hlex⟩

/-- A value, with white space around it. -/
theorem ReadsValue.around (h : ReadsValue v) (ha : IsJsonBlank a) (hb : IsJsonBlank b) :
    ReadsValue (a ++ (v ++ b)) := by
  obtain ⟨ts, hts, hlex⟩ := h
  exact ⟨ts, hts, (hlex.concat_blank (isSpace_of_blank hb)).blank_append (isSpace_of_blank ha)⟩

theorem ReadsValue.elements (h : ReadsValue v) : ReadsElements v := by
  obtain ⟨ts, hts, hlex⟩ := h
  refine ⟨ts, [], fun y hy => ?_, hlex⟩
  rw [List.mem_singleton.mp hy]
  exact hts

theorem ReadsElements.cons (h : ReadsValue v) (hrest : ReadsElements l) :
    ReadsElements (v ++ 44 :: l) := by
  obtain ⟨ts, hts, hlex⟩ := h
  obtain ⟨x, xs, hvalues, hlexes⟩ := hrest
  refine ⟨ts, x :: xs, fun y hy => ?_, hlex.comma hlexes⟩
  rcases List.mem_cons.mp hy with rfl | hy
  · exact hts
  · exact hvalues y hy

end

/-- **A value of JSON is read as the tokens of a value.** -/
theorem JsonValue.lexes {v : List UInt8} (hv : JsonValue v) : ReadsValue v := by
  refine @JsonValue.rec (fun l _ => ReadsValue l) (fun l _ => ReadsObject l)
    (fun l _ => ∃ m : AnyMember, Lexes l m.memberTokens true) (fun l _ => ReadsMembers l)
    (fun l _ => ReadsElements l) ?word ?number ?string ?object ?emptyArray ?array ?empty ?members
    ?member ?oneMember ?moreMembers ?oneElement ?moreElements v hv
  case word =>
    intro l h
    obtain ⟨t, hlex⟩ := lexes_word h
    exact ⟨_, .scalar t, hlex.opened true⟩
  case number => exact fun h => ⟨_, .scalar (.number _), lexes_jsonNumber h⟩
  case string => exact fun h => ⟨_, .scalar ⟨.string _, rfl⟩, (lexes_chars h).opened true⟩
  case object => exact fun _ h => h.value
  case emptyArray => exact fun ha => readsValue_emptyArray ha
  case array => exact fun _ h => h.value
  case empty => exact fun ha => readsObject_empty ha
  case members => exact fun _ h => h.object
  case member => exact fun ha hkey hb hc _ hd h => lexes_member ha hkey hb hc h hd
  case oneMember =>
    intro l _ h
    obtain ⟨m, hlex⟩ := h
    exact ⟨m, [], hlex⟩
  case moreMembers =>
    intro m l _ _ h hrest
    obtain ⟨m, hlex⟩ := h
    exact .cons hlex hrest
  case oneElement => exact fun ha _ hb h => (h.around ha hb).elements
  case moreElements =>
    intro a v b l ha _ hb _ h hrest
    have helements := ReadsElements.cons (h.around ha hb) hrest
    rwa [List.append_assoc, List.append_assoc] at helements

/-- An object is read as one: its first token is the opening brace. -/
theorem JsonObject.lexes {v : List UInt8} (hv : JsonObject v) : ReadsObject v := by
  obtain ⟨ts, hts, hlex⟩ := (JsonValue.object hv).lexes
  obtain ⟨l, hstart⟩ : ∃ l, jsonParseToken v = (.objectStart, l) := by
    cases hv with
    | empty _ => exact ⟨_, rfl⟩
    | members _ => exact ⟨_, rfl⟩
  have hreads := hlex.alone
  rcases hts.cases with ⟨t, rfl⟩ | ⟨us, rfl, -⟩ | ⟨ms, rfl⟩
  · obtain ⟨l', htoken, -⟩ := hreads.head t.ne_none
    have hbrace : t.token = .objectStart := congrArg Prod.fst (htoken.symm.trans hstart)
    have hscalar := t.scalar
    rw [hbrace] at hscalar
    cases hscalar
  · obtain ⟨l', htoken, -⟩ := hreads.head (by simp)
    rw [hstart] at htoken
    cases htoken
  · exact ⟨ms, hlex⟩

end Luminix
