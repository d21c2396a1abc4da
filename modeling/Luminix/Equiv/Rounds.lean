import Luminix.Json.File
import Mathlib.Tactic.SplitIfs

/-!
# The loops of the reader, round by round

`json_skip_token_value` and the loop over the tables go on in the middle of a round.  What a round
does behind the part that is read by another function has a name here, `afterSkipped` and
`tableRound`, and the loops are given round by round.  So are the keys beside a schema
(`tableSiblings`) and the fields of a record (`loadedField`), of which each is one token
(`recordField_eq`).
-/

namespace Luminix

open CLib

/-! ### Skipped values -/

/-- What the loop over a container does behind a value: it goes on, ends or fails. -/
def afterSkipped (close : JsonToken) (again : List UInt8 → Option (ErrorCode × List UInt8)) :
    Option (ErrorCode × List UInt8) → Option (ErrorCode × List UInt8)
  | some (.success, l) =>
    if (jsonParseToken l).1 = .comma then again (jsonParseToken l).2
    else if (jsonParseToken l).1 = close then some (.success, (jsonParseToken l).2)
    else some (.invalidInput, (jsonParseToken l).2)
  | r => r

section

variable {close t : JsonToken} {again : List UInt8 → Option (ErrorCode × List UInt8)}
  {l m : List UInt8}

theorem afterSkipped_of_ne {e : ErrorCode} (he : e ≠ .success) (l : List UInt8) :
    afterSkipped close again (some (e, l)) = some (e, l) := by
  cases e <;> first | exact absurd rfl he | rfl

theorem afterSkipped_comma (h : jsonParseToken l = (.comma, m)) :
    afterSkipped close again (some (.success, l)) = again m := by
  rw [afterSkipped, h, if_pos rfl]

theorem afterSkipped_close (hclose : close ≠ .comma) (h : jsonParseToken l = (close, m)) :
    afterSkipped close again (some (.success, l)) = some (.success, m) := by
  rw [afterSkipped, h, if_neg hclose, if_pos rfl]

theorem afterSkipped_other (h : jsonParseToken l = (t, m)) (hcomma : t ≠ .comma)
    (hclose : t ≠ close) :
    afterSkipped close again (some (.success, l)) = some (.invalidInput, m) := by
  rw [afterSkipped, h, if_neg hcomma, if_neg hclose]

/-- How a round ends: the value breaks off, the loop goes on, it is closed, or neither may follow.
-/
theorem afterSkipped_cases {v : Option (ErrorCode × List UInt8)} {e : ErrorCode} {r : List UInt8}
    (h : afterSkipped close again v = some (e, r)) :
    (e ≠ .success ∧ v = some (e, r)) ∨ ∃ l, v = some (.success, l) ∧
      ((∃ m, jsonParseToken l = (.comma, m) ∧ again m = some (e, r)) ∨
        (close ≠ .comma ∧ jsonParseToken l = (close, r) ∧ e = .success) ∨
        ∃ t, t ≠ .comma ∧ t ≠ close ∧ jsonParseToken l = (t, r) ∧ e = .invalidInput) := by
  cases v with
  | none => cases h
  | some w =>
    obtain ⟨e', l⟩ := w
    by_cases he : e' = .success
    · subst he
      refine .inr ⟨l, rfl, ?_⟩
      cases ht : jsonParseToken l with
      | mk t m =>
        rw [afterSkipped, ht] at h
        dsimp only at h
        split_ifs at h with hcomma hclose
        · exact .inl ⟨m, by rw [hcomma], h⟩
        · cases h
          exact .inr (.inl ⟨hclose ▸ hcomma, by rw [hclose], rfl⟩)
        · cases h
          exact .inr (.inr ⟨t, hcomma, hclose, rfl, rfl⟩)
    · rw [afterSkipped_of_ne he] at h
      cases h
      exact .inl ⟨he, rfl⟩

end

theorem afterSkipped_objectEnd (again : List UInt8 → Option (ErrorCode × List UInt8))
    (v : Option (ErrorCode × List UInt8)) : afterSkipped .objectEnd again v =
      match v with
      | some (.success, l) =>
        match jsonParseToken l with
        | (.comma, l) => again l
        | (.objectEnd, l) => some (.success, l)
        | (_, l) => some (.invalidInput, l)
      | r => r := by
  unfold afterSkipped
  split
  next l =>
    rcases jsonParseToken l with ⟨t, m⟩
    cases t <;> rfl
  next => rfl

theorem afterSkipped_arrayEnd (again : List UInt8 → Option (ErrorCode × List UInt8))
    (v : Option (ErrorCode × List UInt8)) : afterSkipped .arrayEnd again v =
      match v with
      | some (.success, l) =>
        match jsonParseToken l with
        | (.comma, l) => again l
        | (.arrayEnd, l) => some (.success, l)
        | (_, l) => some (.invalidInput, l)
      | r => r := by
  unfold afterSkipped
  split
  next l =>
    rcases jsonParseToken l with ⟨t, m⟩
    cases t <;> rfl
  next => rfl

/-- **Skipping an object.** -/
theorem skip_object (fuel : Nat) (l : List UInt8) : jsonSkipTokenValue (fuel + 1) .objectStart l =
    match jsonParseToken l with
    | (.objectEnd, l) => some (.success, l)
    | (.string _, l) =>
      match jsonParseToken l with
      | (.colon, l) => afterSkipped .objectEnd (jsonSkipTokenValue fuel .objectStart)
          (jsonSkipTokenValue fuel (jsonParseToken l).1 (jsonParseToken l).2)
      | (_, l) => some (.invalidInput, l)
    | (_, l) => some (.invalidInput, l) := by
  simp only [afterSkipped_objectEnd]
  rewrite [jsonSkipTokenValue]
  rfl

/-- **Skipping an array.** -/
theorem skip_array (fuel : Nat) (l : List UInt8) : jsonSkipTokenValue (fuel + 1) .arrayStart l =
    match jsonParseToken l with
    | (.arrayEnd, l) => some (.success, l)
    | (.eof, l) => some (.invalidInput, l)
    | (.none, l) => some (.invalidInput, l)
    | (token, l) => afterSkipped .arrayEnd (jsonSkipTokenValue fuel .arrayStart)
        (jsonSkipTokenValue fuel token l) := by
  simp only [afterSkipped_arrayEnd]
  rewrite [jsonSkipTokenValue]
  rfl

theorem skip_object_end {l m : List UInt8} (h : jsonParseToken l = (.objectEnd, m)) (fuel : Nat) :
    jsonSkipTokenValue (fuel + 1) .objectStart l = some (.success, m) := by
  rw [skip_object, h]

/-- An object in which something else stands in the place of a key. -/
theorem skip_noKey {t : JsonToken} {l m : List UInt8} (h : jsonParseToken l = (t, m))
    (hend : t ≠ .objectEnd) (hkey : ∀ key, t ≠ .string key) (fuel : Nat) :
    jsonSkipTokenValue (fuel + 1) .objectStart l = some (.invalidInput, m) := by
  rw [skip_object, h]
  cases t
  case objectEnd => exact absurd rfl hend
  case string key => exact absurd rfl (hkey key)
  all_goals rfl

/-- An object in which something else stands in the place of a colon. -/
theorem skip_noColon {key : CString} {t : JsonToken} {l m m₁ : List UInt8}
    (hkey : jsonParseToken l = (.string key, m)) (h : jsonParseToken m = (t, m₁))
    (hcolon : t ≠ .colon) (fuel : Nat) :
    jsonSkipTokenValue (fuel + 1) .objectStart l = some (.invalidInput, m₁) := by
  rw [skip_object, hkey]
  dsimp only
  rw [h]
  cases t
  case colon => exact absurd rfl hcolon
  all_goals rfl

/-- A round over an object whose member has a key and a colon. -/
theorem skip_member {key : CString} {l m m₁ : List UInt8}
    (hkey : jsonParseToken l = (.string key, m)) (hcolon : jsonParseToken m = (.colon, m₁))
    (fuel : Nat) : jsonSkipTokenValue (fuel + 1) .objectStart l =
      afterSkipped .objectEnd (jsonSkipTokenValue fuel .objectStart)
        (jsonSkipTokenValue fuel (jsonParseToken m₁).1 (jsonParseToken m₁).2) := by
  rw [skip_object, hkey]
  dsimp only
  rw [hcolon]

/-- What a round over an object can meet. -/
theorem object_cases (l : List UInt8) :
    (∃ m, jsonParseToken l = (.objectEnd, m)) ∨
      (∃ key m m₁, jsonParseToken l = (.string key, m) ∧ jsonParseToken m = (.colon, m₁)) ∨
      (∃ key m t m₁, jsonParseToken l = (.string key, m) ∧ jsonParseToken m = (t, m₁) ∧
        t ≠ .colon) ∨
      ∃ t m, jsonParseToken l = (t, m) ∧ t ≠ .objectEnd ∧ ∀ key, t ≠ .string key := by
  rcases h : jsonParseToken l with ⟨t, m⟩
  by_cases hend : t = .objectEnd
  · exact .inl ⟨m, by rw [hend]⟩
  by_cases hkey : ∃ key, t = .string key
  · obtain ⟨key, rfl⟩ := hkey
    rcases h' : jsonParseToken m with ⟨t', m₁⟩
    by_cases hcolon : t' = .colon
    · exact .inr (.inl ⟨key, m, m₁, rfl, by rw [h', hcolon]⟩)
    · exact .inr (.inr (.inl ⟨key, m, t', m₁, rfl, h', hcolon⟩))
  · exact .inr (.inr (.inr ⟨t, m, rfl, hend, fun key hk => hkey ⟨key, hk⟩⟩))

/-- The token may start an element of a skipped array. -/
def IsItem (t : JsonToken) : Prop := t ≠ .arrayEnd ∧ t ≠ .eof ∧ t ≠ .none

theorem skip_array_end {l m : List UInt8} (h : jsonParseToken l = (.arrayEnd, m)) (fuel : Nat) :
    jsonSkipTokenValue (fuel + 1) .arrayStart l = some (.success, m) := by
  rw [skip_array, h]

/-- An array that the text leaves open. -/
theorem skip_noItem {t : JsonToken} {l m : List UInt8} (h : jsonParseToken l = (t, m))
    (ht : t = .eof ∨ t = .none) (fuel : Nat) :
    jsonSkipTokenValue (fuel + 1) .arrayStart l = some (.invalidInput, m) := by
  rw [skip_array, h]
  rcases ht with rfl | rfl
  · rfl
  · rfl

/-- What a round over an array can meet. -/
theorem array_cases (l : List UInt8) :
    (∃ m, jsonParseToken l = (.arrayEnd, m)) ∨
      (∃ t m, jsonParseToken l = (t, m) ∧ (t = .eof ∨ t = .none)) ∨
      ∃ t m, jsonParseToken l = (t, m) ∧ IsItem t := by
  rcases h : jsonParseToken l with ⟨t, m⟩
  by_cases hend : t = .arrayEnd
  · exact .inl ⟨m, by rw [hend]⟩
  by_cases hout : t = .eof ∨ t = .none
  · exact .inr (.inl ⟨t, m, rfl, hout⟩)
  · exact .inr (.inr ⟨t, m, rfl, hend, fun h => hout (.inl h), fun h => hout (.inr h)⟩)

/-- A round over an array whose element has begun. -/
theorem skip_item {t : JsonToken} (ht : IsItem t) {l m : List UInt8}
    (h : jsonParseToken l = (t, m)) (fuel : Nat) : jsonSkipTokenValue (fuel + 1) .arrayStart l =
      afterSkipped .arrayEnd (jsonSkipTokenValue fuel .arrayStart)
        (jsonSkipTokenValue fuel t m) := by
  obtain ⟨hend, heof, hnone⟩ := ht
  rw [skip_array, h]
  cases t
  case arrayEnd => exact absurd rfl hend
  case eof => exact absurd rfl heof
  case none => exact absurd rfl hnone
  all_goals rfl

/-! ### Fields -/

variable (p : Platform)

/-- The values after the value `t` of the column `key` has been read. -/
def loadedField (columns : List Column) (values : List Field) (key : CString)
    (t : JsonToken) : List Field :=
  match columnIndex columns key with
  | some j =>
    let type := (columns[j]?.map (·.type)).getD .unknown
    values.modify j fun f => storeParsed f (if t = .null then .null else type) (tokenValue p type t)
  | none => values

theorem length_loadedField (columns : List Column) (values : List Field) (key : CString)
    (t : JsonToken) : (loadedField p columns values key t).length = values.length := by
  unfold loadedField
  split
  · exact List.length_modify _ _ _
  · rfl

theorem tokenValue_null (type : FieldType) : tokenValue p type .null = .zero := by
  cases type <;> rfl

/-- **The value of a field is one token**, whichever it is. -/
theorem recordField_eq (columns : List Column) (key : CString) (values : List Field)
    (l : List UInt8) : recordField p columns key values l =
      .ok (loadedField p columns values key (jsonParseToken l).1, (jsonParseToken l).2) := by
  unfold recordField loadedField
  cases columnIndex columns key with
  | none => rfl
  | some j =>
    dsimp only
    rw [jsonParseFieldValue]
    obtain ⟨t, m⟩ := jsonParseToken l
    cases t
    case null => rw [if_pos rfl, tokenValue_null]
    all_goals rfl

/-! ### Tables -/

/-- What `parseTable` does behind the colon of the first key beside a schema. -/
def tableSiblings (i : Nat) (key : CString) (s : Store) (l : List UInt8) :
    Except Failure (AfterTable × Store × List UInt8) :=
  match siblingMember p i key s l with
  | .error e => .error e
  | .ok (s, l) =>
    match siblingLoop p i (l.length + 1) s l with
    | .error e => .error e
    | .ok (s, l) => afterOuterTable s l

/-- What the loop over the tables does behind the `{` of a table. -/
def tableRound (fuel : Nat) (s : Store) (l : List UInt8) : Except Failure (Store × List UInt8) :=
  match parseTable p s l with
  | .error e => .error e
  | .ok (.arrayEnd, s, l) => .ok (s, l)
  | .ok (.element, s, l) => tablesLoop p fuel false s l
  | .ok (.table, s, l) => tablesLoop p fuel true s l

theorem tablesLoop_open {fuel : Nat} {s : Store} {l m : List UInt8}
    (h : jsonParseToken l = (.objectStart, m)) :
    tablesLoop p (fuel + 1) false s l = tableRound p fuel s m := by
  rw [tablesLoop]
  dsimp only
  rw [if_neg Bool.false_ne_true, h]
  rfl

theorem tablesLoop_close {fuel : Nat} {s : Store} {l m : List UInt8}
    (h : jsonParseToken l = (.arrayEnd, m)) : tablesLoop p (fuel + 1) false s l = .ok (s, m) := by
  rw [tablesLoop]
  dsimp only
  rw [if_neg Bool.false_ne_true, h]

/-- Nothing else may stand where a table is expected. -/
theorem tablesLoop_invalid {fuel : Nat} {s : Store} {l m : List UInt8} {t : JsonToken}
    (h : jsonParseToken l = (t, m)) (hopen : t ≠ .objectStart) (hend : t ≠ .arrayEnd) :
    tablesLoop p (fuel + 1) false s l = invalid := by
  rw [tablesLoop]
  dsimp only
  rw [if_neg Bool.false_ne_true, h]
  cases t
  case objectStart => exact absurd rfl hopen
  case arrayEnd => exact absurd rfl hend
  all_goals rfl

end Luminix
