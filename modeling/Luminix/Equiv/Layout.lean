import Luminix.Equiv.Database
import Luminix.Equiv.Document
import Luminix.Equiv.Fields
import Luminix.Equiv.Reload

/-!
# The layout of a database text

What a text may hold where the loader looks for a column, a schema or a record: an object with the
members it reads, any number of times and in any order, and with members under other keys, whose
values are skipped.  Each kind of member is a type of entries, with its tokens and what it means;
the readers of the loader turn the tokens into the meaning (`parses_fieldEntry`,
`parses_schemaEntry`, `parses_recordEntry`).
-/

namespace Luminix

open CLib TokenReader

/-! ### Values -/

/-- The token is a string, a number or a word. -/
def isScalar : JsonToken → Bool
  | .string _ | .number _ | .boolean _ | .null => true
  | _ => false

/-- A value of one token. -/
structure Scalar where
  token : JsonToken
  scalar : isScalar token = true
  deriving DecidableEq

def Scalar.null : Scalar := ⟨.null, rfl⟩

def Scalar.number (value : CString) : Scalar := ⟨.number value, rfl⟩

/-- The tokens of an object with these members. -/
def objectTokens (ms : List (CString × List JsonToken)) : List JsonToken :=
  .objectStart :: objectTail (ms.map fun m => memberTokens m.1 m.2)

/-- The tokens of an array with these elements. -/
def arrayTokens (items : List (List JsonToken)) : List JsonToken := .arrayStart :: arrayTail items

/-- The tokens of a JSON value. -/
inductive ValueTokens : List JsonToken → Prop
  | scalar (t : Scalar) : ValueTokens [t.token]
  | array {items : List (List JsonToken)} (h : ∀ x ∈ items, ValueTokens x) :
      ValueTokens (arrayTokens items)
  | object {ms : List (CString × List JsonToken)} (h : ∀ m ∈ ms, ValueTokens m.2) :
      ValueTokens (objectTokens ms)

theorem Scalar.ne_none (t : Scalar) : t.token ≠ .none := by
  intro h
  have hscalar := t.scalar
  rw [h] at hscalar
  cases hscalar

theorem Scalar.skips (t : Scalar) : Skips [t.token] := by
  obtain ⟨t, ht⟩ := t
  cases t
  case string | number | boolean | null => exact skips_token rfl (by simp) (by simp)
  all_goals cases ht

/-- A value of any depth is skipped. -/
theorem ValueTokens.skips {v : List JsonToken} (h : ValueTokens v) : Skips v := by
  induction h with
  | scalar t => exact t.skips
  | array _ ih => exact skips_array ih
  | object _ ih => exact skips_object _ ih

/-- A member whose key is none of those that are read. -/
structure OtherMember (reserved : List CString) where
  key : CString
  value : List JsonToken
  key_notMem : key ∉ reserved
  tokens : ValueTokens value

/-! ### Entries -/

/-- A member of the definition of a field. -/
inductive FieldEntry
  | name (name : CString)
  | type (type : CString)
  | other (m : OtherMember [cstr "name", cstr "type"])

def FieldEntry.member : FieldEntry → CString × List JsonToken
  | .name n => (cstr "name", [.string n])
  | .type s => (cstr "type", [.string s])
  | .other m => (m.key, m.value)

/-- A member of a schema. -/
inductive SchemaEntry
  | name (name : CString)
  | fields (definitions : List (List FieldEntry))
  | other (m : OtherMember [cstr "name", cstr "fields", cstr "schema", cstr "records"])

def SchemaEntry.member : SchemaEntry → CString × List JsonToken
  | .name n => (cstr "name", [.string n])
  | .fields defs =>
    (cstr "fields", arrayTokens (defs.map fun es => objectTokens (es.map FieldEntry.member)))
  | .other m => (m.key, m.value)

/-- A member of a record; each of its fields has a scalar value. -/
inductive RecordEntry
  | id (id : Scalar)
  | fields (fields : List (CString × Scalar))
  | other (m : OtherMember [cstr "id", cstr "fields"])

def RecordEntry.member : RecordEntry → CString × List JsonToken
  | .id t => (cstr "id", [t.token])
  | .fields fs => (cstr "fields", objectTokens (fs.map fun f => (f.1, [f.2.token])))
  | .other m => (m.key, m.value)

/-- The elements of an array of records. -/
def recordsTokens (rs : List (List RecordEntry)) : List JsonToken :=
  arrayTokens (rs.map fun es => objectTokens (es.map RecordEntry.member))

theorem FieldEntry.tokens (e : FieldEntry) : ValueTokens e.member.2 := by
  cases e with
  | name n => exact .scalar ⟨.string n, rfl⟩
  | type s => exact .scalar ⟨.string s, rfl⟩
  | other m => exact m.tokens

/-- The tokens of an object all of whose entries have values. -/
theorem valueTokens_object {ε : Type} (member : ε → CString × List JsonToken)
    (h : ∀ e, ValueTokens (member e).2) (es : List ε) :
    ValueTokens (objectTokens (es.map member)) := by
  refine .object fun m hm => ?_
  obtain ⟨e, -, rfl⟩ := List.mem_map.mp hm
  exact h e

/-- The tokens of an array of such objects. -/
theorem valueTokens_objects {ε : Type} (member : ε → CString × List JsonToken)
    (h : ∀ e, ValueTokens (member e).2) (ess : List (List ε)) :
    ValueTokens (arrayTokens (ess.map fun es => objectTokens (es.map member))) := by
  refine .array fun x hx => ?_
  obtain ⟨es, -, rfl⟩ := List.mem_map.mp hx
  exact valueTokens_object member h es

theorem SchemaEntry.tokens (e : SchemaEntry) : ValueTokens e.member.2 := by
  cases e with
  | name n => exact .scalar ⟨.string n, rfl⟩
  | fields defs => exact valueTokens_objects FieldEntry.member FieldEntry.tokens defs
  | other m => exact m.tokens

theorem RecordEntry.tokens (e : RecordEntry) : ValueTokens e.member.2 := by
  cases e with
  | id t => exact .scalar t
  | fields fs =>
    exact valueTokens_object (fun f : CString × Scalar => (f.1, [f.2.token])) (fun f => .scalar f.2)
      fs
  | other m => exact m.tokens

/-! ### What they mean -/

/-- A field after the entry has been read. -/
def FieldEntry.apply (field : Option CString × FieldType) : FieldEntry → Option CString × FieldType
  | .name n => (some n, field.2)
  | .type s => (field.1, stringToFieldType s)
  | .other _ => field

/-- The field that a definition is read as: its last name and its last type. -/
def fieldOf (es : List FieldEntry) : Option CString × FieldType :=
  es.foldl FieldEntry.apply (none, .string)

/-- The name that a member of a schema sets. -/
def SchemaEntry.name? : SchemaEntry → Option CString
  | .name n => some n
  | _ => none

/-- The fields that a member of a schema adds. -/
def SchemaEntry.definitions : SchemaEntry → List (Option CString × FieldType)
  | .fields defs => defs.map fieldOf
  | _ => []

/-- The name of a table: the last one, as far as it fits into the buffer. -/
def schemaName (es : List SchemaEntry) : CString :=
  ((es.filterMap SchemaEntry.name?).getLast?.getD (cstr "")).truncate (maxTableName - 1)

/-- The fields of a table: those of all arrays together. -/
def schemaFields (es : List SchemaEntry) : List (Option CString × FieldType) :=
  es.flatMap SchemaEntry.definitions

/-- A record after the entry has been read. -/
def RecordEntry.apply (p : Platform) (columns : List Column) (draft : RecordDraft) :
    RecordEntry → RecordDraft
  | .id t => storeId draft t.token
  | .fields fs =>
    { draft with
      values := fs.foldl (fun values f => loadedField p columns values f.1 f.2.token) draft.values }
  | .other _ => draft

/-- The record that an object is read as, for a table with these columns. -/
def recordDraft (p : Platform) (columns : List Column) (es : List RecordEntry) : RecordDraft :=
  es.foldl (RecordEntry.apply p columns) ⟨-1, initialValues columns⟩

/-- The number that a member of a record sets the id to. -/
def RecordEntry.id? : RecordEntry → Option Int
  | .id ⟨.number s, _⟩ => some (atoi s.bytes)
  | _ => none

/-- The id of a record: the last one that is a number. -/
def recordId (es : List RecordEntry) : Int := (es.filterMap RecordEntry.id?).getLast?.getD (-1)

/-! ### Reading objects of entries -/

section

variable {σ ε : Type} (member : ε → CString × List JsonToken) (apply : σ → ε → σ)

theorem Settles.ok {rest : List JsonToken} {l' : List UInt8} {s : σ}
    {r : Except Failure (σ × List UInt8)} (h : Settles rest l' (some s) r) :
    ∃ l₁, r = .ok (s, l₁) ∧ Reads jsonParseToken .none rest l₁ l' := by
  cases h with
  | done hrest => exact ⟨_, rfl, hrest⟩

/-- An entry as a member that is always read. -/
def entryPart (e : ε) : Part σ :=
  .of (member e).1 (member e).2 fun s => some (apply s e)

theorem partsTail_entryPart (es : List ε) : partsTail (es.map (entryPart member apply)) =
    objectTail ((es.map member).map fun m => memberTokens m.1 m.2) := by
  rw [partsTail, List.map_map, List.map_map]
  rfl

theorem runParts_entryPart (es : List ε) (s : σ) :
    runParts (es.map (entryPart member apply)) s = some (es.foldl apply s) := by
  induction es generalizing s with
  | nil => rfl
  | cons e es ih =>
    rw [List.map_cons, runParts_cons, entryPart, Part.of, Option.bind_some, ih, List.foldl_cons]

/-- **An object of entries is read entry by entry.** -/
theorem reads_object {reader : CString → σ → List UInt8 → Except Failure (σ × List UInt8)}
    (hsteady : ∀ key s l, Steady l.length (reader key s l))
    (hread : ∀ e s, Parses (reader (member e).1 s) (member e).2 (some (apply s e))) (es : List ε)
    {fuel : Nat} {rest : List JsonToken} (s : σ) {l l' : List UInt8} (hl : l.length < fuel)
    (h : Reads jsonParseToken .none
      (objectTail ((es.map member).map fun m => memberTokens m.1 m.2) ++ rest) l l') :
    ∃ l₁, parseMembers reader fuel s l = .ok (es.foldl apply s, l₁) ∧
      Reads jsonParseToken .none rest l₁ l' := by
  rw [← partsTail_entryPart member apply] at h
  have hmembers := parses_members hsteady _ (fun m hm => by
    obtain ⟨e, -, rfl⟩ := List.mem_map.mp hm
    exact Part.readBy_of (hread e)) s hl h
  rw [runParts_entryPart] at hmembers
  exact hmembers.ok

/-- A member of which the value is skipped. -/
theorem parses_other {reserved : List CString} (m : OtherMember reserved)
    {reader : CString → σ → List UInt8 → Except Failure (σ × List UInt8)}
    (hreader : ∀ key ∉ reserved, ∀ s l, reader key s l = (skipValue l).map fun l => (s, l))
    (s : σ) : Parses (reader m.key s) m.value (some s) := by
  intro rest l l' h
  rw [hreader m.key m.key_notMem]
  exact parses_skipValue m.tokens.skips s rest l l' h

/-- A member whose value is one token. -/
theorem parses_scalar {f : List UInt8 → Except Failure (σ × List UInt8)} {t : Scalar} {s : σ}
    (hread : ∀ l l₁, jsonParseToken l = (t.token, l₁) → f l = .ok (s, l₁)) :
    Parses f [t.token] (some s) := by
  intro rest l l' h
  obtain ⟨l₁, h1, hrest⟩ := h.head t.ne_none
  rw [hread l l₁ h1]
  exact .done hrest

end

/-! ### Fields -/

theorem parses_fieldEntry (e : FieldEntry) (field : Option CString × FieldType) :
    Parses (fieldMember e.member.1 field) e.member.2 (some (e.apply field)) := by
  cases e with
  | name n =>
    refine parses_scalar (t := ⟨.string n, rfl⟩) fun l l₁ h => ?_
    show fieldMember (cstr "name") field l = _
    rw [fieldMember, if_pos rfl, h]
    rfl
  | type s =>
    refine parses_scalar (t := ⟨.string s, rfl⟩) fun l l₁ h => ?_
    show fieldMember (cstr "type") field l = _
    rw [fieldMember, if_neg (by decide), if_pos rfl, h]
    rfl
  | other m =>
    refine parses_other m (fun key hkey field l => ?_) field
    simp only [List.mem_cons, List.not_mem_nil, or_false, not_or] at hkey
    rw [fieldMember, if_neg hkey.1, if_neg hkey.2]

/-- A definition of a field, after its `{`. -/
theorem parses_definition (es : List FieldEntry) (fields : List (Option CString × FieldType)) :
    Parses (fieldDefinition fields)
      (objectTail ((es.map FieldEntry.member).map fun m => memberTokens m.1 m.2))
      (some (fields ++ [fieldOf es])) := by
  intro rest l l' h
  obtain ⟨l₁, hok, hrest⟩ := reads_object FieldEntry.member FieldEntry.apply steady_fieldMember
    (fun e field => parses_fieldEntry e field) es (none, .string) (Nat.lt_succ_self l.length) h
  rw [fieldDefinition, hok]
  exact .done hrest

/-! ### Schemas -/

/-- A schema after the entry has been read. -/
def SchemaEntry.apply (draft : SchemaDraft) : SchemaEntry → SchemaDraft
  | .name n => { draft with name := n.truncate (maxTableName - 1) }
  | .fields defs => { draft with fields := draft.fields ++ defs.map fieldOf }
  | .other _ => draft

/-- The last name that is read, and all fields together. -/
theorem foldl_schemaEntry (es : List SchemaEntry) (draft : SchemaDraft) :
    es.foldl SchemaEntry.apply draft =
      ⟨((es.filterMap SchemaEntry.name?).getLast?.map fun n => n.truncate (maxTableName - 1)).getD
        draft.name, draft.fields ++ schemaFields es⟩ := by
  induction es using List.reverseRecOn with
  | nil => simp [schemaFields]
  | append_singleton es e ih =>
    rw [List.foldl_append, ih, schemaFields, schemaFields, List.flatMap_append,
      List.flatMap_singleton, List.filterMap_append]
    cases e with
    | name n => simp [SchemaEntry.apply, SchemaEntry.name?, SchemaEntry.definitions]
    | fields defs => simp [SchemaEntry.apply, SchemaEntry.name?, SchemaEntry.definitions]
    | other m => simp [SchemaEntry.apply, SchemaEntry.name?, SchemaEntry.definitions]

/-- A definition of a field as an element of the array of fields. -/
def definitionItem (es : List FieldEntry) : Item (List (Option CString × FieldType)) where
  tokens := objectTail ((es.map FieldEntry.member).map fun m => memberTokens m.1 m.2)
  step fields := some (fields ++ [fieldOf es])

theorem runItems_definitionItem (defs : List (List FieldEntry))
    (fields : List (Option CString × FieldType)) :
    runItems (defs.map definitionItem) fields = some (fields ++ defs.map fieldOf) := by
  induction defs generalizing fields with
  | nil => rw [List.map_nil, List.map_nil, List.append_nil, runItems_nil]
  | cons es defs ih =>
    rw [List.map_cons, runItems_cons, definitionItem, Option.bind_some, ih, List.map_cons,
      List.append_assoc, List.singleton_append]

/-- The array of field definitions. -/
theorem parses_definitions (defs : List (List FieldEntry)) (draft : SchemaDraft) :
    Parses (schemaMember (cstr "fields") draft)
      (arrayTokens (defs.map fun es => objectTokens (es.map FieldEntry.member)))
      (some { draft with fields := draft.fields ++ defs.map fieldOf }) := by
  intro rest l l' h
  obtain ⟨l₁, h1, h⟩ := Reads.head h (by simp)
  have htoks : itemsTail (defs.map definitionItem) =
      arrayTail (defs.map fun es => objectTokens (es.map FieldEntry.member)) := by
    rw [itemsTail, List.map_map]
    rfl
  have helements := parses_elements steady_fieldDefinition (defs.map definitionItem)
    (fun x hx fields => by
      obtain ⟨es, -, rfl⟩ := List.mem_map.mp hx
      exact parses_definition es fields) draft.fields (Nat.lt_succ_self l₁.length) (htoks ▸ h)
  rw [runItems_definitionItem] at helements
  obtain ⟨l₂, hok, hrest⟩ := helements.ok
  rw [schemaMember, if_neg (by decide), if_pos rfl, h1]
  dsimp only
  rw [hok]
  exact .done hrest

theorem parses_schemaEntry (e : SchemaEntry) (draft : SchemaDraft) :
    Parses (schemaMember e.member.1 draft) e.member.2 (some (e.apply draft)) := by
  cases e with
  | name n =>
    refine parses_scalar (t := ⟨.string n, rfl⟩) fun l l₁ h => ?_
    show schemaMember (cstr "name") draft l = _
    rw [schemaMember, if_pos rfl, h]
    rfl
  | fields defs => exact parses_definitions defs draft
  | other m =>
    refine parses_other m (fun key hkey draft l => ?_) draft
    simp only [List.mem_cons, List.not_mem_nil, or_false, not_or] at hkey
    rw [schemaMember, if_neg hkey.1, if_neg hkey.2.1]

/-! ### Records -/

variable (p : Platform)

/-- The fields of a record. -/
theorem parses_recordFields (columns : List Column) (fs : List (CString × Scalar))
    (draft : RecordDraft) :
    Parses (recordMember p columns (cstr "fields") draft)
      (objectTokens (fs.map fun f => (f.1, [f.2.token])))
      (some ((RecordEntry.fields fs).apply p columns draft)) := by
  intro rest l l' h
  obtain ⟨l₁, h1, h⟩ := Reads.head h (by simp)
  have hfield : ∀ (f : CString × Scalar) (values : List Field),
      Parses (recordField p columns f.1 values) [f.2.token]
        (some (loadedField p columns values f.1 f.2.token)) := by
    intro f values
    refine parses_scalar fun l l₁ h => ?_
    rw [recordField_eq, h]
  obtain ⟨l₂, hok, hrest⟩ := reads_object
    (fun f : CString × Scalar => (f.1, [f.2.token]))
    (fun values f => loadedField p columns values f.1 f.2.token)
    (steady_recordField p columns) hfield fs draft.values (Nat.lt_succ_self l₁.length) h
  rw [recordMember, if_neg (by decide), if_pos rfl, h1]
  dsimp only
  rw [hok]
  exact .done hrest

theorem parses_recordEntry (columns : List Column) (e : RecordEntry) (draft : RecordDraft) :
    Parses (recordMember p columns e.member.1 draft) e.member.2
      (some (e.apply p columns draft)) := by
  cases e with
  | id t =>
    refine parses_scalar fun l l₁ h => ?_
    show recordMember p columns (cstr "id") draft l = _
    rw [recordMember_id, h]
    rfl
  | fields fs => exact parses_recordFields p columns fs draft
  | other m =>
    refine parses_other m (fun key hkey draft l => ?_) draft
    simp only [List.mem_cons, List.not_mem_nil, or_false, not_or] at hkey
    rw [recordMember, if_neg hkey.1, if_neg hkey.2]

/-- The id of the record is its last number. -/
theorem id_recordDraft (columns : List Column) (es : List RecordEntry) :
    (recordDraft p columns es).id = recordId es := by
  unfold recordDraft recordId
  induction es using List.reverseRecOn with
  | nil => rfl
  | append_singleton es e ih =>
    rw [List.foldl_append, List.filterMap_append]
    cases e with
    | id t =>
      obtain ⟨t, ht⟩ := t
      cases t
      case number s => simp [RecordEntry.apply, RecordEntry.id?, storeId]
      all_goals simpa [RecordEntry.apply, RecordEntry.id?, storeId] using ih
    | fields fs => simpa [RecordEntry.apply, RecordEntry.id?] using ih
    | other m => simpa [RecordEntry.apply, RecordEntry.id?] using ih

/-- Inserting a record object. -/
def insertRecord (i : Nat) (columns : List Column) (s : Store) (es : List RecordEntry) :
    Option Store := (insertDraft p i columns (recordDraft p columns es) s).toOption

/-- A record as an element of the array of records. -/
def entriesItem (i : Nat) (columns : List Column) (es : List RecordEntry) : Item Store where
  tokens := objectTail ((es.map RecordEntry.member).map fun m => memberTokens m.1 m.2)
  step s := insertRecord p i columns s es

theorem parses_entriesItem (i : Nat) (columns : List Column) (es : List RecordEntry) (s : Store) :
    Parses (recordElement p i columns s) (entriesItem p i columns es).tokens
      (insertRecord p i columns s es) := by
  intro rest l l' h
  obtain ⟨l₁, hok, hrest⟩ := reads_object RecordEntry.member (RecordEntry.apply p columns)
    (steady_recordMember p columns) (fun e draft => parses_recordEntry p columns e draft) es
    ⟨-1, initialValues columns⟩ (Nat.lt_succ_self l.length) h
  rw [recordElement, hok]
  exact yields_insertDraft p i columns _ s hrest

/-- Inserting the records of an array into table `i`. -/
def insertRecords (i : Nat) (s : Store) (rs : List (List RecordEntry)) : Option Store :=
  (s.db.tables[i]?).bind fun t => rs.foldlM (insertRecord p i t.columns) s

/-- **An array of records is read record by record.** -/
theorem settles_insertRecords (i : Nat) (rs : List (List RecordEntry)) (s : Store)
    {rest : List JsonToken} {l l' : List UInt8}
    (h : Reads jsonParseToken .none (recordsTokens rs ++ rest) l l') :
    Settles rest l' (insertRecords p i s rs) (jsonParseTableRecords p i s l) := by
  have htoks : ∀ cs, itemsTail (rs.map (entriesItem p i cs)) =
      arrayTail (rs.map fun es => objectTokens (es.map RecordEntry.member)) := fun cs => by
    rw [itemsTail, List.map_map]
    rfl
  have hrecords := settles_tableRecords_of p i htoks (fun cs x hx s => by
    obtain ⟨es, -, rfl⟩ := List.mem_map.mp hx
    exact parses_entriesItem p i cs es s) s h
  simp only [runItems, List.foldlM_map] at hrecords
  exact hrecords

/-! ### What inserting a record does -/

/-- The values a record object is inserted with. -/
def insertedValues (columns : List Column) (es : List RecordEntry) : List Field :=
  setKeyField (recordId es) columns (recordDraft p columns es).values

/-- The record is linked into the table. -/
def Table.Links (t : Table) (columns : List Column) (es : List RecordEntry) (t' : Table) : Prop :=
  ∃ id, t' = linkRecord t id p.now (insertedValues p columns es)

/-- **The results of inserting a record object**: without an id it is dropped, and so it is if its
id is taken; else it is linked. -/
theorem insertRecord_cases {i : Nat} {columns : List Column} {s s' : Store} {es : List RecordEntry}
    {t : Table} (ht : s.db.tables[i]? = some t) (h : insertRecord p i columns s es = some s') :
    (recordId es = -1 ∧ s' = s) ∨ (recordId es ≠ -1 ∧ ∃ t', s'.db.tables = s.db.tables.set i t' ∧
      ((t' = t ∧ t.records ≠ []) ∨ t.Links p columns es t')) := by
  unfold insertRecord insertDraft at h
  rw [id_recordDraft] at h
  split_ifs at h with hid
  · exact .inl ⟨hid, (Option.some.inj h).symm⟩
  · refine .inr ⟨hid, ?_⟩
    rw [insertInto_eq ht] at h
    by_cases hacc : t.Accepts s.globalCounter (insertedValues p columns es)
    · have hok : tableInsertRecord t s.globalCounter p.now
          (some (insertedValues p columns es)) = _ :=
        tableInsertRecord_of_accepted hacc.1 hacc.2
      unfold insertedValues at hok
      rw [hok] at h
      obtain rfl := Option.some.inj h
      exact ⟨_, rfl, .inr ⟨_, rfl⟩⟩
    · -- a refused insert goes on only if the id is taken
      have hcode := tableInsertRecord_of_refused hacc p.now
      rcases tableInsertRecord_cases t s.globalCounter p.now
          (some (insertedValues p columns es)) with
        ⟨e, c, heq⟩ | ⟨vs, id, c, hvs, hcheck, hchoose, hfree, -⟩
      · rw [heq] at hcode
        have he := Except.error.inj hcode
        unfold insertedValues at heq
        rw [heq] at h
        by_cases hcheck : insertCheck t (insertedValues p columns es) = .success
        · rw [if_pos hcheck] at he
          subst he
          obtain rfl := Option.some.inj h
          refine ⟨t, rfl, .inl ⟨rfl, fun hnil => hacc ⟨hcheck, ?_⟩⟩⟩
          rw [hnil]
          rfl
        · rw [if_neg hcheck] at he
          have hne : e ≠ .duplicateKey := he ▸ insertCheck_ne_duplicateKey t _
          dsimp only at h
          split at h
          next hok =>
            cases hok
          next hdup =>
            exact absurd (Except.error.inj (Prod.mk.inj hdup).1) hne
          · cases h
      · obtain rfl := Option.some.inj hvs
        exact absurd ⟨hcheck, by rwa [hchoose]⟩ hacc

/-- What an array of record objects does to a table: the records that are loaded, each with the
object it is from, stand in front of those that were there. -/
structure Table.Loaded (t : Table) (rs : List (List RecordEntry)) (t' : Table)
    (loaded : List (List RecordEntry × Record)) : Prop where
  name : t'.name = t.name
  columns : t'.columns = t.columns
  objects : (loaded.map Prod.fst).Sublist rs
  records : t'.records = (loaded.map Prod.snd).reverse ++ t.records
  ids : ∀ x ∈ loaded, recordId x.1 ≠ -1
  first : t.records = [] → loaded = [] → ∀ es ∈ rs, recordId es = -1
  field : ∀ x ∈ loaded, ∀ j c, t.columns[j]? = some c →
    x.2.field j = copiedField c (fieldAt (insertedValues p t.columns x.1) j)

/-- **Every record that is loaded is the copy of what its object supplies.** -/
theorem exists_loaded {i : Nat} {columns : List Column} {rs : List (List RecordEntry)}
    {s s' : Store} {t : Table} (ht : s.db.tables[i]? = some t) (hcolumns : t.columns = columns)
    (h : rs.foldlM (insertRecord p i columns) s = some s') :
    ∃ t' loaded, s'.db.tables = s.db.tables.set i t' ∧ t.Loaded p rs t' loaded := by
  have hlt : i < s.db.tables.length := (List.getElem?_eq_some_iff.mp ht).1
  induction rs generalizing s t with
  | nil =>
    obtain rfl := Option.some.inj h
    obtain ⟨-, rfl⟩ := List.getElem?_eq_some_iff.mp ht
    exact ⟨_, [], (List.set_getElem_self hlt).symm, rfl, rfl, List.Sublist.refl _, rfl, by simp,
      by simp, by simp⟩
  | cons es rs ih =>
    rw [List.foldlM_cons] at h
    obtain ⟨s₁, hone, hrest⟩ := Option.bind_eq_some_iff.mp h
    rcases insertRecord_cases p ht hone with ⟨hid, rfl⟩ | ⟨hid, t₁, htables, hcase⟩
    · obtain ⟨t', loaded, htables, hl⟩ := ih ht hcolumns hrest hlt
      refine ⟨t', loaded, htables, hl.name, hl.columns, hl.objects.cons _, hl.records, hl.ids,
        fun hnil hl' => ?_, hl.field⟩
      exact List.forall_mem_cons.mpr ⟨hid, hl.first hnil hl'⟩
    · have ht₁ : s₁.db.tables[i]? = some t₁ := by rw [htables, List.getElem?_set_self hlt]
      have hlt₁ : i < s₁.db.tables.length := (List.getElem?_eq_some_iff.mp ht₁).1
      rcases hcase with ⟨rfl, hne⟩ | ⟨id, rfl⟩
      · obtain ⟨t', loaded, htables', hl⟩ := ih ht₁ hcolumns hrest hlt₁
        refine ⟨t', loaded, ?_, hl.name, hl.columns, hl.objects.cons _, hl.records, hl.ids,
          fun hnil => absurd hnil hne, hl.field⟩
        rw [htables', htables, List.set_set]
      · -- the new record stands at the head, and the later ones are linked before it
        obtain ⟨t', loaded, htables', hl⟩ := ih ht₁ hcolumns hrest hlt₁
        refine ⟨t', (es, newRecord t id p.now (insertedValues p columns es)) :: loaded, ?_, hl.name,
          hl.columns, ?_, ?_, List.forall_mem_cons.mpr ⟨hid, hl.ids⟩, by simp, ?_⟩
        · rw [htables', htables, List.set_set]
        · rw [List.map_cons]
          exact hl.objects.cons_cons es
        · rw [hl.records, List.map_cons, List.reverse_cons, List.append_assoc]
          rfl
        · intro x hx j c hc
          rcases List.mem_cons.mp hx with rfl | hx
          · rw [field_newRecord hc, hcolumns]
          · exact hl.field x hx j c hc

end Luminix
