import Luminix.Equiv.Format
import Luminix.Json.Text

/-!
# The documents the loader accepts

The grammar of a whole file, with what each of its parts does to the store, and the proof that
`db_load_from_file` returns a database exactly for the texts that begin with such a document
(`load_iff`).  Beside what `Format` allows anywhere, it is looser than JSON in these places:

* a value of a record, or its id, is any single token (`FieldText`, `RecordText`),
* a schema ends at its first closing brace, nested or not (`SchemaText.nested`), and a table may
  follow a schema directly (`TableText.flat`),
* nothing is asked of what follows the document (`load_iff` again).
-/

namespace Luminix

open CLib

variable {σ : Type}

/-! ### Metadata -/

/-- The metadata. -/
def MetadataText (ts : List JsonToken) : Prop :=
  ∃ us, ts = .objectStart :: us ∧ Members (fun _ (s : Unit) v s' => Skimmed v ∧ s' = s) () us ()

theorem map_jsonParseDatabaseMetadata (s : σ) (l : List UInt8) :
    (jsonParseDatabaseMetadata l).map (fun l => (s, l)) =
      (match jsonParseToken l with
        | (.objectStart, l) => parseMembers metadataMember (l.length + 1) () l
        | _ => invalid).map fun r : Unit × List UInt8 => (s, r.2) := by
  rw [jsonParseDatabaseMetadata]
  obtain ⟨t, m⟩ := jsonParseToken l
  cases t
  case objectStart =>
    show ((parseMembers metadataMember (m.length + 1) () m).map Prod.snd).map _ =
      (parseMembers metadataMember (m.length + 1) () m).map _
    cases parseMembers metadataMember (m.length + 1) () m with
    | ok r => rfl
    | error e => rfl
  all_goals rfl

theorem decides_metadata (s : σ) : Decides (fun l => (jsonParseDatabaseMetadata l).map fun l => (s, l))
    fun ts s' => MetadataText ts ∧ s' = s := by
  have hmembers : Decides (fun l => parseMembers metadataMember (l.length + 1) () l)
      (Members (fun _ s v s' => Skimmed v ∧ s' = s) ()) :=
    decides_parseMembers (fun _ s => decides_skipValue s) ()
  have hobject := hmembers.objectStart.map fun _ => s
  intro l s' l'
  show (jsonParseDatabaseMetadata l).map (fun l => (s, l)) = _ ↔ _
  rw [map_jsonParseDatabaseMetadata]
  apply (hobject l s' l').trans
  constructor
  · rintro ⟨ts, ⟨_, hts, rfl⟩, hspan⟩
    exact ⟨ts, ⟨hts, rfl⟩, hspan⟩
  · rintro ⟨ts, ⟨hts, rfl⟩, hspan⟩
    exact ⟨ts, ⟨(), hts, rfl⟩, hspan⟩

/-! ### Schemas -/

/-- The value of a member of a field definition. -/
def FieldMemberText (key : CString) (field : Option CString × FieldType) (ts : List JsonToken)
    (field' : Option CString × FieldType) : Prop :=
  if key = cstr "name" then ∃ name, ts = [.string name] ∧ field' = (some name, field.2)
  else if key = cstr "type" then
    ∃ type, ts = [.string type] ∧ field' = (field.1, stringToFieldType type)
  else Skimmed ts ∧ field' = field

theorem decides_fieldMember (key : CString) (field : Option CString × FieldType) :
    Decides (fieldMember key field) (FieldMemberText key field) := by
  intro l s l'
  unfold fieldMember FieldMemberText
  split_ifs
  · exact decides_string (fun name => (some name, field.2)) l s l'
  · exact decides_string (fun type => (field.1, stringToFieldType type)) l s l'
  · exact decides_skipValue field l s l'

/-- A field definition, after its `{`. -/
def FieldDefinitionText (fields : List (Option CString × FieldType)) (ts : List JsonToken)
    (fields' : List (Option CString × FieldType)) : Prop :=
  ∃ field, Members FieldMemberText (none, .string) ts field ∧ fields' = fields ++ [field]

theorem decides_fieldDefinition (fields : List (Option CString × FieldType)) :
    Decides (fieldDefinition fields) (FieldDefinitionText fields) :=
  (decides_parseMembers decides_fieldMember (none, .string)).map fun field => fields ++ [field]

/-- The value of a member of a schema other than `schema`. -/
def SchemaMemberText (key : CString) (draft : SchemaDraft) (ts : List JsonToken)
    (draft' : SchemaDraft) : Prop :=
  if key = cstr "name" then
    ∃ name, ts = [.string name] ∧ draft' = { draft with name := name.truncate (maxTableName - 1) }
  else if key = cstr "fields" then
    ∃ us, ts = .arrayStart :: us ∧
      ∃ fields, Elements FieldDefinitionText draft.fields us fields ∧ draft' = { draft with fields }
  else Skimmed ts ∧ draft' = draft

theorem decides_schemaMember (key : CString) (draft : SchemaDraft) :
    Decides (schemaMember key draft) (SchemaMemberText key draft) := by
  intro l s l'
  unfold schemaMember SchemaMemberText
  split_ifs
  · exact decides_string (fun name => { draft with name := name.truncate (maxTableName - 1) }) l s l'
  · have hfields := (decides_parseElements decides_fieldDefinition draft.fields).map
      fun fields => { draft with fields }
    exact hfields.arrayStart l s l'
  · exact decides_skipValue draft l s l'

/-- A schema, after the `{` if it has one.  A nested schema has its own `{`, but no second `}`. -/
inductive SchemaText : SchemaDraft → List JsonToken → SchemaDraft → Prop
  | close {draft : SchemaDraft} : SchemaText draft [.objectEnd] draft
  | nested {draft draft' : SchemaDraft} {ts : List JsonToken} (h : SchemaText draft ts draft') :
      SchemaText draft (.string (cstr "schema") :: .colon :: .objectStart :: ts) draft'
  | last {key : CString} {draft draft' : SchemaDraft} {v : List JsonToken}
      (hkey : key ≠ cstr "schema") (h : SchemaMemberText key draft v draft') :
      SchemaText draft (.string key :: .colon :: (v ++ [.objectEnd])) draft'
  | more {key : CString} {draft draft' draft'' : SchemaDraft} {v ts : List JsonToken}
      (hkey : key ≠ cstr "schema") (h : SchemaMemberText key draft v draft')
      (hrest : SchemaText draft' ts draft'') :
      SchemaText draft (.string key :: .colon :: (v ++ .comma :: ts)) draft''

theorem schemaText_of_schemaLoop {fuel : Nat} {draft draft' : SchemaDraft} {l l' : List UInt8}
    (h : schemaLoop fuel draft (jsonParseToken l).1 (jsonParseToken l).2 = .ok (draft', l')) :
    ∃ ts, SchemaText draft ts draft' ∧ Spans ts l l' := by
  induction fuel generalizing draft l with
  | zero => cases h
  | succ fuel ih =>
    obtain ⟨t, m, ht⟩ : ∃ t m, jsonParseToken l = (t, m) := ⟨_, _, rfl⟩
    rw [ht] at h
    cases t
    case objectEnd =>
      cases h
      exact ⟨_, .close, spans_singleton.mpr ht⟩
    case string key =>
      rw [schemaLoop] at h
      split at h
      next m₁ hcolon =>
        -- the key `schema` opens a nested schema, any other key has a value
        split_ifs at h with hkey
        · split at h
          next m₂ hstart =>
            obtain ⟨ts, hts, hspan⟩ := ih h
            rw [hkey] at ht
            exact ⟨_, .nested hts, m, ht, m₁, hcolon, m₂, hstart, hspan⟩
          · cases h
        · split at h
          next draft₁ m₂ hok =>
            obtain ⟨v, hv, hspan⟩ := (decides_schemaMember key draft m₁ draft₁ m₂).mp hok
            split at h
            next m₃ hcomma =>
              obtain ⟨ts, hts, hrest⟩ := ih h
              exact ⟨_, .more hkey hv hts, m, ht, m₁, hcolon,
                spans_append.mpr ⟨m₂, hspan, m₃, hcomma, hrest⟩⟩
            next m₃ hend =>
              cases h
              exact ⟨_, .last hkey hv, m, ht, m₁, hcolon,
                spans_append.mpr ⟨m₂, hspan, spans_singleton.mpr hend⟩⟩
            · cases h
          · cases h
      · cases h
    all_goals cases h

theorem schemaLoop_of_schemaText {draft draft' : SchemaDraft} {ts : List JsonToken}
    (h : SchemaText draft ts draft') {fuel : Nat} {l l' : List UInt8} (hl : l.length < fuel)
    (hspan : Spans ts l l') :
    schemaLoop fuel draft (jsonParseToken l).1 (jsonParseToken l).2 = .ok (draft', l') := by
  induction h generalizing fuel l with
  | close =>
    obtain ⟨fuel, rfl⟩ := Nat.exists_eq_succ_of_ne_zero (Nat.ne_zero_of_lt hl)
    rw [spans_singleton.mp hspan, schemaLoop]
  | nested h ih =>
    obtain ⟨fuel, rfl⟩ := Nat.exists_eq_succ_of_ne_zero (Nat.ne_zero_of_lt hl)
    obtain ⟨m, hkey, m₁, hcolon, m₂, hstart, hspan⟩ := hspan
    have h1 := length_parseToken_lt hkey (by simp) (by simp)
    have h2 := length_of_parseToken hcolon
    have h3 := length_of_parseToken hstart
    rw [hkey, schemaLoop, hcolon]
    dsimp only
    rw [if_pos rfl, hstart]
    exact ih (by omega) hspan
  | @last key draft draft' v hne hv =>
    obtain ⟨fuel, rfl⟩ := Nat.exists_eq_succ_of_ne_zero (Nat.ne_zero_of_lt hl)
    obtain ⟨m, hkey, m₁, hcolon, hspan⟩ := hspan
    obtain ⟨m₂, hspan, hend⟩ := spans_append.mp hspan
    have hok := (decides_schemaMember key draft m₁ draft' m₂).mpr ⟨v, hv, hspan⟩
    rw [hkey, schemaLoop, hcolon]
    dsimp only
    rw [if_neg hne, hok]
    dsimp only
    rw [spans_singleton.mp hend]
  | @more key draft draft' draft'' v ts hne hv hts ih =>
    obtain ⟨fuel, rfl⟩ := Nat.exists_eq_succ_of_ne_zero (Nat.ne_zero_of_lt hl)
    obtain ⟨m, hkey, m₁, hcolon, hspan⟩ := hspan
    obtain ⟨m₂, hspan, m₃, hcomma, hrest⟩ := spans_append.mp hspan
    have hok := (decides_schemaMember key draft m₁ draft' m₂).mpr ⟨v, hv, hspan⟩
    have h1 := length_parseToken_lt hkey (by simp) (by simp)
    have h2 := length_of_parseToken hcolon
    have h3 := hspan.length_le
    have h4 := length_of_parseToken hcomma
    rw [hkey, schemaLoop, hcolon]
    dsimp only
    rw [if_neg hne, hok]
    dsimp only
    rw [hcomma]
    exact ih (by omega) hrest

/-- A schema starts with a key or ends at once. -/
theorem SchemaText.ne_objectStart {draft draft' : SchemaDraft} {ts us : List JsonToken}
    (h : SchemaText draft ts draft') : ts ≠ .objectStart :: us := by
  cases h <;> simp

/-- A schema that `db_add_table` admits. -/
def TableSchemaText (db : Database) (ts : List JsonToken) (db' : Database) : Prop :=
  ∃ us draft, (ts = us ∨ ts = .objectStart :: us) ∧ SchemaText ⟨cstr "", []⟩ us draft ∧
    (0 < draft.name.length ∧ 0 < draft.fields.length) ∧
    dbAddTable db (some draft.name) (some draft.fields) = (.success, db')

theorem schemaStart_iff {draft draft' : SchemaDraft} {l l' : List UInt8} :
    schemaLoop (l.length + 1) draft (schemaStart l).1 (schemaStart l).2 = .ok (draft', l') ↔
      ∃ us, SchemaText draft us draft' ∧ (Spans us l l' ∨ Spans (.objectStart :: us) l l') := by
  by_cases hstart : ∃ m, jsonParseToken l = (.objectStart, m)
  · obtain ⟨m, hm⟩ := hstart
    have hlen := length_of_parseToken hm
    rw [schemaStart, hm]
    constructor
    · intro h
      obtain ⟨us, hus, hspan⟩ := schemaText_of_schemaLoop h
      exact ⟨us, hus, Or.inr ⟨m, hm, hspan⟩⟩
    · rintro ⟨us, hus, hspan | ⟨m', hm', hspan⟩⟩
      · -- a schema without a brace does not start with one
        cases us with
        | nil => cases hus
        | cons t us =>
          obtain ⟨m', hm', -⟩ := hspan
          rw [hm] at hm'
          cases hm'
          exact absurd rfl hus.ne_objectStart
      · rw [hm] at hm'
        cases hm'
        exact schemaLoop_of_schemaText hus (Nat.lt_succ_of_le hlen) hspan
  · have hfirst : schemaStart l = jsonParseToken l := by
      unfold schemaStart
      split
      next m hm => exact absurd ⟨m, hm⟩ hstart
      · rfl
    rw [hfirst]
    constructor
    · intro h
      obtain ⟨us, hus, hspan⟩ := schemaText_of_schemaLoop h
      exact ⟨us, hus, Or.inl hspan⟩
    · rintro ⟨us, hus, hspan | ⟨m, hm, -⟩⟩
      · exact schemaLoop_of_schemaText hus (Nat.lt_succ_self _) hspan
      · exact absurd ⟨m, hm⟩ hstart

theorem decides_tableSchema (db : Database) :
    Decides (jsonParseTableSchema db) (TableSchemaText db) := by
  intro l db' l'
  constructor
  · intro h
    unfold jsonParseTableSchema at h
    split at h
    next => cases h
    next draft m hloop =>
      split_ifs at h with hdraft
      · split at h
        next db₁ hadd =>
          cases h
          obtain ⟨us, hus, hspan | hspan⟩ := schemaStart_iff.mp hloop
          · exact ⟨us, ⟨us, draft, Or.inl rfl, hus, hdraft, hadd⟩, hspan⟩
          · exact ⟨_, ⟨us, draft, Or.inr rfl, hus, hdraft, hadd⟩, hspan⟩
        · cases h
      · cases h
  · rintro ⟨ts, ⟨us, draft, hts, hus, hdraft, hadd⟩, hspan⟩
    have hspans : Spans us l l' ∨ Spans (.objectStart :: us) l l' := by
      rcases hts with rfl | rfl
      · exact Or.inl hspan
      · exact Or.inr hspan
    rw [jsonParseTableSchema, schemaStart_iff.mpr ⟨us, hus, hspans⟩]
    dsimp only
    rw [if_pos hdraft, hadd]

/-! ### Records -/

variable (p : Platform)

/-- The value of a field is any token. -/
def FieldText (columns : List Column) (key : CString) (values : List Field) (ts : List JsonToken)
    (values' : List Field) : Prop :=
  ∃ t, ts = [t] ∧ values' = loadedField p columns values key t

theorem decides_recordField (columns : List Column) (key : CString) (values : List Field) :
    Decides (recordField p columns key values) (FieldText p columns key values) := by
  intro l values' l'
  rw [recordField_eq]
  constructor
  · intro h
    cases h
    exact ⟨_, ⟨_, rfl, rfl⟩, spans_singleton.mpr rfl⟩
  · rintro ⟨ts, ⟨t, rfl, rfl⟩, hspan⟩
    rw [spans_singleton.mp hspan]

/-- A record after the token `t` has been read for its id: only a number is taken over. -/
def storeId (draft : RecordDraft) : JsonToken → RecordDraft
  | .number s => { draft with id := atoi s.bytes }
  | _ => draft

theorem recordMember_id (columns : List Column) (draft : RecordDraft) (l : List UInt8) :
    recordMember p columns (cstr "id") draft l =
      .ok (storeId draft (jsonParseToken l).1, (jsonParseToken l).2) := by
  rw [recordMember, if_pos rfl]
  obtain ⟨t, m⟩ := jsonParseToken l
  cases t <;> rfl

/-- The value of a member of a record. -/
def RecordMemberText (columns : List Column) (key : CString) (draft : RecordDraft)
    (ts : List JsonToken) (draft' : RecordDraft) : Prop :=
  if key = cstr "id" then
    ∃ t, ts = [t] ∧ draft' = storeId draft t
  else if key = cstr "fields" then
    ∃ us, ts = .objectStart :: us ∧
      ∃ values, Members (FieldText p columns) draft.values us values ∧ draft' = { draft with values }
  else Skimmed ts ∧ draft' = draft

theorem decides_recordMember (columns : List Column) (key : CString) (draft : RecordDraft) :
    Decides (recordMember p columns key draft) (RecordMemberText p columns key draft) := by
  intro l draft' l'
  unfold recordMember RecordMemberText
  split_ifs
  · have hid := recordMember_id p columns draft l
    rw [recordMember, if_pos rfl] at hid
    rw [hid]
    constructor
    · intro h
      cases h
      exact ⟨_, ⟨_, rfl, rfl⟩, spans_singleton.mpr rfl⟩
    · rintro ⟨ts, ⟨t, rfl, rfl⟩, hspan⟩
      rw [spans_singleton.mp hspan]
  · have hvalues := (decides_parseMembers (decides_recordField p columns) draft.values).map
      fun values => { draft with values }
    exact hvalues.objectStart l draft' l'
  · exact decides_skipValue draft l draft' l'

/-- A record that is admitted, after its `{`. -/
def RecordText (i : Nat) (columns : List Column) (s : Store) (ts : List JsonToken) (s' : Store) :
    Prop :=
  ∃ draft, Members (RecordMemberText p columns) ⟨-1, initialValues columns⟩ ts draft ∧
    insertDraft p i columns draft s = .ok s'

theorem decides_recordElement (i : Nat) (columns : List Column) (s : Store) :
    Decides (recordElement p i columns s) (RecordText p i columns s) := by
  have hmembers := decides_parseMembers (decides_recordMember p columns)
    ⟨-1, initialValues columns⟩
  intro l s' l'
  constructor
  · intro h
    unfold recordElement at h
    split at h
    next => cases h
    next draft m hok =>
      cases hinsert : insertDraft p i columns draft s with
      | error e =>
        rw [hinsert] at h
        cases h
      | ok s₁ =>
        rw [hinsert] at h
        cases h
        obtain ⟨ts, hts, hspan⟩ := (hmembers l draft _).mp hok
        exact ⟨ts, ⟨draft, hts, hinsert⟩, hspan⟩
  · rintro ⟨ts, ⟨draft, hts, hinsert⟩, hspan⟩
    have hok : parseMembers (recordMember p columns) (l.length + 1) ⟨-1, initialValues columns⟩ l =
        .ok (draft, l') := (hmembers l draft l').mpr ⟨ts, hts, hspan⟩
    rw [recordElement, hok]
    dsimp only
    rw [hinsert]
    rfl

/-- The records of the table at place `i`. -/
def RecordsText (i : Nat) (s : Store) (ts : List JsonToken) (s' : Store) : Prop :=
  ∃ t, s.db.tables[i]? = some t ∧
    ∃ us, ts = .arrayStart :: us ∧ Elements (RecordText p i t.columns) s us s'

theorem decides_tableRecords (i : Nat) (s : Store) :
    Decides (jsonParseTableRecords p i s) (RecordsText p i s) := by
  intro l s' l'
  unfold jsonParseTableRecords RecordsText
  cases s.db.tables[i]? with
  | none =>
    constructor
    · intro h
      cases h
    · rintro ⟨ts, ⟨t, ht, -⟩, -⟩
      cases ht
  | some t =>
    have hrecords := (decides_parseElements (decides_recordElement p i t.columns) s).arrayStart
    apply (hrecords l s' l').trans
    constructor
    · rintro ⟨ts, hts, hspan⟩
      exact ⟨ts, ⟨t, rfl, hts⟩, hspan⟩
    · rintro ⟨ts, ⟨t', ht', hts⟩, hspan⟩
      cases ht'
      exact ⟨ts, hts, hspan⟩

/-! ### Tables -/

/-- The value of a key beside a schema. -/
def SiblingText (i : Nat) (key : CString) (s : Store) (ts : List JsonToken) (s' : Store) : Prop :=
  if key = cstr "records" then RecordsText p i s ts s' else SkipsAs .success ts ∧ s' = s

theorem decides_siblingMember (i : Nat) (key : CString) (s : Store) :
    Decides (siblingMember p i key s) (SiblingText p i key s) := by
  intro l s' l'
  unfold siblingMember SiblingText
  split_ifs
  · exact decides_tableRecords p i s l s' l'
  · exact decides_skipValueChecked s l s' l'

/-- Further keys beside a schema, up to the `}` of the table. -/
inductive SiblingsText (i : Nat) : Store → List JsonToken → Store → Prop
  | close {s : Store} : SiblingsText i s [.objectEnd] s
  | more {key : CString} {s s' s'' : Store} {v ts : List JsonToken} (h : SiblingText p i key s v s')
      (hrest : SiblingsText i s' ts s'') :
      SiblingsText i s (.comma :: .string key :: .colon :: (v ++ ts)) s''

theorem siblingsText_of_siblingLoop {i fuel : Nat} {s s' : Store} {l l' : List UInt8}
    (h : siblingLoop p i fuel s l = .ok (s', l')) : ∃ ts, SiblingsText p i s ts s' ∧ Spans ts l l' := by
  induction fuel generalizing s l with
  | zero => cases h
  | succ fuel ih =>
    rw [siblingLoop] at h
    split at h
    next m hend =>
      cases h
      exact ⟨_, .close, spans_singleton.mpr hend⟩
    next m hcomma =>
      split at h
      next key m₁ hkey =>
        split at h
        next m₂ hcolon =>
          split at h
          next s₁ m₃ hok =>
            obtain ⟨v, hv, hspan⟩ := (decides_siblingMember p i key s m₂ s₁ m₃).mp hok
            obtain ⟨ts, hts, hrest⟩ := ih h
            exact ⟨_, .more hv hts, m, hcomma, m₁, hkey, m₂, hcolon,
              spans_append.mpr ⟨m₃, hspan, hrest⟩⟩
          · cases h
        · cases h
      · cases h
    · cases h

theorem siblingLoop_of_siblingsText {i : Nat} {s s' : Store} {ts : List JsonToken}
    (h : SiblingsText p i s ts s') {fuel : Nat} {l l' : List UInt8} (hl : l.length < fuel)
    (hspan : Spans ts l l') : siblingLoop p i fuel s l = .ok (s', l') := by
  induction h generalizing fuel l with
  | close =>
    obtain ⟨fuel, rfl⟩ := Nat.exists_eq_succ_of_ne_zero (Nat.ne_zero_of_lt hl)
    rw [siblingLoop, spans_singleton.mp hspan]
  | @more key s s' s'' v ts hv hts ih =>
    obtain ⟨fuel, rfl⟩ := Nat.exists_eq_succ_of_ne_zero (Nat.ne_zero_of_lt hl)
    obtain ⟨m, hcomma, m₁, hkey, m₂, hcolon, hspan⟩ := hspan
    obtain ⟨m₃, hspan, hrest⟩ := spans_append.mp hspan
    have hok := (decides_siblingMember p i key s m₂ s' m₃).mpr ⟨v, hv, hspan⟩
    have h1 := length_parseToken_lt hcomma (by simp) (by simp)
    have h2 := length_of_parseToken hkey
    have h3 := length_of_parseToken hcolon
    have h4 := hspan.length_le
    rw [siblingLoop, hcomma]
    dsimp only
    rw [hkey]
    dsimp only
    rw [hcolon]
    dsimp only
    rw [hok]
    exact ih (by omega) hrest

/-- What may follow the `}` of a table, and where the loop over the tables goes on. -/
inductive OuterEnd : JsonToken → AfterTable → Prop
  | comma : OuterEnd .comma .element
  | arrayEnd : OuterEnd .arrayEnd .arrayEnd

theorem afterOuterTable_iff {s s' : Store} {after : AfterTable} {l l' : List UInt8} :
    afterOuterTable s l = .ok (after, s', l') ↔
      s' = s ∧ ∃ t, OuterEnd t after ∧ jsonParseToken l = (t, l') := by
  unfold afterOuterTable
  constructor
  · intro h
    split at h
    next m hcomma =>
      cases h
      exact ⟨rfl, _, .comma, hcomma⟩
    next m hend =>
      cases h
      exact ⟨rfl, _, .arrayEnd, hend⟩
    · cases h
  · rintro ⟨rfl, t, ht, hparse⟩
    rw [hparse]
    cases ht <;> rfl

/-- A table, after its `{`, with the token that ends it. -/
inductive TableText : Store → List JsonToken → AfterTable → Store → Prop
  | flatLast {s : Store} {db : Database} {v : List JsonToken} (h : TableSchemaText s.db v db) :
      TableText s (v ++ [.arrayEnd]) .arrayEnd { s with db }
  | outer {s : Store} {db : Database} {v : List JsonToken} {t : JsonToken} {after : AfterTable}
      (h : TableSchemaText s.db v db) (ht : OuterEnd t after) :
      TableText s (v ++ [.objectEnd, t]) after { s with db }
  | flat {s : Store} {db : Database} {v : List JsonToken} (h : TableSchemaText s.db v db) :
      TableText s (v ++ [.comma, .objectStart]) .table { s with db }
  | flatComma {s : Store} {db : Database} {v : List JsonToken} (h : TableSchemaText s.db v db) :
      TableText s (v ++ [.comma, .arrayEnd]) .arrayEnd { s with db }
  | siblings {s s' s'' : Store} {db : Database} {key : CString} {v w ts : List JsonToken}
      {t : JsonToken} {after : AfterTable} (h : TableSchemaText s.db v db)
      (hvalue : SiblingText p (db.tableCount - 1) key { s with db } w s')
      (hrest : SiblingsText p (db.tableCount - 1) s' ts s'') (ht : OuterEnd t after) :
      TableText s (v ++ .comma :: .string key :: .colon :: (w ++ (ts ++ [t]))) after s''

theorem tableSiblings_iff {i : Nat} {key : CString} {s s' : Store} {after : AfterTable}
    {l l' : List UInt8} : tableSiblings p i key s l = .ok (after, s', l') ↔
      ∃ s₁ w ts t, SiblingText p i key s w s₁ ∧ SiblingsText p i s₁ ts s' ∧ OuterEnd t after ∧
        Spans (w ++ (ts ++ [t])) l l' := by
  unfold tableSiblings
  constructor
  · intro h
    split at h
    next => cases h
    next s₁ m hvalue =>
      obtain ⟨w, hw, hspan⟩ := (decides_siblingMember p i key s l s₁ m).mp hvalue
      split at h
      next => cases h
      next s₂ m₁ hloop =>
        obtain ⟨ts, hts, hrest⟩ := siblingsText_of_siblingLoop p hloop
        obtain ⟨rfl, t, ht, hparse⟩ := afterOuterTable_iff.mp h
        exact ⟨s₁, w, ts, t, hw, hts, ht, spans_append.mpr ⟨m, hspan,
          spans_append.mpr ⟨m₁, hrest, spans_singleton.mpr hparse⟩⟩⟩
  · rintro ⟨s₁, w, ts, t, hw, hts, ht, hspan⟩
    obtain ⟨m, hspan, hspan'⟩ := spans_append.mp hspan
    obtain ⟨m₁, hrest, hsep⟩ := spans_append.mp hspan'
    have hvalue := (decides_siblingMember p i key s l s₁ m).mpr ⟨w, hw, hspan⟩
    rw [hvalue]
    dsimp only
    rw [siblingLoop_of_siblingsText p hts (Nat.lt_succ_self _) hrest]
    exact afterOuterTable_iff.mpr ⟨rfl, t, ht, spans_singleton.mp hsep⟩

theorem tableText_of_parseTable {s s' : Store} {after : AfterTable} {l l' : List UInt8}
    (h : parseTable p s l = .ok (after, s', l')) :
    ∃ ts, TableText p s ts after s' ∧ Spans ts l l' := by
  unfold parseTable at h
  split at h
  next => cases h
  next db m hok =>
    obtain ⟨v, hv, hspan⟩ := (decides_tableSchema s.db l db m).mp hok
    dsimp only at h
    split at h
    next m₁ hend =>
      cases h
      exact ⟨_, .flatLast hv, spans_append.mpr ⟨m, hspan, spans_singleton.mpr hend⟩⟩
    next m₁ hend =>
      obtain ⟨rfl, t, ht, hparse⟩ := afterOuterTable_iff.mp h
      exact ⟨_, .outer hv ht, spans_append.mpr ⟨m, hspan, m₁, hend, spans_singleton.mpr hparse⟩⟩
    next m₁ hcomma =>
      split at h
      next m₂ hstart =>
        cases h
        exact ⟨_, .flat hv,
          spans_append.mpr ⟨m, hspan, m₁, hcomma, spans_singleton.mpr hstart⟩⟩
      next m₂ hend =>
        cases h
        exact ⟨_, .flatComma hv,
          spans_append.mpr ⟨m, hspan, m₁, hcomma, spans_singleton.mpr hend⟩⟩
      next key m₂ hkey =>
        split at h
        next m₃ hcolon =>
          obtain ⟨s₁, w, ts, t, hw, hts, ht, hrest⟩ := (tableSiblings_iff p).mp h
          exact ⟨_, .siblings hv hw hts ht,
            spans_append.mpr ⟨m, hspan, m₁, hcomma, m₂, hkey, m₃, hcolon, hrest⟩⟩
        · cases h
      · cases h
    · cases h

theorem parseTable_of_tableText {s s' : Store} {after : AfterTable} {ts : List JsonToken}
    (h : TableText p s ts after s') {l l' : List UInt8} (hspan : Spans ts l l') :
    parseTable p s l = .ok (after, s', l') := by
  cases h with
  | @flatLast db v hv =>
    obtain ⟨m, hspan, hend⟩ := spans_append.mp hspan
    have hok := (decides_tableSchema s.db l db m).mpr ⟨v, hv, hspan⟩
    rw [parseTable, hok]
    dsimp only
    rw [spans_singleton.mp hend]
  | @outer db v t after hv ht =>
    obtain ⟨m, hspan, m₁, hend, hsep⟩ := spans_append.mp hspan
    have hok := (decides_tableSchema s.db l db m).mpr ⟨v, hv, hspan⟩
    rw [parseTable, hok]
    dsimp only
    rw [hend]
    exact afterOuterTable_iff.mpr ⟨rfl, t, ht, spans_singleton.mp hsep⟩
  | @flat db v hv =>
    obtain ⟨m, hspan, m₁, hcomma, hstart⟩ := spans_append.mp hspan
    have hok := (decides_tableSchema s.db l db m).mpr ⟨v, hv, hspan⟩
    rw [parseTable, hok]
    dsimp only
    rw [hcomma]
    dsimp only
    rw [spans_singleton.mp hstart]
  | @flatComma db v hv =>
    obtain ⟨m, hspan, m₁, hcomma, hend⟩ := spans_append.mp hspan
    have hok := (decides_tableSchema s.db l db m).mpr ⟨v, hv, hspan⟩
    rw [parseTable, hok]
    dsimp only
    rw [hcomma]
    dsimp only
    rw [spans_singleton.mp hend]
  | @siblings s₁ _ db key v w ts t after hv hw hts ht =>
    obtain ⟨m, hspan, m₁, hcomma, m₂, hkey, m₃, hcolon, hrest⟩ := spans_append.mp hspan
    have hok := (decides_tableSchema s.db l db m).mpr ⟨v, hv, hspan⟩
    rw [parseTable, hok]
    dsimp only
    rw [hcomma]
    dsimp only
    rw [hkey]
    dsimp only
    rw [hcolon]
    exact (tableSiblings_iff p).mpr ⟨s₁, w, ts, t, hw, hts, ht, hrest⟩

/-- A table with the `{` before it, which may have been read already. -/
def openTable (started : Bool) (ts : List JsonToken) : List JsonToken :=
  if started then ts else .objectStart :: ts

/-- The array of tables, after its `[`; `started` says that the `{` of a table has been read. -/
inductive TablesText : Bool → Store → List JsonToken → Store → Prop
  | close {s : Store} : TablesText false s [.arrayEnd] s
  | last {started : Bool} {s s' : Store} {v : List JsonToken} (h : TableText p s v .arrayEnd s') :
      TablesText started s (openTable started v) s'
  | next {started : Bool} {s s' s'' : Store} {v ts : List JsonToken}
      (h : TableText p s v .element s') (hrest : TablesText false s' ts s'') :
      TablesText started s (openTable started (v ++ ts)) s''
  | flat {started : Bool} {s s' s'' : Store} {v ts : List JsonToken}
      (h : TableText p s v .table s') (hrest : TablesText true s' ts s'') :
      TablesText started s (openTable started (v ++ ts)) s''

theorem tablesText_of_tablesLoop {fuel : Nat} {started : Bool} {s s' : Store} {l l' : List UInt8}
    (h : tablesLoop p fuel started s l = .ok (s', l')) :
    ∃ ts, TablesText p started s ts s' ∧ Spans ts l l' := by
  induction fuel generalizing started s l with
  | zero => cases h
  | succ fuel ih =>
    -- what follows the brace of a table, which may have been read in the round before
    have hround : ∀ {m}, tableRound p fuel s m = .ok (s', l') →
        ∃ ts, (∀ started, TablesText p started s (openTable started ts) s') ∧ Spans ts m l' := by
      intro m h
      unfold tableRound at h
      split at h
      next => cases h
      next s₁ m₁ htable =>
        cases h
        obtain ⟨v, hv, hspan⟩ := tableText_of_parseTable p htable
        exact ⟨v, fun _ => .last hv, hspan⟩
      next s₁ m₁ htable =>
        obtain ⟨v, hv, hspan⟩ := tableText_of_parseTable p htable
        obtain ⟨ts, hts, hrest⟩ := ih h
        exact ⟨_, fun _ => .next hv hts, spans_append.mpr ⟨m₁, hspan, hrest⟩⟩
      next s₁ m₁ htable =>
        obtain ⟨v, hv, hspan⟩ := tableText_of_parseTable p htable
        obtain ⟨ts, hts, hrest⟩ := ih h
        exact ⟨_, fun _ => .flat hv hts, spans_append.mpr ⟨m₁, hspan, hrest⟩⟩
    cases started with
    | true =>
      obtain ⟨ts, hts, hspan⟩ := hround (h : tableRound p fuel s l = _)
      exact ⟨_, hts true, hspan⟩
    | false =>
      obtain ⟨t, m, ht⟩ : ∃ t m, jsonParseToken l = (t, m) := ⟨_, _, rfl⟩
      by_cases hstart : t = .objectStart
      · subst hstart
        rw [tablesLoop_open p ht] at h
        obtain ⟨ts, hts, hspan⟩ := hround h
        exact ⟨_, hts false, m, ht, hspan⟩
      · by_cases hend : t = .arrayEnd
        · subst hend
          rw [tablesLoop_close p ht] at h
          cases h
          exact ⟨_, .close, spans_singleton.mpr ht⟩
        · rw [tablesLoop_invalid p ht hstart hend] at h
          cases h

theorem tablesLoop_of_tablesText {started : Bool} {s s' : Store} {ts : List JsonToken}
    (h : TablesText p started s ts s') {fuel : Nat} {l l' : List UInt8} (hl : l.length < fuel)
    (hspan : Spans ts l l') : tablesLoop p fuel started s l = .ok (s', l') := by
  -- what a table accepts behind its brace, it accepts with the brace
  have hopen : ∀ {started : Bool} {s : Store} {ts : List JsonToken} {fuel : Nat} {l : List UInt8},
      l.length < fuel + 1 → Spans (openTable started ts) l l' →
      (∀ m, m.length ≤ l.length → Spans ts m l' → tableRound p fuel s m = .ok (s', l')) →
      tablesLoop p (fuel + 1) started s l = .ok (s', l') := by
    intro started s ts fuel l hl hspan hround
    cases started with
    | true => exact hround l (Nat.le_refl _) hspan
    | false =>
      obtain ⟨m, hm, hspan⟩ := hspan
      rw [tablesLoop_open p hm]
      exact hround m (length_of_parseToken hm) hspan
  induction h generalizing fuel l with
  | @close s =>
    obtain ⟨fuel, rfl⟩ := Nat.exists_eq_succ_of_ne_zero (Nat.ne_zero_of_lt hl)
    exact tablesLoop_close p (spans_singleton.mp hspan)
  | @last started s s' v hv =>
    obtain ⟨fuel, rfl⟩ := Nat.exists_eq_succ_of_ne_zero (Nat.ne_zero_of_lt hl)
    apply hopen hl hspan
    intro m _ hspan
    rw [tableRound, parseTable_of_tableText p hv hspan]
  | @next started s s' s'' v ts hv hts ih =>
    obtain ⟨fuel, rfl⟩ := Nat.exists_eq_succ_of_ne_zero (Nat.ne_zero_of_lt hl)
    apply hopen hl hspan
    intro m hm hspan
    obtain ⟨m₁, hspan, hrest⟩ := spans_append.mp hspan
    have htable := parseTable_of_tableText p hv hspan
    have hlt := length_parseTable_lt htable (by simp)
    rw [tableRound, htable]
    exact ih (by omega) hrest hopen
  | @flat started s s' s'' v ts hv hts ih =>
    obtain ⟨fuel, rfl⟩ := Nat.exists_eq_succ_of_ne_zero (Nat.ne_zero_of_lt hl)
    apply hopen hl hspan
    intro m hm hspan
    obtain ⟨m₁, hspan, hrest⟩ := spans_append.mp hspan
    have htable := parseTable_of_tableText p hv hspan
    have hlt := length_parseTable_lt htable (by simp)
    rw [tableRound, htable]
    exact ih (by omega) hrest hopen

theorem decides_tablesLoop (s : Store) :
    Decides (fun l => tablesLoop p (l.length + 1) false s l) (TablesText p false s) := fun l _ _ =>
  ⟨tablesText_of_tablesLoop p, fun ⟨_, hts, hspan⟩ =>
    tablesLoop_of_tablesText p hts (Nat.lt_succ_self l.length) hspan⟩

/-! ### The file -/

/-- The value of a member of the outermost object. -/
def TopMemberText (key : CString) (s : Store) (ts : List JsonToken) (s' : Store) : Prop :=
  if key = cstr "metadata" then MetadataText ts ∧ s' = s
  else if key = cstr "tables" then ∃ us, ts = .arrayStart :: us ∧ TablesText p false s us s'
  else SkipsAs .success ts ∧ s' = s

theorem decides_topMember (key : CString) (s : Store) :
    Decides (topMember p key s) (TopMemberText p key s) := by
  intro l s' l'
  unfold topMember TopMemberText
  split_ifs
  · exact decides_metadata s l s' l'
  · exact (decides_tablesLoop p s).arrayStart l s' l'
  · exact decides_skipValueChecked s l s' l'

/-- **A document**: one object, and the store it leads to. -/
def Document (s : Store) (ts : List JsonToken) (s' : Store) : Prop :=
  ∃ us, ts = .objectStart :: us ∧ Members (TopMemberText p) s us s'

variable {p}

/-- **What is loaded**: the texts that begin with a document, for which there is memory. -/
theorem load_iff {counter : Int} {text : List UInt8} {s : Store} :
    dbLoadFromFile p counter (some text) = some (some s) ↔
      p.malloc (text.length + 1) = true ∧
        ∃ ts rest, Document p ⟨dbCreate, counter⟩ ts s ∧ Spans ts text rest := by
  -- the loop over the outermost object decides the document behind its brace
  have htop := decides_parseMembers (decides_topMember p) ⟨dbCreate, counter⟩
  constructor
  · intro h
    obtain ⟨hmalloc, hcontent⟩ := loadContent_of_load h
    obtain ⟨m, rest, hstart, hok⟩ := loadContent_eq_ok hcontent
    obtain ⟨us, hus, hspan⟩ := (htop m s rest).mp hok
    exact ⟨hmalloc, _, rest, ⟨us, rfl, hus⟩, m, hstart, hspan⟩
  · rintro ⟨hmalloc, _, rest, ⟨us, rfl, hus⟩, m, hstart, hspan⟩
    have hlen := length_parseToken_lt hstart (by simp) (by simp)
    have hok : parseMembers (topMember p) (m.length + 1) ⟨dbCreate, counter⟩ m = .ok (s, rest) :=
      (htop m s rest).mpr ⟨us, hus, hspan⟩
    rw [dbLoadFromFile, if_neg (by omega), if_pos hmalloc, loadContent, hstart]
    dsimp only
    rw [hok]
    rfl

end Luminix
