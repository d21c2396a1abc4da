import Luminix.Equiv.Reading
import Luminix.Equiv.Serialize

/-!
# Loading what was saved

`reload` says, without any text, what a database becomes when it is saved and loaded: tables are
added under their escaped names, and every record is inserted anew.  `load_save` is the connection
to `db_save_to_file` and `db_load_from_file`; everything about persistence is then proved of
`reload`.
-/

namespace Luminix

open CLib TokenReader

variable {σ : Type}

/-! ### The database that is loaded -/

/-- The token of a value, if it can be read. -/
def valueToken (p : Platform) (f : Field) : Option JsonToken :=
  match valueTokens p f with
  | [.none] => none
  | [t] => some t
  | _ => none

/-- The token of a field, if its key and its value can be read. -/
def fieldToken (p : Platform) (x : Column × Field) : Option JsonToken :=
  if quotable false x.1.name.bytes then valueToken p x.2 else none

/-- The values of a record, column by column. -/
def loadedFields (p : Platform) (columns : List Column) (pairs : List (Column × Field))
    (values : List Field) : Option (List Field) :=
  pairs.foldlM (fun values x => (fieldToken p x).map (loadedField p columns values x.1.name)) values

/-- A record that was saved with the columns `saved`, inserted into table `i` with its `columns`. -/
def loadRecord (p : Platform) (i : Nat) (columns saved : List Column) (s : Store) (r : Record) :
    Option Store :=
  (loadedFields p columns (fieldPairs saved r.fields) (initialValues columns)).bind fun values =>
    (insertDraft p i columns ⟨atoi (decimal r.id), values⟩ s).toOption

/-- The name a table is loaded under. -/
def loadedName (t : Table) : CString := (escaped t.name).truncate (maxTableName - 1)

/-- The columns a table is loaded with. -/
def loadedColumns (t : Table) : List (Option CString × FieldType) :=
  t.columns.map fun c => (some (escaped c.name), stringToFieldType (escaped (fieldTypeToString c.type)))

/-- The database with a new table. -/
def loadSchema (db : Database) (t : Table) : Option Database :=
  if 0 < (loadedName t).length then
    match dbAddTable db (some (loadedName t)) (some (loadedColumns t)) with
    | (.success, db) => some db
    | _ => none
  else none

/-- A table with its records. -/
def loadTable (p : Platform) (s : Store) (t : Table) : Option Store :=
  (loadSchema s.db t).bind fun db =>
    (db.tables[db.tableCount - 1]?).bind fun t' =>
      t.records.foldlM (loadRecord p (db.tableCount - 1) t'.columns t.columns) { s with db }

/-- **The database that is loaded** from the file another one was saved to, or a null pointer. -/
def reload (p : Platform) (counter : Int) (db : Database) : Option Store :=
  db.tables.foldlM (loadTable p) ⟨dbCreate, counter⟩

/-! ### Values -/

/-- A value is one token, or ends in one that cannot be read. -/
theorem valueTokens_cases (p : Platform) (f : Field) :
    (∃ t, valueTokens p f = [t] ∧ valueToken p f = some t ∧ t ≠ .none) ∨
    (valueTokens p f = [.none] ∧ valueToken p f = none) ∨
    (∃ s, valueTokens p f = [.number s, .none] ∧ valueToken p f = none) := by
  -- a floating-point number is one token, a bad one, or cut by the buffer
  have hfloat : ∀ F bits text, (∃ s, floatTokens F bits text = [.number s]) ∨
      floatTokens F bits text = [.none] ∨ ∃ s, floatTokens F bits text = [.number s, .none] := by
    intro F bits text
    unfold floatTokens
    split_ifs
    · exact .inl ⟨_, rfl⟩
    · exact .inr (.inr ⟨_, rfl⟩)
    · exact .inr (.inr ⟨_, rfl⟩)
    · exact .inr (.inl rfl)
  have hnumber : (∃ s, valueTokens p f = [.number s]) ∨ valueTokens p f = [.none] ∨
      (∃ s, valueTokens p f = [.number s, .none]) →
      (∃ t, valueTokens p f = [t] ∧ valueToken p f = some t ∧ t ≠ .none) ∨
      (valueTokens p f = [.none] ∧ valueToken p f = none) ∨
      (∃ s, valueTokens p f = [.number s, .none] ∧ valueToken p f = none) := by
    rintro (⟨s, h⟩ | h | ⟨s, h⟩)
    · exact .inl ⟨_, h, by rw [valueToken, h], nofun⟩
    · exact .inr (.inl ⟨h, by rw [valueToken, h]⟩)
    · exact .inr (.inr ⟨s, h, by rw [valueToken, h]⟩)
  cases hf : f.type
  case float =>
    apply hnumber
    rw [valueTokens, hf]
    exact hfloat _ _ _
  case double =>
    apply hnumber
    rw [valueTokens, hf]
    exact hfloat _ _ _
  all_goals
    left
    unfold valueToken valueTokens
    rw [hf]
    exact ⟨_, rfl, rfl, nofun⟩

/-- A field of a record. -/
def fieldPart (p : Platform) (columns : List Column) (x : Column × Field) : Part (List Field) where
  key :=
    if quotable false x.1.name.bytes then x.1.name
    else CString.ofBytes (stringBody false x.1.name.bytes).1
  next := if quotable false x.1.name.bytes then .colon else .none
  tokens := valueTokens p x.2
  step values := (fieldToken p x).map (loadedField p columns values x.1.name)

theorem partsTail_fieldPart (p : Platform) (columns : List Column) (pairs : List (Column × Field)) :
    partsTail (pairs.map (fieldPart p columns)) = fieldsTokens p pairs := by
  rw [partsTail, List.map_map, fieldsTokens]
  congr 1
  apply List.map_congr_left
  intro x _
  simp only [Function.comp, fieldPart, keyTokens]
  split_ifs <;> rfl

theorem readBy_fieldPart (p : Platform) (columns : List Column) (x : Column × Field) :
    (fieldPart p columns x).ReadBy (recordField p columns) := by
  by_cases hkey : quotable false x.1.name.bytes = true
  · refine .inl ⟨if_pos hkey, fun values rest l l' h => ?_⟩
    change Reads jsonParseToken .none (valueTokens p x.2 ++ rest) l l' at h
    have hname : (fieldPart p columns x).key = x.1.name := if_pos hkey
    have htoken : fieldToken p x = valueToken p x.2 := if_pos hkey
    show Yields rest l' ((fieldToken p x).map (loadedField p columns values x.1.name))
      (recordField p columns (fieldPart p columns x).key values l)
    rw [hname, htoken]
    -- whatever the next token is, exactly that token is read
    have hread : ∀ t l₁, jsonParseToken l = (t, l₁) →
        recordField p columns x.1.name values l =
          .ok (loadedField p columns values x.1.name t, l₁) := by
      intro t l₁ ht
      rw [recordField_eq, ht]
    rcases valueTokens_cases p x.2 with ⟨t, htoks, ht, hne⟩ | ⟨htoks, hnone⟩ | ⟨s, htoks, hnone⟩
    · rw [htoks] at h
      obtain ⟨l₁, h1, hrest⟩ := h.head hne
      rw [ht, hread t l₁ h1]
      exact .done hrest
    · rw [htoks] at h
      obtain ⟨l₁, h1, h2⟩ := h.bad_head
      rw [hnone, hread .none l₁ h1]
      exact .stuck (by rw [h2])
    · rw [htoks] at h
      obtain ⟨l₁, h1, hrest⟩ := h.head (by simp)
      obtain ⟨l₂, h2, -⟩ := hrest.bad_head
      rw [hnone, hread _ l₁ h1]
      exact .stuck (by rw [h2])
  · refine .inr ⟨if_neg hkey, fun values => ?_⟩
    have htoken : fieldToken p x = none := if_neg hkey
    show (fieldToken p x).map _ = none
    rw [htoken]
    rfl

theorem runParts_fieldPart (p : Platform) (columns : List Column) (pairs : List (Column × Field))
    (values : List Field) :
    runParts (pairs.map (fieldPart p columns)) values = loadedFields p columns pairs values := by
  rw [runParts, List.foldlM_map]
  rfl

/-! ### Records -/

/-- The members of a record. -/
def recordParts (p : Platform) (columns saved : List Column) (r : Record) : List (Part RecordDraft) :=
  [.of (cstr "id") [.number (CString.ofBytes (decimal r.id))]
      fun draft => some { draft with id := atoi (decimal r.id) },
    .of (cstr "fields") (.objectStart :: fieldsTokens p (fieldPairs saved r.fields))
      fun draft => (loadedFields p columns (fieldPairs saved r.fields) draft.values).map fun values =>
        { draft with values },
    .of (cstr "metadata") (.objectStart :: objectTail [
        memberTokens (cstr "timestamp") [.string (unquoted (p.dateTimeText r.timestamp))],
        memberTokens (cstr "version") [.number (CString.ofBytes (unsignedDecimal r.version))]]) some]

theorem readBy_recordParts (p : Platform) (columns saved : List Column) (r : Record) :
    ∀ m ∈ recordParts p columns saved r, m.ReadBy (recordMember p columns) := by
  rw [recordParts, List.forall_mem_cons, List.forall_mem_cons, List.forall_mem_singleton]
  refine ⟨Part.readBy_of ?_, Part.readBy_of ?_, Part.readBy_of ?_⟩
  · intro draft rest l l' h
    obtain ⟨l₁, h1, hrest⟩ := h.head (by simp)
    show Yields rest l' _ (recordMember p columns (cstr "id") draft l)
    rw [recordMember, if_pos rfl, h1]
    dsimp only
    rw [CString.bytes_ofBytes (zero_notMem_decimal r.id)]
    exact .done hrest
  · intro draft rest l l' h
    obtain ⟨l₁, h1, hrest⟩ := h.head (by simp)
    have hfields := parses_members (steady_recordField p columns)
      ((fieldPairs saved r.fields).map (fieldPart p columns))
      (fun m hm => by
        obtain ⟨x, -, rfl⟩ := List.mem_map.mp hm
        exact readBy_fieldPart p columns x)
      draft.values (Nat.lt_succ_self l₁.length)
      (by rw [partsTail_fieldPart]; exact hrest)
    rw [runParts_fieldPart] at hfields
    show Yields rest l' _ (recordMember p columns (cstr "fields") draft l)
    rw [recordMember, if_neg (by decide), if_pos rfl, h1]
    dsimp only
    generalize parseMembers (recordField p columns) (l₁.length + 1) draft.values l₁ = res at hfields
    generalize loadedFields p columns (fieldPairs saved r.fields) draft.values = o at hfields
    cases hfields with
    | done hrest => exact .done hrest
    | failed => exact .failed
  · intro draft
    -- the metadata are skipped whole
    have hskips : Skips (.objectStart :: objectTail [
        memberTokens (cstr "timestamp") [.string (unquoted (p.dateTimeText r.timestamp))],
        memberTokens (cstr "version") [.number (CString.ofBytes (unsignedDecimal r.version))]]) := by
      apply skips_object [(cstr "timestamp", [.string _]), (cstr "version", [.number _])]
      rw [List.forall_mem_cons, List.forall_mem_singleton]
      exact ⟨skips_token rfl (by simp) (by simp), skips_token rfl (by simp) (by simp)⟩
    have hmember : ∀ l, recordMember p columns (cstr "metadata") draft l =
        (skipValue l).map fun l => (draft, l) := by
      intro l
      rw [recordMember, if_neg (by decide), if_neg (by decide)]
    intro rest l l' h
    show Yields rest l' _ (recordMember p columns (cstr "metadata") draft l)
    rw [hmember]
    exact parses_skipValue hskips draft rest l l' h

/-- A record as an element of the array of records. -/
def recordItem (p : Platform) (i : Nat) (columns saved : List Column) (r : Record) : Item Store where
  tokens := partsTail (recordParts p columns saved r)
  step s := loadRecord p i columns saved s r

/-- An insert with an id that is taken goes on behind the record, any other refusal fails. -/
theorem yields_insertDraft (p : Platform) (i : Nat) (columns : List Column) (draft : RecordDraft)
    (s : Store) {rest : List JsonToken} {l l' : List UInt8}
    (hrest : Reads jsonParseToken .none rest l l') :
    Yields rest l' (insertDraft p i columns draft s).toOption
      ((insertDraft p i columns draft s).map fun s => (s, l)) := by
  unfold insertDraft
  split_ifs
  · exact .done hrest
  · split
    · exact .done hrest
    · exact .done hrest
    · exact .failed

theorem parses_recordItem (p : Platform) (i : Nat) (columns saved : List Column) (r : Record)
    (s : Store) : Parses (recordElement p i columns s) (recordItem p i columns saved r).tokens
      (loadRecord p i columns saved s r) := by
  intro rest l l' h
  have hmembers := parses_members (steady_recordMember p columns) _
    (readBy_recordParts p columns saved r) ⟨-1, initialValues columns⟩ (Nat.lt_succ_self l.length) h
  have hrun : runParts (recordParts p columns saved r) ⟨-1, initialValues columns⟩ =
      (loadedFields p columns (fieldPairs saved r.fields) (initialValues columns)).map fun values =>
        ⟨atoi (decimal r.id), values⟩ := by
    simp only [recordParts, Part.of, runParts_cons, runParts_nil, Option.bind_some]
    cases loadedFields p columns (fieldPairs saved r.fields) (initialValues columns) <;> rfl
  rw [hrun] at hmembers
  unfold recordElement loadRecord
  generalize parseMembers (recordMember p columns) (l.length + 1) ⟨-1, initialValues columns⟩ l = res
    at hmembers
  generalize loadedFields p columns (fieldPairs saved r.fields) (initialValues columns) = values
    at hmembers
  cases values with
  | some values =>
    cases hmembers with
    | done hrest => exact yields_insertDraft p i columns _ s hrest
  | none =>
    cases hmembers with
    | failed => exact .failed

/-- `json_parse_table_records`, if the records can be read whatever the columns are. -/
theorem settles_tableRecords_of (p : Platform) (i : Nat) {items : List Column → List (Item Store)}
    {toks rest : List JsonToken} (htoks : ∀ cs, itemsTail (items cs) = toks)
    (hitems : ∀ cs, ∀ x ∈ items cs, ∀ s, Parses (recordElement p i cs s) x.tokens (x.step s)) (s : Store)
    {l l' : List UInt8} (h : Reads jsonParseToken .none (.arrayStart :: (toks ++ rest)) l l') :
    Settles rest l' ((s.db.tables[i]?).bind fun t => runItems (items t.columns) s)
      (jsonParseTableRecords p i s l) := by
  obtain ⟨l₁, h1, h⟩ := h.head (by simp)
  unfold jsonParseTableRecords
  cases s.db.tables[i]? with
  | none => exact .failed
  | some t =>
    dsimp only
    rw [h1]
    rw [← htoks t.columns] at h
    exact parses_elements (steady_recordElement p i t.columns) _ (hitems t.columns) s
      (Nat.lt_succ_self l₁.length) h

/-- The records of a saved table. -/
theorem settles_tableRecords (p : Platform) (i : Nat) {saved : List Column} (rs : List Record)
    (s : Store) {rest : List JsonToken} {l l' : List UInt8}
    (h : Reads jsonParseToken .none
      (.arrayStart :: (arrayTail (rs.map (recordTokens p saved)) ++ rest)) l l') :
    Settles rest l' ((s.db.tables[i]?).bind fun t => rs.foldlM (loadRecord p i t.columns saved) s)
      (jsonParseTableRecords p i s l) := by
  have htoks : ∀ cs, itemsTail (rs.map (recordItem p i cs saved)) =
      arrayTail (rs.map (recordTokens p saved)) := fun cs => by
    rw [itemsTail, List.map_map]
    rfl
  have hrecords := settles_tableRecords_of p i htoks (fun cs x hx s => by
    obtain ⟨r, -, rfl⟩ := List.mem_map.mp hx
    exact parses_recordItem p i cs saved r s) s h
  simp only [runItems, List.foldlM_map] at hrecords
  exact hrecords

/-! ### Schemas -/

/-- The members of a column definition. -/
def columnParts (c : Column) : List (Part (Option CString × FieldType)) :=
  [.of (cstr "name") [.string (escaped c.name)]
      fun field => some (some (escaped c.name), field.2),
    .of (cstr "type") [.string (escaped (fieldTypeToString c.type))]
      fun field => some (field.1, stringToFieldType (escaped (fieldTypeToString c.type)))] ++
  if c.constraint.primaryKey || c.constraint.unique || !c.constraint.nullable then
    [.of (cstr "constraints")
      (.arrayStart :: arrayTail ((constraintNames c.constraint).map fun s => [.string s])) some]
  else []

theorem columnTokens_eq (c : Column) : columnTokens c = .objectStart :: partsTail (columnParts c) := by
  unfold columnTokens partsTail columnMembers columnParts
  split_ifs <;> rfl

/-- A member of which only a skipped value is read. -/
theorem readBy_skip {member : CString → σ → List UInt8 → Except Failure (σ × List UInt8)}
    {key : CString} {toks : List JsonToken} (h : Skips toks)
    (hmember : ∀ s l, member key s l = (skipValue l).map fun l => (s, l)) :
    (Part.of key toks some).ReadBy member := by
  apply Part.readBy_of
  intro s rest l l' hreads
  show Yields rest l' (some s) (member key s l)
  rw [hmember]
  exact parses_skipValue h s rest l l' hreads

/-- A member whose value is a string. -/
theorem readBy_string {member : CString → σ → List UInt8 → Except Failure (σ × List UInt8)}
    {key value : CString} {f : σ → σ}
    (hmember : ∀ s l l₁, jsonParseToken l = (.string value, l₁) → member key s l = .ok (f s, l₁)) :
    (Part.of key [.string value] fun s => some (f s)).ReadBy member := by
  apply Part.readBy_of
  intro s rest l l' hreads
  obtain ⟨l₁, h1, hrest⟩ := hreads.head (by simp)
  show Yields rest l' (some (f s)) (member key s l)
  rw [hmember s l l₁ h1]
  exact .done hrest

theorem readBy_columnParts (c : Column) : ∀ m ∈ columnParts c, m.ReadBy fieldMember := by
  have hname : (Part.of (cstr "name") [.string (escaped c.name)] fun field =>
      some (some (escaped c.name), field.2)).ReadBy fieldMember :=
    readBy_string fun s l l₁ h => by rw [fieldMember, if_pos rfl, h]
  have htype : (Part.of (cstr "type") [.string (escaped (fieldTypeToString c.type))] fun field =>
      some (field.1, stringToFieldType (escaped (fieldTypeToString c.type)))).ReadBy fieldMember :=
    readBy_string fun s l l₁ h => by rw [fieldMember, if_neg (by decide), if_pos rfl, h]
  have hconstraints : (Part.of (cstr "constraints") (.arrayStart :: arrayTail
      ((constraintNames c.constraint).map fun s => [.string s])) some).ReadBy fieldMember := by
    refine readBy_skip (skips_array fun x hx => ?_) fun s l => by
      rw [fieldMember, if_neg (by decide), if_neg (by decide)]
    obtain ⟨name, -, rfl⟩ := List.mem_map.mp hx
    exact skips_token rfl (by simp) (by simp)
  intro m hm
  rw [columnParts, List.mem_append] at hm
  rcases hm with hm | hm
  · simp only [List.mem_cons, List.not_mem_nil, or_false] at hm
    rcases hm with rfl | rfl
    · exact hname
    · exact htype
  · split_ifs at hm
    · rw [List.mem_singleton] at hm
      subst hm
      exact hconstraints
    · exact absurd hm List.not_mem_nil

/-- A column as an element of the array of columns. -/
def columnItem (c : Column) : Item (List (Option CString × FieldType)) where
  tokens := partsTail (columnParts c)
  step fields :=
    some (fields ++ [(some (escaped c.name), stringToFieldType (escaped (fieldTypeToString c.type)))])

theorem parses_columnItem (c : Column) (fields : List (Option CString × FieldType)) :
    Parses (fieldDefinition fields) (columnItem c).tokens ((columnItem c).step fields) := by
  intro rest l l' h
  have hmembers := parses_members steady_fieldMember _ (readBy_columnParts c) (none, .string)
    (Nat.lt_succ_self l.length) h
  have hrun : runParts (columnParts c) (none, .string) =
      some (some (escaped c.name), stringToFieldType (escaped (fieldTypeToString c.type))) := by
    unfold columnParts
    split_ifs <;> rfl
  rw [hrun] at hmembers
  unfold fieldDefinition
  generalize parseMembers fieldMember (l.length + 1) (none, .string) l = res at hmembers
  cases hmembers with
  | done hrest => exact .done hrest

theorem runItems_columnItem (cs : List Column) (fields : List (Option CString × FieldType)) :
    runItems (cs.map columnItem) fields = some (fields ++ cs.map fun c =>
      (some (escaped c.name), stringToFieldType (escaped (fieldTypeToString c.type)))) := by
  induction cs generalizing fields with
  | nil => rw [List.map_nil, List.map_nil, List.append_nil, runItems_nil]
  | cons c cs ih =>
    rw [List.map_cons, runItems_cons, columnItem, Option.bind_some, ih, List.map_cons,
      List.append_assoc, List.singleton_append]

/-- The members of a schema. -/
def schemaParts (t : Table) : List (Part SchemaDraft) :=
  [.of (cstr "name") [.string (escaped t.name)]
      fun draft => some { draft with name := loadedName t },
    .of (cstr "fields") (.arrayStart :: arrayTail (t.columns.map columnTokens))
      fun draft => some { draft with fields := draft.fields ++ loadedColumns t },
    .of (cstr "record_count") [.number (CString.ofBytes (decimal t.recordCount))] some]

theorem readBy_schemaParts (t : Table) :
    ∀ m ∈ schemaParts t, m.key ≠ cstr "schema" ∧ m.ReadBy schemaMember := by
  rw [schemaParts, List.forall_mem_cons, List.forall_mem_cons, List.forall_mem_singleton]
  have hname : cstr "name" ≠ cstr "schema" := by decide
  have hfields : cstr "fields" ≠ cstr "schema" := by decide
  have hcount : cstr "record_count" ≠ cstr "schema" := by decide
  refine ⟨⟨hname, ?_⟩, ⟨hfields, ?_⟩, hcount, ?_⟩
  · exact readBy_string fun draft l l₁ h => by
      rw [schemaMember, if_pos rfl, h]
      rfl
  · apply Part.readBy_of
    intro draft rest l l' h
    obtain ⟨l₁, h1, h⟩ := h.head (by simp)
    have htoks : itemsTail (t.columns.map columnItem) = arrayTail (t.columns.map columnTokens) := by
      rw [itemsTail, List.map_map]
      congr 1
      exact List.map_congr_left fun c _ => (columnTokens_eq c).symm
    change Reads jsonParseToken .none (arrayTail (t.columns.map columnTokens) ++ rest) l₁ l' at h
    rw [← htoks] at h
    have helements := parses_elements steady_fieldDefinition _
      (fun x hx fields => by
        obtain ⟨c, -, rfl⟩ := List.mem_map.mp hx
        exact parses_columnItem c fields) draft.fields (Nat.lt_succ_self l₁.length) h
    rw [runItems_columnItem] at helements
    show Yields rest l' _ (schemaMember (cstr "fields") draft l)
    rw [schemaMember, if_neg (by decide), if_pos rfl, h1]
    dsimp only
    generalize parseElements fieldDefinition (l₁.length + 1) draft.fields l₁ = res at helements
    cases helements with
    | done hrest => exact .done hrest
  · exact readBy_skip (skips_token rfl (by simp) (by simp)) fun draft l => by
      rw [schemaMember, if_neg (by decide), if_neg (by decide)]

/-- The loop over a schema reads its members. -/
theorem settles_schemaLoop {ms : List (Part SchemaDraft)}
    (hms : ∀ m ∈ ms, m.key ≠ cstr "schema" ∧ m.ReadBy schemaMember) {fuel : Nat}
    {rest : List JsonToken} (draft : SchemaDraft) {l l' : List UInt8} (hl : l.length < fuel)
    (h : Reads jsonParseToken .none (partsTail ms ++ rest) l l') :
    Settles rest l' (runParts ms draft)
      (schemaLoop fuel draft (jsonParseToken l).1 (jsonParseToken l).2) := by
  induction ms generalizing fuel draft l with
  | nil =>
    obtain ⟨l₁, h1, hrest⟩ := h.head (by simp)
    cases fuel with
    | zero => exact absurd hl (Nat.not_lt_zero _)
    | succ fuel =>
      rw [h1]
      exact .done hrest
  | cons m ms ih =>
    rw [partsTail_cons, List.cons_append, List.cons_append, List.append_assoc] at h
    obtain ⟨hne, hread⟩ := hms m List.mem_cons_self
    obtain ⟨l₁, hkey, h⟩ := h.head (by simp)
    have h1 := length_parseToken_lt hkey (by simp) (by simp)
    cases fuel with
    | zero => exact absurd hl (Nat.not_lt_zero _)
    | succ fuel =>
      rw [hkey, runParts_cons]
      dsimp only
      rw [schemaLoop]
      -- a part that is read, or one whose key cannot be read
      rcases hread with ⟨hnext, hread⟩ | ⟨hnext, hnone⟩
      · rw [hnext] at h
        obtain ⟨l₂, hcolon, h⟩ := h.head (by simp)
        have h2 := length_of_parseToken hcolon
        have hvalue := hread draft _ l₂ l' h
        have hsteadyValue := steady_schemaMember m.key draft l₂
        rw [hcolon]
        dsimp only
        rw [if_neg hne]
        generalize m.step draft = res at hvalue
        generalize schemaMember m.key draft l₂ = r at hvalue hsteadyValue
        cases hvalue with
        | @done draft' l₃ hrest =>
          have h3 : l₃.length ≤ l₂.length := hsteadyValue
          cases ms with
          | nil =>
            obtain ⟨l₄, hend, hrest⟩ := hrest.head (by simp)
            dsimp only
            rw [hend]
            exact .done hrest
          | cons m' ms =>
            obtain ⟨l₄, hcomma, hrest⟩ := hrest.head (by simp)
            have h4 := length_of_parseToken hcomma
            dsimp only
            rw [hcomma]
            exact ih (fun x hx => hms x (List.mem_cons_of_mem m hx)) draft' (by omega) hrest
        | @stuck draft' l₃ hnone =>
          obtain ⟨l₄, h4⟩ : ∃ l₄, jsonParseToken l₃ = (.none, l₄) := ⟨_, Prod.ext hnone rfl⟩
          dsimp only
          rw [h4]
          exact .failed
        | failed => exact .failed
      · rw [hnext] at h
        obtain ⟨l₂, h2, -⟩ := h.bad_head
        rw [h2, hnone]
        exact .failed

/-- Adding a table with the name and the fields that were read. -/
def addSchema (db : Database) (draft : SchemaDraft) : Option Database :=
  if 0 < draft.name.length ∧ 0 < draft.fields.length then
    match dbAddTable db (some draft.name) (some draft.fields) with
    | (.success, db) => some db
    | _ => none
  else none

/-- `json_parse_table_schema`, once its loop has read the schema. -/
theorem settles_tableSchema_of (db : Database) {draft : SchemaDraft} {rest : List JsonToken}
    {l l' : List UInt8} (h : Settles rest l' (some draft)
      (schemaLoop (l.length + 1) ⟨cstr "", []⟩ (schemaStart l).1 (schemaStart l).2)) :
    Settles rest l' (addSchema db draft) (jsonParseTableSchema db l) := by
  unfold jsonParseTableSchema addSchema
  generalize schemaLoop (l.length + 1) ⟨cstr "", []⟩ (schemaStart l).1 (schemaStart l).2 = res at h
  cases h with
  | done hrest =>
    dsimp only
    split_ifs
    · generalize dbAddTable db (some draft.name) (some draft.fields) = r
      obtain ⟨code, db'⟩ := r
      cases code
      case success => exact .done hrest
      all_goals exact .failed
    · exact .failed

/-- The loop over the schema of a saved table. -/
theorem settles_schemaStart (t : Table) {rest : List JsonToken} {l l' : List UInt8}
    (h : Reads jsonParseToken .none
      (memberTokens (cstr "schema") (.objectStart :: schemaTokens t) ++ rest) l l') :
    Settles rest l' (some ⟨loadedName t, loadedColumns t⟩)
      (schemaLoop (l.length + 1) ⟨cstr "", []⟩ (schemaStart l).1 (schemaStart l).2) := by
  obtain ⟨l₁, hkey, h⟩ := h.head (by simp)
  obtain ⟨l₂, hcolon, h⟩ := h.head (by simp)
  obtain ⟨l₃, hstart, h⟩ := h.head (by simp)
  have h1 := length_parseToken_lt hkey (by simp) (by simp)
  have h2 := length_of_parseToken hcolon
  have h3 := length_of_parseToken hstart
  have hloop := settles_schemaLoop (readBy_schemaParts t) ⟨cstr "", []⟩
    (by omega : l₃.length < l.length) h
  have hrun : runParts (schemaParts t) ⟨cstr "", []⟩ = some ⟨loadedName t, loadedColumns t⟩ := rfl
  have hfirst : schemaStart l = (.string (cstr "schema"), l₁) := by rw [schemaStart, hkey]
  -- The key `schema` opens a nested object, whose members are the schema.
  have hnested : schemaLoop (l.length + 1) ⟨cstr "", []⟩ (.string (cstr "schema")) l₁ =
      schemaLoop l.length ⟨cstr "", []⟩ (jsonParseToken l₃).1 (jsonParseToken l₃).2 := by
    rw [schemaLoop, hcolon]
    dsimp only
    rw [if_pos rfl, hstart]
  rw [hrun, ← hnested] at hloop
  rw [hfirst]
  exact hloop

/-- The schema of a saved table. -/
theorem settles_tableSchema (db : Database) (t : Table) {rest : List JsonToken} {l l' : List UInt8}
    (h : Reads jsonParseToken .none
      (memberTokens (cstr "schema") (.objectStart :: schemaTokens t) ++ rest) l l') :
    Settles rest l' (loadSchema db t) (jsonParseTableSchema db l) := by
  have hpos : 0 < (loadedColumns t).length := by
    rw [loadedColumns, List.length_map]
    exact t.columns_pos
  have hadd : addSchema db ⟨loadedName t, loadedColumns t⟩ = loadSchema db t := by
    unfold addSchema loadSchema
    simp only [hpos, and_true]
  rw [← hadd]
  exact settles_tableSchema_of db (settles_schemaStart t h)

/-! ### Tables -/

/-- What follows a table in the array, as a token and as a place to go on. -/
def AfterTable.IsAt : AfterTable → JsonToken → Prop
  | .element, t => t = .comma
  | .arrayEnd, t => t = .arrayEnd
  | .table, _ => False

/-- The end of reading a table. -/
inductive SettlesTable (after : AfterTable) (rest : List JsonToken) (l' : List UInt8) :
    Option Store → Except Failure (AfterTable × Store × List UInt8) → Prop
  | done {s : Store} {l : List UInt8} : Reads jsonParseToken .none rest l l' →
      SettlesTable after rest l' (some s) (.ok (after, s, l))
  | failed {e : ErrorCode} : SettlesTable after rest l' none (.error (.code e))

theorem afterOuterTable_eq {after : AfterTable} {t : JsonToken} (ht : after.IsAt t) {s : Store}
    {l l₁ : List UInt8} (h : jsonParseToken l = (t, l₁)) :
    afterOuterTable s l = .ok (after, s, l₁) := by
  unfold afterOuterTable
  cases after with
  | arrayEnd =>
    obtain rfl : t = .arrayEnd := ht
    rw [h]
  | element =>
    obtain rfl : t = .comma := ht
    rw [h]
  | table => exact absurd ht id

/-- A table, after its `{`. -/
theorem settles_table (p : Platform) (s : Store) (t : Table) (after : AfterTable) {sep : JsonToken}
    (hsep : after.IsAt sep) {rest : List JsonToken} {l l' : List UInt8}
    (h : Reads jsonParseToken .none ((tableTokens p t).tail ++ sep :: rest) l l') :
    SettlesTable after rest l' (loadTable p s t) (parseTable p s l) := by
  have htoks : (tableTokens p t).tail ++ sep :: rest =
      memberTokens (cstr "schema") (.objectStart :: schemaTokens t) ++
        .comma :: .string (cstr "records") :: .colon :: .arrayStart ::
          (arrayTail (t.records.map (recordTokens p t.columns)) ++ .objectEnd :: sep :: rest) := by
    simp [tableTokens, objectTail, sepBy, memberTokens]
  rw [htoks] at h
  have hschema := settles_tableSchema s.db t h
  unfold parseTable loadTable
  generalize jsonParseTableSchema s.db l = res at hschema
  generalize loadSchema s.db t = loaded at hschema
  cases hschema with
  | failed => exact .failed
  | @done db l₁ h =>
    obtain ⟨l₂, hcomma, h⟩ := h.head (by simp)
    obtain ⟨l₃, hkey, h⟩ := h.head (by simp)
    obtain ⟨l₄, hcolon, h⟩ := h.head (by simp)
    -- the records go into the table that has just been added, the last one
    have hrecords := settles_tableRecords p (db.tableCount - 1) t.records { s with db } h
    dsimp only
    rw [hcomma]
    dsimp only
    rw [hkey]
    dsimp only
    rw [hcolon, Option.bind_some]
    dsimp only
    rw [siblingMember, if_pos rfl]
    generalize jsonParseTableRecords p (db.tableCount - 1) { s with db } l₄ = res at hrecords
    generalize (db.tables[db.tableCount - 1]?).bind (fun t' => t.records.foldlM
      (loadRecord p (db.tableCount - 1) t'.columns t.columns) { s with db }) = loaded at hrecords
    cases hrecords with
    | failed => exact .failed
    | @done s' l₅ h =>
      obtain ⟨l₆, hend, h⟩ := h.head (by simp)
      obtain ⟨l₇, hnext, hrest⟩ := h.head (by
        rintro rfl
        cases after <;> cases hsep)
      dsimp only
      rw [siblingLoop, hend]
      dsimp only
      rw [afterOuterTable_eq hsep hnext]
      exact .done hrest

/-- The array of tables, after its `[`. -/
theorem settles_tablesLoop (p : Platform) (ts : List Table) {fuel : Nat} {rest : List JsonToken}
    (s : Store) {l l' : List UInt8} (hl : l.length < fuel)
    (h : Reads jsonParseToken .none (arrayTail (ts.map (tableTokens p)) ++ rest) l l') :
    Settles rest l' (ts.foldlM (loadTable p) s) (tablesLoop p fuel false s l) := by
  induction ts generalizing fuel s l with
  | nil =>
    obtain ⟨l₁, h1, hrest⟩ := h.head (by simp)
    cases fuel with
    | zero => exact absurd hl (Nat.not_lt_zero _)
    | succ fuel =>
      rw [tablesLoop_close p h1]
      exact .done hrest
  | cons t ts ih =>
    cases fuel with
    | zero => exact absurd hl (Nat.not_lt_zero _)
    | succ fuel =>
      rw [List.foldlM_cons]
      -- a table starts with its brace, so the bound stays above the rest of the text
      have hstart : ∀ {k : List JsonToken}, Reads jsonParseToken .none (tableTokens p t ++ k) l l' →
          ∃ l₁, jsonParseToken l = (.objectStart, l₁) ∧ l₁.length < l.length ∧
            Reads jsonParseToken .none ((tableTokens p t).tail ++ k) l₁ l' := by
        intro k h
        obtain ⟨l₁, h1, h⟩ := Reads.head h (by simp)
        exact ⟨l₁, h1, length_parseToken_lt h1 (by simp) (by simp), h⟩
      cases ts with
      | nil =>
        have htoks : arrayTail ([t].map (tableTokens p)) ++ rest =
            tableTokens p t ++ .arrayEnd :: rest := by
          simp [arrayTail, sepBy]
        rw [htoks] at h
        obtain ⟨l₁, h1, -, h⟩ := hstart h
        have htable := settles_table p s t .arrayEnd rfl h
        rw [tablesLoop_open p h1]
        unfold tableRound
        generalize parseTable p s l₁ = res at htable
        generalize loadTable p s t = loaded at htable
        cases htable with
        | done hrest => exact .done hrest
        | failed => exact .failed
      | cons t' ts =>
        have htoks : arrayTail ((t :: t' :: ts).map (tableTokens p)) ++ rest =
            tableTokens p t ++ .comma :: (arrayTail ((t' :: ts).map (tableTokens p)) ++ rest) := by
          simp [arrayTail, sepBy]
        rw [htoks] at h
        obtain ⟨l₁, h1, hlt, h⟩ := hstart h
        have htable := settles_table p s t .element rfl h
        have hsteady := steadyTable_parseTable p s l₁
        rw [tablesLoop_open p h1]
        unfold tableRound
        generalize parseTable p s l₁ = res at htable hsteady
        generalize loadTable p s t = loaded at htable
        cases htable with
        | done hrest =>
          have h2 := hsteady.2 (by simp)
          exact ih _ (by omega) hrest
        | failed => exact .failed

/-! ### The file -/

/-- The members of the file. -/
def fileParts (p : Platform) (db : Database) : List (Part Store) :=
  [.of (cstr "metadata") (.objectStart :: metadataTokens p db) some,
    .of (cstr "tables") (.arrayStart :: arrayTail (db.tables.map (tableTokens p)))
      fun s => db.tables.foldlM (loadTable p) s]

theorem readBy_fileParts (p : Platform) (db : Database) :
    ∀ m ∈ fileParts p db, m.ReadBy (topMember p) := by
  rw [fileParts, List.forall_mem_cons, List.forall_mem_singleton]
  refine ⟨Part.readBy_of ?_, Part.readBy_of ?_⟩
  · intro s rest l l' h
    obtain ⟨l₁, h1, h⟩ := h.head (by simp)
    -- The metadata are four plain values.
    have hparts : metadataTokens p db = partsTail
        ([.of (cstr "name") [.string (escaped (getDatabaseName db))] some,
          .of (cstr "version") [.string (cstr "1.0.0")] some,
          .of (cstr "created_at") [.string (unquoted (p.dateTimeText p.now))] some,
          .of (cstr "table_count") [.number (CString.ofBytes (decimal db.tableCount))] some] :
          List (Part Unit)) := rfl
    change Reads jsonParseToken .none (metadataTokens p db ++ rest) l₁ l' at h
    rw [hparts] at h
    have hskip : ∀ {key : CString} {t : JsonToken}, startsValue t = true → t ≠ .objectStart →
        t ≠ .arrayStart → (Part.of key [t] (some : Unit → Option Unit)).ReadBy metadataMember :=
      fun h h1 h2 => readBy_skip (skips_token h h1 h2) fun _ _ => rfl
    have hsteady : ∀ key s l, Steady l.length (metadataMember key s l) := fun _ s l =>
      steady_skipValue s l
    have hmembers := parses_members hsteady _ (by
        simp only [List.forall_mem_cons, List.not_mem_nil, false_implies, implies_true, and_true]
        exact ⟨hskip rfl (by simp) (by simp), hskip rfl (by simp) (by simp), hskip rfl (by simp) (by simp),
          hskip rfl (by simp) (by simp)⟩) () (Nat.lt_succ_self l₁.length) h
    show Yields rest l' (some s) (topMember p (cstr "metadata") s l)
    rw [topMember, if_pos rfl, jsonParseDatabaseMetadata, h1]
    dsimp only
    generalize parseMembers metadataMember (l₁.length + 1) () l₁ = res at hmembers
    cases hmembers with
    | done hrest => exact .done hrest
  · intro s rest l l' h
    obtain ⟨l₁, h1, h⟩ := h.head (by simp)
    have htables := settles_tablesLoop p db.tables s (Nat.lt_succ_self l₁.length) h
    show Yields rest l' _ (topMember p (cstr "tables") s l)
    rw [topMember, if_neg (by decide), if_pos rfl, h1]
    exact htables.yields

/-- How a load of the saved database goes: what the outermost loop ends with. -/
theorem settles_file {p : Platform} (hp : p.Faithful) (counter : Int) {db : Database}
    (hdb : db.HasKeys) (htimes : db.TimesConvert p) :
    ∃ text, dbSaveToFile p db = (.success, some text) ∧
      ∃ l, jsonParseToken text = (.objectStart, l) ∧ Settles [] [] (reload p counter db)
        (parseMembers (topMember p) (l.length + 1) ⟨dbCreate, counter⟩ l) := by
  obtain ⟨text, hsave, hreads⟩ := dbSaveToFile_reads hp hdb htimes
  obtain ⟨l₁, h1, h⟩ := Reads.head hreads nofun
  have hfile : Settles [] [] (runParts (fileParts p db) ⟨dbCreate, counter⟩)
      (parseMembers (topMember p) (l₁.length + 1) ⟨dbCreate, counter⟩ l₁) := by
    apply parses_members (steady_topMember p) _ (readBy_fileParts p db) _ (Nat.lt_succ_self _)
    rw [List.append_nil]
    exact h
  have hrun : runParts (fileParts p db) ⟨dbCreate, counter⟩ = reload p counter db := by
    simp only [fileParts, Part.of, runParts_cons, runParts_nil, Option.bind_some]
    exact Option.bind_fun_some _
  rw [hrun] at hfile
  exact ⟨text, hsave, l₁, h1, hfile⟩

/-- **Saving and loading is `reload`**, for every database whose column names are keys and whose
times can be written: a name is written without escapes in front of each value. -/
theorem load_save {p : Platform} (hp : p.Faithful) (counter : Int) {db : Database}
    (hdb : db.HasKeys) (htimes : db.TimesConvert p) :
    dbLoadFromFile p counter (dbSaveToFile p db).2 = some (reload p counter db) := by
  obtain ⟨text, hsave, l₁, h1, hfile⟩ := settles_file hp counter hdb htimes
  have hlen := length_parseToken_lt h1 (by simp) (by simp)
  rw [hsave, dbLoadFromFile]
  rw [if_neg (by omega), if_pos (hp.malloc_eq _), loadContent, h1]
  dsimp only
  generalize parseMembers (topMember p) (l₁.length + 1) ⟨dbCreate, counter⟩ l₁ = res at hfile
  generalize reload p counter db = loaded at hfile
  cases hfile with
  | done => rfl
  | failed => rfl

end Luminix
