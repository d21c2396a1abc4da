import Luminix.Equiv.FieldValue
import Luminix.Equiv.Reload
import Luminix.Equiv.Store
import Luminix.Machine.PartialFold

/-!
# What a loaded database holds

`reload` without its failures: every saved table comes back as `loadedTable`, a new table with the
default constraints into which each record is entered under its id (`enterRecord`).  `reload_eq`
says so for the databases that can be loaded (`Database.Reloadable`), and `reload_eq_none` that all
others cannot.
-/

namespace Luminix

open CLib KeyedList PartialFold

/-! ### Values -/

/-- The value is written as a number or a word: if it is a floating-point value, it is finite and
its text fits in the buffer. -/
def Field.Printable (f : Field) : Prop :=
  (f.type = .float → binary32.isFinite f.value.floatBits = true ∧
    (floatText f).length < numberBufferSize) ∧
  (f.type = .double → binary64.isFinite f.value.doubleBits = true ∧
    (floatText f).length < numberBufferSize)

instance (f : Field) : Decidable f.Printable := inferInstanceAs (Decidable (_ ∧ _))

theorem floatTokens_eq_singleton_iff {F : IeeeFormat} {bits : Nat} {text : List UInt8} :
    (∃ s, floatTokens F bits text = [.number s]) ↔
      F.isFinite bits = true ∧ text.length < numberBufferSize := by
  unfold floatTokens
  split_ifs <;> simp_all

theorem valueToken_ne_none_iff (p : Platform) (f : Field) : valueToken p f ≠ none ↔ f.Printable := by
  -- only floating-point values can fail: they may be infinite, no number or too long
  have hfloat : ∀ {F : IeeeFormat} {bits : Nat} {text : List UInt8},
      valueTokens p f = floatTokens F bits text →
      (valueToken p f ≠ none ↔ F.isFinite bits = true ∧ text.length < numberBufferSize) := by
    intro F bits text h
    rw [← floatTokens_eq_singleton_iff, ← h]
    rcases valueTokens_cases p f with ⟨t, htoks, ht, hne⟩ | ⟨htoks, hnone⟩ | ⟨s, htoks, hnone⟩
    · rw [ht, htoks]
      refine ⟨fun _ => ?_, fun _ => by simp⟩
      have hnumber : ∃ s, t = .number s := by
        rw [htoks] at h
        unfold floatTokens at h
        split_ifs at h
        · exact ⟨_, List.singleton_inj.mp h⟩
        · exact absurd (congrArg List.length h) (by simp)
        · exact absurd (congrArg List.length h) (by simp)
        · exact absurd (List.singleton_inj.mp h) hne
      obtain ⟨s, rfl⟩ := hnumber
      exact ⟨s, rfl⟩
    · rw [hnone, htoks]
      simp
    · rw [hnone, htoks]
      simp
  unfold Field.Printable
  cases hf : f.type
  case float =>
    rw [hfloat (by rw [valueTokens, hf])]
    exact ⟨fun h => ⟨fun _ => h, by simp⟩, fun h => h.1 rfl⟩
  case double =>
    rw [hfloat (by rw [valueTokens, hf])]
    exact ⟨fun h => ⟨by simp, fun _ => h⟩, fun h => h.2 rfl⟩
  all_goals
    refine ⟨fun _ => ⟨by simp, by simp⟩, fun _ => ?_⟩
    unfold valueToken valueTokens
    rw [hf]
    simp

/-- The token of a readable field. -/
def readToken (p : Platform) (x : Column × Field) : JsonToken := (fieldToken p x).getD .null

/-- The values of a record after all its fields have been read. -/
def loadedValues (p : Platform) (columns saved : List Column) (r : Record) : List Field :=
  (fieldPairs saved r.fields).foldl
    (fun values x => loadedField p columns values x.1.name (readToken p x)) (initialValues columns)

/-- The column name can stand between quotes as it is, and the value is printable. -/
def Readable (x : Column × Field) : Prop := quotable false x.1.name.bytes = true ∧ x.2.Printable

instance (x : Column × Field) : Decidable (Readable x) := inferInstanceAs (Decidable (_ ∧ _))

theorem fieldToken_ne_none_iff (p : Platform) (x : Column × Field) :
    fieldToken p x ≠ none ↔ Readable x := by
  unfold fieldToken Readable
  split_ifs with hkey
  · rw [valueToken_ne_none_iff]
    exact ⟨fun h => ⟨hkey, h⟩, fun h => h.2⟩
  · exact ⟨fun h => absurd rfl h, fun h => absurd h.1 hkey⟩

/-- Every field of the record is readable. -/
def Record.Readable (saved : List Column) (r : Record) : Prop :=
  ∀ x ∈ fieldPairs saved r.fields, Luminix.Readable x

instance (saved : List Column) (r : Record) : Decidable (r.Readable saved) :=
  inferInstanceAs (Decidable (∀ x ∈ fieldPairs saved r.fields, Luminix.Readable x))

theorem loadedFields_eq_foldl {p : Platform} {columns : List Column} {pairs : List (Column × Field)}
    (h : ∀ x ∈ pairs, Readable x) (values : List Field) :
    loadedFields p columns pairs values = some (pairs.foldl
      (fun values x => loadedField p columns values x.1.name (readToken p x)) values) := by
  refine foldlM_eq_foldl (P := fun (l : List (Column × Field)) (_ : List Field) =>
    ∀ x ∈ l, Readable x) (fun x l values hl => ?_) h
  obtain ⟨t, ht⟩ := Option.ne_none_iff_exists'.mp
    ((fieldToken_ne_none_iff p x).mpr (hl x List.mem_cons_self))
  refine ⟨?_, fun y hy => hl y (List.mem_cons_of_mem x hy)⟩
  rw [readToken, ht]
  rfl

theorem loadedFields_eq {p : Platform} {columns saved : List Column} {r : Record}
    (h : r.Readable saved) : loadedFields p columns (fieldPairs saved r.fields)
      (initialValues columns) = some (loadedValues p columns saved r) := loadedFields_eq_foldl h _

theorem loadedFields_eq_none {p : Platform} {columns saved : List Column} {r : Record}
    (h : ¬r.Readable saved) (values : List Field) :
    loadedFields p columns (fieldPairs saved r.fields) values = none := by
  obtain ⟨x, hx, hread⟩ : ∃ x ∈ fieldPairs saved r.fields, ¬Readable x := by
    simpa [Record.Readable] using h
  refine foldlM_eq_none hx (fun values => ?_) values
  have hnone : fieldToken p x = none := by
    by_contra hne
    exact hread ((fieldToken_ne_none_iff p x).mp hne)
  rw [hnone]
  rfl

theorem length_loadedValues (p : Platform) (columns saved : List Column) (r : Record) :
    (loadedValues p columns saved r).length = columns.length := by
  refine foldl_invariant (P := fun values : List Field => values.length = columns.length)
    (fun values x h => ?_) _ ?_
  · rw [length_loadedField, h]
  · exact List.length_map _

/-! ### Columns with default constraints -/

/-- The names and types a table is loaded with. -/
def loadedNamed (t : Table) : List (CString × FieldType) :=
  t.columns.map fun c => (escaped c.name, stringToFieldType (escaped (fieldTypeToString c.type)))

theorem namedFields_loadedColumns (t : Table) : namedFields (loadedColumns t) = some (loadedNamed t) := by
  unfold loadedColumns loadedNamed
  induction t.columns with
  | nil => rfl
  | cons c cs ih =>
    rw [List.map_cons, namedFields, ih]
    rfl

theorem nullable_newColumns {named : List (CString × FieldType)} {i : Nat} :
    ∀ c ∈ newColumns i named, c.constraint.nullable = true := by
  induction named generalizing i with
  | nil => exact fun c hc => absurd hc List.not_mem_nil
  | cons x named ih =>
    intro c hc
    rcases List.mem_cons.mp hc with rfl | hc
    · rfl
    · exact ih c hc

theorem nullViolation_of_nullable {cs : List Column} (h : ∀ c ∈ cs, c.constraint.nullable = true)
    (values : List Field) : nullViolation cs values = false := by
  induction cs generalizing values with
  | nil => rfl
  | cons c cs ih =>
    rw [nullViolation, h c List.mem_cons_self, ih fun d hd => h d (List.mem_cons_of_mem c hd)]
    rfl

/-- The columns are those of a new table. -/
def IsNewColumns (columns : List Column) : Prop :=
  ∃ x named, columns = newColumns 0 (x :: named)

/-- The record id is written into the first value. -/
theorem setKeyField_eq {columns : List Column} (h : IsNewColumns columns) (id : Int)
    {values : List Field} (hlen : values.length = columns.length) :
    ∃ f fs, values = f :: fs ∧ setKeyField id columns values =
      { f with value := f.value.setInt id, type := .int } :: fs := by
  obtain ⟨x, named, rfl⟩ := h
  cases values with
  | nil =>
    rw [length_newColumns] at hlen
    cases hlen
  | cons f fs => exact ⟨f, fs, rfl, rfl⟩

/-- So the insert takes the record id for the key, and has no use for the counter. -/
theorem chooseRecordId_setKeyField {t : Table} (h : IsNewColumns t.columns) {id : Int}
    (hint : IsInt id) (hne : id ≠ -1) {values : List Field}
    (hlen : values.length = t.columns.length) (counter : Int) :
    chooseRecordId t counter (setKeyField id t.columns values) = (id, counter) := by
  obtain ⟨f, fs, -, hkey⟩ := setKeyField_eq h id hlen
  have hexplicit : explicitKey t.columns (setKeyField id t.columns values) = id := by
    obtain ⟨x, named, hx⟩ := h
    rw [hkey, hx, newColumns, explicitKey, if_pos, List.headD_cons]
    · exact FieldValue.intValue_setInt _ hint
    · rfl
  rw [chooseRecordId, hexplicit, if_neg hne]

/-! ### Records -/

/-- **No record that is read moves the counter**, whether it is inserted or refused. -/
theorem globalCounter_insertInto {s : Store} {i : Nat} {t : Table} (ht : s.db.tables[i]? = some t)
    (hcols : IsNewColumns t.columns) {id : Int} (hint : IsInt id) (hne : id ≠ -1)
    {values : List Field} (hlen : values.length = t.columns.length) (now : Int) :
    (s.insertInto i now (some (setKeyField id t.columns values))).2.globalCounter =
      s.globalCounter := by
  rw [insertInto_eq ht, tableInsertRecord, chooseRecordId_setKeyField hcols hint hne hlen]
  dsimp only
  split
  · split_ifs <;> rfl
  · rfl

/-- The record that a saved one is loaded as. -/
def loadedRecord (p : Platform) (t : Table) (saved : List Column) (r : Record) : Record :=
  newRecord t (atoi (decimal r.id)) p.now
    (setKeyField (atoi (decimal r.id)) t.columns (loadedValues p t.columns saved r))

/-- Entering a saved record into a table: one without an id or with a taken id is dropped. -/
def enterRecord (p : Platform) (saved : List Column) (t : Table) (r : Record) : Table :=
  if atoi (decimal r.id) = -1 ∨ lookup Record.id t.records (atoi (decimal r.id)) ≠ none then t
  else linkRecord t (atoi (decimal r.id)) p.now
    (setKeyField (atoi (decimal r.id)) t.columns (loadedValues p t.columns saved r))

@[simp] theorem columns_enterRecord (p : Platform) (saved : List Column) (t : Table) (r : Record) :
    (enterRecord p saved t r).columns = t.columns := by
  unfold enterRecord
  split_ifs <;> rfl

@[simp] theorem name_enterRecord (p : Platform) (saved : List Column) (t : Table) (r : Record) :
    (enterRecord p saved t r).name = t.name := by
  unfold enterRecord
  split_ifs <;> rfl

theorem recordCount_enterRecord_le (p : Platform) (saved : List Column) (t : Table) (r : Record) :
    (enterRecord p saved t r).recordCount ≤ t.recordCount + 1 := by
  unfold enterRecord
  split_ifs
  · omega
  · exact Int.le_refl _

theorem setTable_self {db : Database} {i : Nat} {t : Table} (h : db.tables[i]? = some t) :
    db.setTable i t = db := by
  obtain ⟨hlt, rfl⟩ := List.getElem?_eq_some_iff.mp h
  have hset : db.tables.set i db.tables[i] = db.tables := List.set_getElem_self hlt
  unfold Database.setTable
  congr

/-- **Loading one record** enters it, as long as there is room. -/
theorem loadRecord_eq {p : Platform} {i : Nat} {saved : List Column} {s : Store} {t : Table}
    {r : Record} (ht : s.db.tables[i]? = some t) (hcols : IsNewColumns t.columns)
    (hroom : t.recordCount < maxRecordsPerTable) (hread : r.Readable saved) :
    loadRecord p i t.columns saved s r =
      some { s with db := s.db.setTable i (enterRecord p saved t r) } := by
  obtain ⟨f, fs, hvalues, hkey⟩ := setKeyField_eq hcols (atoi (decimal r.id))
    (length_loadedValues p t.columns saved r)
  have hid : IsInt (atoi (decimal r.id)) := isInt_intWrap _
  -- new columns take nulls, and the first of them holds the key
  have hnull : ∀ vs, nullViolation t.columns vs = false := by
    obtain ⟨x, named, hx⟩ := hcols
    rw [hx]
    exact nullViolation_of_nullable nullable_newColumns
  have hcheck : insertCheck t (setKeyField (atoi (decimal r.id)) t.columns
      (loadedValues p t.columns saved r)) = .success := by
    refine insertCheck_eq_success_iff.mpr ⟨hroom, ?_, hnull _⟩
    rw [hkey]
    simp
  rw [loadRecord, loadedFields_eq hread, Option.bind_some, insertDraft, enterRecord]
  dsimp only
  -- the id -1 stands for a record without an id
  by_cases hnone : atoi (decimal r.id) = -1
  · rw [if_pos hnone, if_pos (.inl hnone), setTable_self ht]
    rfl
  · have hchoose : ∀ counter, chooseRecordId t counter (setKeyField (atoi (decimal r.id)) t.columns
        (loadedValues p t.columns saved r)) = (atoi (decimal r.id), counter) :=
      chooseRecordId_setKeyField hcols hid hnone (length_loadedValues p t.columns saved r)
    rw [if_neg hnone, insertInto_eq ht]
    -- a record with an id that is taken is dropped, without an error
    by_cases htaken : lookup Record.id t.records (atoi (decimal r.id)) = none
    · rw [if_neg (by simp [hnone, htaken]), tableInsertRecord_of_accepted hcheck (by
        rw [hchoose]
        exact htaken)]
      dsimp only
      rw [hchoose]
      rfl
    · have hrefused : tableInsertRecord t s.globalCounter p.now
          (some (setKeyField (atoi (decimal r.id)) t.columns (loadedValues p t.columns saved r))) =
            (.error .duplicateKey, t, s.globalCounter) := by
        rw [tableInsertRecord, hcheck]
        dsimp only
        rw [hchoose, tableFindRecord_eq, if_pos (Option.isSome_iff_ne_none.mpr htaken)]
      rw [if_pos (.inr htaken), hrefused]
      rfl

theorem loadRecord_eq_none {p : Platform} {i : Nat} {columns saved : List Column} {r : Record}
    (h : ¬r.Readable saved) (s : Store) : loadRecord p i columns saved s r = none := by
  rw [loadRecord, loadedFields_eq_none h]
  rfl

/-- The records of a saved table, entered one by one. -/
def enterRecords (p : Platform) (saved : List Column) (t : Table) (rs : List Record) : Table :=
  rs.foldl (enterRecord p saved) t

@[simp] theorem columns_enterRecords (p : Platform) (saved : List Column) (t : Table)
    (rs : List Record) : (enterRecords p saved t rs).columns = t.columns :=
  foldl_invariant (P := fun t' : Table => t'.columns = t.columns)
    (fun t' r h => (columns_enterRecord p saved t' r).trans h) rs rfl

@[simp] theorem name_enterRecords (p : Platform) (saved : List Column) (t : Table)
    (rs : List Record) : (enterRecords p saved t rs).name = t.name :=
  foldl_invariant (P := fun t' : Table => t'.name = t.name)
    (fun t' r h => (name_enterRecord p saved t' r).trans h) rs rfl

theorem setTable_setTable (db : Database) (i : Nat) (t t' : Table) :
    (db.setTable i t).setTable i t' = db.setTable i t' := by
  unfold Database.setTable
  congr 1
  exact List.set_set _

/-- **Loading the records of a table** enters them, as long as there is room for all. -/
theorem loadRecords_eq {p : Platform} {i : Nat} {saved : List Column} {s : Store} {t : Table}
    {rs : List Record} (ht : s.db.tables[i]? = some t) (hcols : IsNewColumns t.columns)
    (hroom : t.recordCount + rs.length ≤ maxRecordsPerTable)
    (hread : ∀ r ∈ rs, r.Readable saved) :
    rs.foldlM (loadRecord p i t.columns saved) s =
      some { s with db := s.db.setTable i (enterRecords p saved t rs) } := by
  induction rs generalizing s t with
  | nil =>
    show some s = some { s with db := s.db.setTable i t }
    rw [setTable_self ht]
  | cons r rs ih =>
    rw [List.length_cons] at hroom
    have hone := loadRecord_eq ht hcols (by omega) (hread r List.mem_cons_self) (p := p)
    have hle := recordCount_enterRecord_le p saved t r
    have hlt : i < s.db.tables.length := (List.getElem?_eq_some_iff.mp ht).1
    -- the next record is entered into the table with this one in it
    have hfound : (s.db.setTable i (enterRecord p saved t r)).tables[i]? =
        some (enterRecord p saved t r) := by
      rw [setTable_tables, List.getElem?_set_self hlt]
    have hrest := ih (s := { s with db := s.db.setTable i (enterRecord p saved t r) }) hfound
      (by rwa [columns_enterRecord]) (by omega) fun x hx => hread x (List.mem_cons_of_mem r hx)
    rw [columns_enterRecord, setTable_setTable] at hrest
    rw [List.foldlM_cons, hone]
    exact hrest

/-! ### Tables -/

theorem loadedNamed_pos (t : Table) : 0 < (loadedNamed t).length := by
  rw [loadedNamed, List.length_map]
  exact t.columns_pos

theorem loadedNamed_le (t : Table) : (loadedNamed t).length ≤ maxFieldsPerTable := by
  rw [loadedNamed, List.length_map]
  exact t.columns_le

/-- The table that a saved one is loaded into. -/
def freshTable (t : Table) : Table :=
  newTable (loadedName t) (loadedNamed t) (loadedNamed_pos t) (loadedNamed_le t)

/-- **The table that a saved one is loaded as.** -/
def loadedTable (p : Platform) (t : Table) : Table :=
  enterRecords p t.columns (freshTable t) t.records

theorem name_freshTable (t : Table) : (freshTable t).name = loadedName t :=
  CString.truncate_eq_self (CString.length_truncate_le _ _)

theorem isNewColumns_freshTable (t : Table) : IsNewColumns (freshTable t).columns := by
  obtain ⟨x, named, h⟩ := List.exists_cons_of_ne_nil (List.ne_nil_of_length_pos (loadedNamed_pos t))
  exact ⟨x, named, congrArg (newColumns 0) h⟩

@[simp] theorem name_loadedTable (p : Platform) (t : Table) : (loadedTable p t).name = loadedName t := by
  rw [loadedTable, name_enterRecords, name_freshTable]

@[simp] theorem columns_loadedTable (p : Platform) (t : Table) :
    (loadedTable p t).columns = newColumns 0 (loadedNamed t) := by
  rw [loadedTable, columns_enterRecords]
  rfl

/-- A table with a name is loaded under one. -/
theorem length_loadedName_pos_iff (t : Table) : 0 < (loadedName t).length ↔ 0 < t.name.length := by
  have hne : ∀ c : UInt8, 0 < (escapeByte c).length := by
    intro c
    unfold escapeByte
    split
    case h_8 => split_ifs <;> exact Nat.succ_pos _
    all_goals exact Nat.succ_pos _
  show 0 < ((t.name.bytes.flatMap escapeByte).take (maxTableName - 1)).length ↔ 0 < t.name.bytes.length
  have hmax : 0 < maxTableName - 1 := by decide
  cases t.name.bytes with
  | nil => exact Iff.rfl
  | cons c l =>
    have hc := hne c
    rw [List.flatMap_cons, List.length_take, List.length_append, List.length_cons]
    omega

/-- The table can be added and its records read. -/
structure Table.ReadyFor (t : Table) (db : Database) : Prop where
  named : 0 < t.name.length
  fresh : ∀ t' ∈ db.tables, t'.name ≠ loadedName t
  readable : ∀ r ∈ t.records, r.Readable t.columns

/-- **Loading one table** adds it. -/
theorem loadTable_eq {p : Platform} {s : Store} {t : Table} (h : t.ReadyFor s.db)
    (hcount : s.db.tableCount < maxTables) (hroom : (t.records.length : Int) ≤ maxRecordsPerTable) :
    ∃ s', loadTable p s t = some s' ∧ s'.db.tables = s.db.tables ++ [loadedTable p t] ∧
      s'.globalCounter = s.globalCounter := by
  have hlen : 0 < (loadedColumns t).length ∧ (loadedColumns t).length ≤ maxFieldsPerTable := by
    rw [loadedColumns, List.length_map]
    exact ⟨t.columns_pos, t.columns_le⟩
  have hfresh : (s.db.tables.any fun t' => t'.name = loadedName t) = false := by
    simpa using h.fresh
  have hsuccess : (dbAddTable s.db (some (loadedName t)) (some (loadedColumns t))).1 = .success := by
    rw [dbAddTable, dif_pos hlen, hfresh, if_neg Bool.false_ne_true, dif_pos hcount]
    split
    next hnone =>
      rw [namedFields_loadedColumns] at hnone
      cases hnone
    · rfl
  have hadded : (dbAddTable s.db (some (loadedName t)) (some (loadedColumns t))).2.tables =
      s.db.tables ++ [freshTable t] := by
    rcases dbAddTable_cases s.db (some (loadedName t)) (some (loadedColumns t)) with
      ⟨hfail, -⟩ | ⟨n, l, named, hpos, hle, hn, hl, hnamed, -, -, htables⟩
    · exact absurd hsuccess hfail
    · obtain rfl := Option.some.inj hn
      obtain rfl := Option.some.inj hl
      rw [namedFields_loadedColumns] at hnamed
      obtain rfl := Option.some.inj hnamed
      exact htables
  rw [loadTable, loadSchema, if_pos ((length_loadedName_pos_iff t).mpr h.named)]
  generalize dbAddTable s.db (some (loadedName t)) (some (loadedColumns t)) = r at hsuccess hadded
  obtain ⟨code, db⟩ := r
  obtain rfl : code = .success := hsuccess
  dsimp only at hadded ⊢
  -- The new table is the last one.
  have hlast : db.tableCount - 1 = s.db.tables.length := by
    rw [Database.tableCount, hadded, List.length_append]
    rfl
  have hfound : db.tables[s.db.tables.length]? = some (freshTable t) := by
    rw [hadded, List.getElem?_append_right (Nat.le_refl _), Nat.sub_self]
    rfl
  have hroom' : (freshTable t).recordCount + t.records.length ≤ maxRecordsPerTable := by
    show 0 + (t.records.length : Int) ≤ maxRecordsPerTable
    omega
  have hrecords := loadRecords_eq (p := p) (s := { s with db }) hfound (isNewColumns_freshTable t)
    hroom' h.readable
  rw [Option.bind_some, hlast, hfound, Option.bind_some, hrecords]
  refine ⟨_, rfl, ?_, rfl⟩
  show db.tables.set s.db.tables.length (loadedTable p t) = _
  rw [hadded, List.set_append_right _ _ (Nat.le_refl _), Nat.sub_self]
  rfl

/-- A table that is not ready ends the load. -/
theorem loadTable_eq_none {p : Platform} {s : Store} {t : Table} (h : ¬t.ReadyFor s.db) :
    loadTable p s t = none := by
  -- the three ways of not being ready, in the order in which the loader meets them
  by_cases hnamed : 0 < t.name.length
  · by_cases hfresh : ∀ t' ∈ s.db.tables, t'.name ≠ loadedName t
    · obtain ⟨r, hr, hread⟩ : ∃ r ∈ t.records, ¬r.Readable t.columns := by
        by_contra hall
        exact h ⟨hnamed, hfresh, fun r hr => by_contra fun hp => hall ⟨r, hr, hp⟩⟩
      rw [loadTable]
      cases loadSchema s.db t with
      | none => rfl
      | some db =>
        rw [Option.bind_some]
        cases db.tables[db.tableCount - 1]? with
        | none => rfl
        | some t' => exact foldlM_eq_none hr (loadRecord_eq_none hread) _
    · have hdup : (s.db.tables.any fun t' => t'.name = loadedName t) = true := by
        simpa using hfresh
      have hlen : 0 < (loadedColumns t).length ∧ (loadedColumns t).length ≤ maxFieldsPerTable := by
        rw [loadedColumns, List.length_map]
        exact ⟨t.columns_pos, t.columns_le⟩
      have hrefused : dbAddTable s.db (some (loadedName t)) (some (loadedColumns t)) =
          (.duplicateKey, s.db) := by
        rw [dbAddTable, dif_pos hlen, hdup, if_pos rfl]
      rw [loadTable, loadSchema, if_pos ((length_loadedName_pos_iff t).mpr hnamed), hrefused]
      rfl
  · rw [loadTable, loadSchema, if_neg fun h => hnamed ((length_loadedName_pos_iff t).mp h)]
    rfl

/-! ### Databases -/

/-- **What makes a saved database loadable**: the names of its tables are not empty and differ also
when they are escaped and cut, and its fields are readable. -/
structure Database.Reloadable (db : Database) : Prop where
  named : ∀ t ∈ db.tables, 0 < t.name.length
  distinct : (db.tables.map loadedName).Nodup
  readable : ∀ t ∈ db.tables, ∀ r ∈ t.records, r.Readable t.columns

instance (db : Database) : Decidable db.Reloadable :=
  decidable_of_iff ((∀ t ∈ db.tables, 0 < t.name.length) ∧ (db.tables.map loadedName).Nodup ∧
    ∀ t ∈ db.tables, ∀ r ∈ t.records, r.Readable t.columns)
    ⟨fun h => ⟨h.1, h.2.1, h.2.2⟩, fun h => ⟨h.named, h.distinct, h.readable⟩⟩

/-- The tables that are left to load, one after another: they are all added, or the load ends. -/
theorem loadTables_cases (p : Platform) {ts : List Table} {s : Store}
    (hcount : s.db.tables.length + ts.length ≤ maxTables)
    (hroom : ∀ t ∈ ts, (t.records.length : Int) ≤ maxRecordsPerTable)
    (hnd : (s.db.tables.map Table.name).Nodup) :
    ((∀ t ∈ ts, 0 < t.name.length ∧ ∀ r ∈ t.records, r.Readable t.columns) ∧
      (s.db.tables.map Table.name ++ ts.map loadedName).Nodup ∧
      ∃ s', ts.foldlM (loadTable p) s = some s' ∧
        s'.db.tables = s.db.tables ++ ts.map (loadedTable p) ∧ s'.globalCounter = s.globalCounter) ∨
    (¬((∀ t ∈ ts, 0 < t.name.length ∧ ∀ r ∈ t.records, r.Readable t.columns) ∧
      (s.db.tables.map Table.name ++ ts.map loadedName).Nodup) ∧
      ts.foldlM (loadTable p) s = none) := by
  induction ts generalizing s with
  | nil =>
    left
    refine ⟨fun t ht => absurd ht List.not_mem_nil, ?_, s, rfl, ?_, rfl⟩
    · rwa [List.map_nil, List.append_nil]
    · rw [List.map_nil, List.append_nil]
  | cons t ts ih =>
    rw [List.length_cons] at hcount
    -- the first table is read, or the load ends with it
    by_cases hready : t.ReadyFor s.db
    · obtain ⟨s1, hload, htables, hcounter⟩ := loadTable_eq (p := p) hready
        (by rw [Database.tableCount]; omega) (hroom t List.mem_cons_self)
      have hnames : s1.db.tables.map Table.name = s.db.tables.map Table.name ++ [loadedName t] := by
        rw [htables, List.map_append, List.map_singleton, name_loadedTable]
      have hnd1 : (s1.db.tables.map Table.name).Nodup := by
        rw [hnames, List.nodup_append]
        refine ⟨hnd, List.nodup_singleton _, fun a ha b hb => ?_⟩
        obtain ⟨t', ht', rfl⟩ := List.mem_map.mp ha
        rw [List.mem_singleton.mp hb]
        exact hready.fresh t' ht'
      have hcount1 : s1.db.tables.length + ts.length ≤ maxTables := by
        rw [htables, List.length_append, List.length_singleton]
        omega
      have hall : (s1.db.tables.map Table.name ++ ts.map loadedName) =
          s.db.tables.map Table.name ++ (t :: ts).map loadedName := by
        rw [hnames, List.append_assoc]
        rfl
      have hrun : (t :: ts).foldlM (loadTable p) s = ts.foldlM (loadTable p) s1 := by
        rw [List.foldlM_cons, hload]
        rfl
      rw [hrun, ← hall, List.forall_mem_cons]
      rcases ih hcount1 (fun t' ht' => hroom t' (List.mem_cons_of_mem t ht')) hnd1 with
        ⟨hts, hnodup, s', hs', htables', hcounter'⟩ | ⟨hnot, hnone⟩
      · refine .inl ⟨⟨⟨hready.named, hready.readable⟩, hts⟩, hnodup, s', hs', ?_, ?_⟩
        · rw [htables', htables, List.append_assoc]
          rfl
        · rw [hcounter', hcounter]
      · exact .inr ⟨fun h => hnot ⟨h.1.2, h.2⟩, hnone⟩
    · right
      refine ⟨fun ⟨hts, hnodup⟩ => hready ?_, ?_⟩
      · obtain ⟨hnamed, hread⟩ := hts t List.mem_cons_self
        refine ⟨hnamed, fun t' ht' heq => ?_, hread⟩
        rw [List.nodup_append] at hnodup
        exact hnodup.2.2 _ (List.mem_map_of_mem ht') (loadedName t) List.mem_cons_self heq
      · rw [List.foldlM_cons, loadTable_eq_none hready]
        rfl

section

variable {p : Platform} {counter : Int} {db : Database}
  (hroom : ∀ t ∈ db.tables, (t.records.length : Int) ≤ maxRecordsPerTable)

include hroom

/-- **A loadable database comes back table by table.** -/
theorem reload_eq (h : db.Reloadable) : ∃ s, reload p counter db = some s ∧
    s.db.tables = db.tables.map (loadedTable p) ∧ s.globalCounter = counter := by
  have hcount : dbCreate.tables.length + db.tables.length ≤ maxTables := by
    rw [show dbCreate.tables.length = 0 from rfl, Nat.zero_add]
    exact db.tables_le
  rcases loadTables_cases p (s := ⟨dbCreate, counter⟩) hcount hroom List.nodup_nil with
    ⟨-, -, s, hs, htables, hcounter⟩ | ⟨hnot, -⟩
  · exact ⟨s, hs, htables, hcounter⟩
  · exact absurd ⟨fun t ht => ⟨h.named t ht, h.readable t ht⟩, h.distinct⟩ hnot

/-- Every other database is not loaded. -/
theorem reload_eq_none (h : ¬db.Reloadable) : reload p counter db = none := by
  have hcount : dbCreate.tables.length + db.tables.length ≤ maxTables := by
    rw [show dbCreate.tables.length = 0 from rfl, Nat.zero_add]
    exact db.tables_le
  rcases loadTables_cases p (s := ⟨dbCreate, counter⟩) hcount hroom List.nodup_nil with
    ⟨hts, hnodup, -⟩ | ⟨-, hnone⟩
  · exact absurd ⟨fun t ht => (hts t ht).1, hnodup, fun t ht => (hts t ht).2⟩ h
  · exact hnone

end

end Luminix
