import Luminix.Equiv.Database
import Luminix.Equiv.Invariant

/-!
# The table calls of a call

A call of the database interface changes one table, adds one, or leaves them all as they are.
`Store.Makes` says which table a call is going to change and by which table calls: a batch inserts
its rows up to the first that is refused, every other call makes one table call.
`Store.step_of_makes` and `Store.step_of_not_makes` say that this is all that happens to the tables.
-/

namespace Luminix

open CLib KeyedList Machine

/-! ### Finding the table -/

theorem set_found {ts : List Table} {i : Nat} {t : Table} (h : ts[i]? = some t) :
    ts.set i t = ts := by
  obtain ⟨hlt, rfl⟩ := List.getElem?_eq_some_iff.mp h
  exact List.set_getElem_self hlt

/-- Rewriting one table changes what `f` sees of the tables exactly if it changes what `f` sees of
that one. -/
theorem map_set_iff {β : Type} {f : Table → β} {ts : List Table} {i : Nat} {t t' : Table}
    (h : ts[i]? = some t) : (ts.set i t').map f = ts.map f ↔ f t' = f t := by
  obtain ⟨hlt, rfl⟩ := List.getElem?_eq_some_iff.mp h
  constructor
  · intro hmap
    have hi := congrArg (·[i]?) hmap
    simpa [hlt] using hi
  · intro ht
    rw [List.map_set, ht]
    exact List.ext_getElem (by simp) fun j h1 h2 => by
      rw [List.getElem_set]
      split_ifs with hij
      · simp [hij]
      · rfl

/-- `db_get_table` only looks at the names. -/
theorem dbGetTable_eq (db : Database) (name : CString) :
    dbGetTable db name = (db.tables.map Table.name).findIdx? fun n => n = name := by
  rw [List.findIdx?_map]
  rfl

/-- A name that `db_get_table` finds is that of a table. -/
theorem exists_names {s : Store} {name : CString} {i : Nat} (h : dbGetTable s.db name = some i) :
    ∃ t, s.Names (some name) i t := by
  have hlt : i < s.db.tables.length := (List.findIdx?_eq_some_iff_findIdx_eq.mp h).1
  exact ⟨s.db.tables[i], ⟨name, rfl, h⟩, List.getElem?_eq_getElem hlt⟩

/-- A name that no table has is not found. -/
theorem dbGetTable_eq_none {s : Store} {name : CString} (hno : ∀ i t, ¬s.Names (some name) i t) :
    dbGetTable s.db name = none := by
  by_contra hfound
  obtain ⟨i, hi⟩ := Option.ne_none_iff_exists'.mp hfound
  obtain ⟨t, hn⟩ := exists_names hi
  exact hno i t hn

/-! ### The bracket of a local transaction -/

/-- The bracket of a local transaction changes the tables as its body does. -/
theorem withLocalTransaction_tables {P : List Table → Int → Prop} {α : Type} {s : Store} (now : Int)
    (failed : ErrorCode → α) (succeeded : α → Bool) {body : Store → α × Store}
    (hbody : ∀ s' : Store, s'.db.tables = s.db.tables → s'.globalCounter = s.globalCounter →
      P (body s').2.db.tables (body s').2.globalCounter) :
    P (withLocalTransaction s now failed succeeded body).2.db.tables
      (withLocalTransaction s now failed succeeded body).2.globalCounter := by
  unfold withLocalTransaction
  cases ha : s.db.transactionActive with
  | true => exact hbody s rfl rfl
  | false =>
    rw [if_neg Bool.false_ne_true, dbBeginTransaction_of_inactive ha now]
    dsimp only
    split
    · rw [dbCommitTransaction_tables]
      exact hbody _ rfl rfl
    · rw [dbRollbackTransaction_tables]
      exact hbody _ rfl rfl

/-- A single-record operation inside its bracket is one table call. -/
theorem bracket_tables {α : Type} {s : Store} {tableName : Option CString} {i : Nat} {t : Table}
    (hn : s.Names tableName i t) {c : TableCall} (now : Int) (failed : ErrorCode → α)
    (succeeded : α → Bool) {body : Store → α × Store}
    (hbody : ∀ s' : Store, s'.db.tables[i]? = some t → s'.globalCounter = s.globalCounter →
      (body s').2.db.tables = s'.db.tables.set i (t.step c)) :
    (withLocalTransaction s now failed succeeded body).2.db.tables =
      s.db.tables.set i (t.step c) := by
  refine withLocalTransaction_tables (P := fun ts _ => ts = s.db.tables.set i (t.step c)) now failed
    succeeded fun s' hs hc => ?_
  rw [hbody s' (hs ▸ hn.found) hc, hs]

/-! ### Batches -/

/-- The insertions a batch makes: its rows in turn, up to the first that is refused. -/
def insertCalls (now : Int) : Table → Int → List (Option (List Field)) → List TableCall
  | _, _, [] => []
  | t, counter, row :: rows =>
    let r := tableInsertRecord t counter now row
    .insert counter now row :: if r.1.isOk then insertCalls now r.2.1 r.2.2 rows else []

/-- The insertion loop of a batch is the run of its insertions. -/
theorem tables_insertRows {s : Store} {i : Nat} {t : Table} (h : s.db.tables[i]? = some t)
    (now : Int) (rows : List (Option (List Field))) :
    (insertRows i now s rows).2.db.tables =
      s.db.tables.set i (run Table.step t (insertCalls now t s.globalCounter rows)) := by
  induction rows generalizing s t with
  | nil => exact (set_found h).symm
  | cons row rows ih =>
    have hlt : i < s.db.tables.length := (List.getElem?_eq_some_iff.mp h).1
    rw [insertRows, insertCalls, insertInto_eq h]
    rcases hrow : tableInsertRecord t s.globalCounter now row with ⟨e | id, t', counter⟩
    · -- the loop stops here
      show s.db.tables.set i t' = s.db.tables.set i (t.step (.insert s.globalCounter now row))
      rw [Table.step, hrow]
    · have htail := ih (s := { db := s.db.setTable i t', globalCounter := counter })
        (List.getElem?_set_self hlt)
      rw [setTable_tables, List.set_set] at htail
      have hrest : (insertRows i now s (row :: rows)).2.db.tables =
          (insertRows i now { db := s.db.setTable i t', globalCounter := counter } rows).2.db.tables := by
        rw [insertRows, insertInto_eq h, hrow]
        dsimp only
        rcases insertRows i now { db := s.db.setTable i t', globalCounter := counter } rows with
          ⟨e | ids, s'⟩ <;> rfl
      rw [insertRows, insertInto_eq h, hrow] at hrest
      rw [hrest, htail]
      show _ = s.db.tables.set i (run Table.step (t.step (.insert s.globalCounter now row))
        (insertCalls now t' counter rows))
      rw [Table.step, hrow]

/-! ### New tables -/

theorem newTable_fresh (name : CString) (fields : List (CString × FieldType)) (hpos hle) :
    (newTable name fields hpos hle).Fresh := ⟨rfl, rfl, rfl, rfl⟩

/-- **The results of `db_add_table`**: refused, with at most a larger array, or one fresh table more
under a name that no table had. -/
theorem dbAddTable_cases (db : Database) (name : Option CString)
    (fields : Option (List (Option CString × FieldType))) :
    ((dbAddTable db name fields).1 ≠ .success ∧ (dbAddTable db name fields).2.tables = db.tables) ∨
    ∃ n l named hpos hle, name = some n ∧ fields = some l ∧ namedFields l = some named ∧
      (∀ t ∈ db.tables, t.name ≠ n) ∧ (dbAddTable db name fields).1 = .success ∧
      (dbAddTable db name fields).2.tables = db.tables ++ [newTable n named hpos hle] := by
  unfold dbAddTable
  split
  next n l =>
    split
    next h =>
      split
      · exact .inl ⟨by simp, rfl⟩
      next hdup =>
        split
        next hfull =>
          dsimp only
          split
          next => exact .inl ⟨by simp, rfl⟩
          next named hn =>
            have hlen := length_namedFields hn
            refine .inr ⟨n, l, named, hlen ▸ h.1, hlen ▸ h.2, rfl, rfl, hn, fun t ht => ?_, rfl, rfl⟩
            simpa using fun heq => hdup (List.any_eq_true.mpr ⟨t, ht, by simpa using heq⟩)
        · exact .inl ⟨by simp, rfl⟩
    · exact .inl ⟨by simp, rfl⟩
  next => exact .inl ⟨by simp, rfl⟩

/-- The last steps of `create_table_interactive` add a fresh table too. -/
theorem createTableInteractive_tables (db : Database) (name : CString)
    (fields : List (CString × FieldType)) (ks : List Constraint) :
    (createTableInteractive db name fields ks).2.tables = db.tables ∨
      ∃ t, t.Fresh ∧ t.indexes = [] ∧
        (createTableInteractive db name fields ks).2.tables = db.tables ++ [t] := by
  have hadd := dbAddTable_cases db (some name) (some (fields.map fun f => (some f.1, f.2)))
  unfold createTableInteractive
  cases hres : dbAddTable db (some name) (some (fields.map fun f => (some f.1, f.2))) with
  | mk code db' =>
    rw [hres] at hadd
    rcases hadd with ⟨h, htables⟩ | ⟨n, l, named, hpos, hle, -, -, -, -, h, htables⟩
    · left
      cases code <;> first | exact absurd rfl h | exact htables
    · -- The table was added: it is the last one, and only its constraints are replaced.
      right
      dsimp only at h htables
      subst h
      have hlast : db'.tables[db.tableCount]? = some (newTable n named hpos hle) := by
        rw [htables, Database.tableCount]
        simp
      dsimp only
      rw [hlast]
      refine ⟨(newTable n named hpos hle).withConstraints ks, ⟨rfl, rfl, rfl, rfl⟩, rfl, ?_⟩
      dsimp only
      rw [setTable_tables, htables, Database.tableCount, List.set_append_right _ _ (Nat.le_refl _),
        Nat.sub_self]
      rfl

/-! ### Indexes -/

/-- What `db_create_index` does to the indexes of the table. -/
def Table.createIndex (t : Table) (tableName fieldName : CString) (type : IndexType) :
    ErrorCode × List Index :=
  if columnIndex t.columns fieldName = none then (.notFound, t.indexes)
  else if (findIndexInManager t.indexes tableName fieldName).isSome then (.indexExists, t.indexes)
  else if maxIndexesPerTable ≤ t.indexes.length then (.tableFull, t.indexes)
  else (.success, t.indexes ++ [createSimpleIndex tableName fieldName type])

/-- What `db_drop_index` does to them. -/
def Table.dropIndex (t : Table) (tableName fieldName : CString) : ErrorCode × List Index :=
  if (findIndexInManager t.indexes tableName fieldName).isSome then
    (.success, t.indexes.eraseP fun index =>
      index.tableName = tableName && index.fieldName = fieldName)
  else (.notFound, t.indexes)

/-- No record is entered into an index. -/
theorem populateIndex_eq (j : Nat) (index : Index) (records : List Record) :
    populateIndex j index records = index := by
  unfold populateIndex
  induction records with
  | nil => rfl
  | cons r records ih =>
    rw [List.foldl_cons]
    dsimp only
    rw [indexInsertSimple, ite_self]
    exact ih

theorem dbCreateIndex_of_names {s : Store} {name : CString} {i : Nat} {t : Table}
    (h : s.Names (some name) i t) (field : CString) (type : IndexType) :
    (dbCreateIndex s.db (some name) (some field) type).1 = (t.createIndex name field type).1 ∧
    (dbCreateIndex s.db (some name) (some field) type).2.tables =
      s.db.tables.set i { t with indexes := (t.createIndex name field type).2 } := by
  unfold dbCreateIndex Table.createIndex
  dsimp only
  rw [h.getTable_eq]
  dsimp only
  rw [h.found]
  dsimp only
  have hsame : s.db.tables = s.db.tables.set i t := (set_found h.found).symm
  cases columnIndex t.columns field with
  | none => exact ⟨rfl, hsame⟩
  | some j =>
    dsimp only
    rw [if_neg (Option.some_ne_none j), populateIndex_eq]
    split_ifs
    · exact ⟨rfl, hsame⟩
    · exact ⟨rfl, hsame⟩
    · exact ⟨rfl, rfl⟩

theorem dbDropIndex_of_names {s : Store} {name : CString} {i : Nat} {t : Table}
    (h : s.Names (some name) i t) (field : CString) :
    (dbDropIndex s.db (some name) (some field)).1 = (t.dropIndex name field).1 ∧
    (dbDropIndex s.db (some name) (some field)).2.tables =
      s.db.tables.set i { t with indexes := (t.dropIndex name field).2 } := by
  unfold dbDropIndex Table.dropIndex
  dsimp only
  rw [h.getTable_eq]
  dsimp only
  rw [h.found]
  dsimp only
  have hsame : s.db.tables = s.db.tables.set i t := (set_found h.found).symm
  split_ifs
  · exact ⟨rfl, rfl⟩
  · exact ⟨rfl, hsame⟩

/-! ### The table calls of a call -/

/-- **The table calls of a call**: the call changes table `i`, which is `t`, by the table calls
`cs`. -/
inductive Store.Makes (s : Store) : Call → Nat → Table → List TableCall → Prop
  | insertRecord {now : Int} {tableName : Option CString} {values : Option (List Field)} {i : Nat}
      {t : Table} : s.Names tableName i t →
      s.Makes (.data now (.insertRecord tableName values)) i t [.insert s.globalCounter now values]
  | updateRecord {now id : Int} {tableName : Option CString} {values : Option (List Field)}
      {i : Nat} {t : Table} : s.Names tableName i t →
      s.Makes (.data now (.updateRecord tableName id values)) i t [.update now id values]
  | deleteRecord {now id : Int} {tableName : Option CString} {i : Nat} {t : Table} :
      s.Names tableName i t → s.Makes (.data now (.deleteRecord tableName id)) i t [.delete id]
  | batchInsertRecords {now : Int} {tableName : Option CString}
      {rows : Option (List (Option (List Field)))} {i : Nat} {t : Table}
      {rows' : List (Option (List Field))} : s.BatchStarts tableName rows i t rows' →
      s.Makes (.data now (.batchInsertRecords tableName rows)) i t
        (insertCalls now t s.globalCounter rows')
  | deleteRecordsByField {now : Int} {tableName fieldName : Option CString}
      {value : Option (List UInt8)} {i : Nat} {t : Table} {j : Nat} {value' : List UInt8} :
      s.SweepStarts tableName fieldName value i t j value' →
      s.Makes (.data now (.deleteRecordsByField tableName fieldName value)) i t [.sweep j value']
  | tableInsert {i : Nat} {now : Int} {values : Option (List Field)} {t : Table} :
      s.db.tables[i]? = some t →
      s.Makes (.tableInsert i now values) i t [.insert s.globalCounter now values]
  | tableUpdate {i : Nat} {now id : Int} {values : Option (List Field)} {t : Table} :
      s.db.tables[i]? = some t → s.Makes (.tableUpdate i now id values) i t [.update now id values]
  | tableDelete {i : Nat} {id : Int} {t : Table} : s.db.tables[i]? = some t →
      s.Makes (.tableDelete i id) i t [.delete id]
  | createIndex {tableName fieldName : CString} {type : IndexType} {i : Nat} {t : Table} :
      s.Names (some tableName) i t →
      s.Makes (.createIndex (some tableName) (some fieldName) type) i t
        [.setIndexes (t.createIndex tableName fieldName type).2]
  | dropIndex {tableName fieldName : CString} {i : Nat} {t : Table} :
      s.Names (some tableName) i t →
      s.Makes (.dropIndex (some tableName) (some fieldName)) i t
        [.setIndexes (t.dropIndex tableName fieldName).2]

theorem Store.Makes.found {s : Store} {c : Call} {i : Nat} {t : Table} {cs : List TableCall}
    (h : s.Makes c i t cs) : s.db.tables[i]? = some t := by
  cases h with
  | insertRecord hn | updateRecord hn | deleteRecord hn | createIndex hn | dropIndex hn =>
    exact hn.found
  | batchInsertRecords hst => exact hst.found
  | deleteRecordsByField hst => exact hst.found
  | tableInsert ht | tableUpdate ht | tableDelete ht => exact ht

/-- **A call that makes table calls changes that table by them**, and no other. -/
theorem Store.step_of_makes {s : Store} {c : Call} {i : Nat} {t : Table} {cs : List TableCall}
    (h : s.Makes c i t cs) :
    (s.step c).db.tables = s.db.tables.set i (run Table.step t cs) := by
  cases h with
  | insertRecord hn =>
    rename_i now tableName values
    obtain ⟨name, rfl, hi⟩ := hn.named
    cases values with
    | none => exact (set_found hn.found).symm
    | some vs =>
      rw [Store.step, Store.dataStep, dbInsertRecord, hi, run_cons, run_nil]
      apply bracket_tables hn
      intro s' hs' hc'
      rw [insertInto_eq hs', hc']
      rfl
  | updateRecord hn =>
    rename_i now id tableName values
    obtain ⟨name, rfl, hi⟩ := hn.named
    cases values with
    | none => exact (set_found hn.found).symm
    | some vs =>
      rw [Store.step, Store.dataStep, dbUpdateRecord, hi, run_cons, run_nil]
      apply bracket_tables hn
      intro s' hs' hc'
      rw [Store.updateIn, hs']
      rfl
  | deleteRecord hn =>
    obtain ⟨name, rfl, hi⟩ := hn.named
    rw [Store.step, Store.dataStep, dbDeleteRecord, hi, run_cons, run_nil]
    apply bracket_tables hn
    intro s' hs' hc'
    rw [Store.deleteFrom, hs']
    rfl
  | batchInsertRecords hst =>
    rename_i now tableName rows rs
    rcases dbBatchInsertRecords_cases s now tableName rows with
      ⟨hno, e, heq⟩ | ⟨i', t', rs', db, hst', -, htables, heq⟩
    · exact absurd hst (hno i t rs)
    · obtain ⟨rfl, rfl, rfl⟩ := hst.unique hst'
      have hrows := tables_insertRows (s := { s with db }) (htables ▸ hst.found) now rs
      dsimp only at hrows
      rw [Store.step, Store.dataStep, heq]
      dsimp only
      split_ifs
      · rw [dbCommitTransaction_tables, hrows, htables]
      · rw [dbRollbackTransaction_tables, hrows, htables]
  | deleteRecordsByField hst =>
    rename_i now tableName fieldName value j v
    rcases dbDeleteRecordsByField_cases s now tableName fieldName value with
      ⟨hno, e, heq⟩ | ⟨i', t', j', v', db, hst', -, htables, heq⟩
    · exact absurd hst (hno i t j v)
    · obtain ⟨rfl, rfl, rfl, rfl⟩ := hst.unique hst'
      rw [Store.step, Store.dataStep, heq]
      dsimp only
      split_ifs
      · rw [dbCommitTransaction_tables, setTable_tables, htables]
        rfl
      · rw [dbRollbackTransaction_tables, setTable_tables, htables]
        rfl
  | tableInsert ht =>
    rw [Store.step, insertInto_eq ht]
    rfl
  | tableUpdate ht =>
    rw [Store.step, Store.updateIn, ht]
    rfl
  | tableDelete ht =>
    rw [Store.step, Store.deleteFrom, ht]
    rfl
  | createIndex hn => exact (dbCreateIndex_of_names hn _ _).2
  | dropIndex hn => exact (dbDropIndex_of_names hn _).2

/-- The calls that add a table. -/
def Call.AddsTable : Call → Prop
  | .addTable .. | .createTable .. => True
  | _ => False

/-- **Any other call leaves the tables as they are**, or adds one. -/
theorem Store.step_of_not_makes {s : Store} {c : Call} (h : ∀ i t cs, ¬s.Makes c i t cs) :
    (s.step c).db.tables = s.db.tables ∨ (c.AddsTable ∧
      ∃ t, t.Fresh ∧ t.indexes = [] ∧ (s.step c).db.tables = s.db.tables ++ [t]) := by
  -- without a table of that name or at that place the call is refused
  have hnone : ∀ i : Nat, (∀ t, s.db.tables[i]? ≠ some t) → s.db.tables[i]? = none := fun i hno =>
    Option.eq_none_iff_forall_ne_some.mpr hno
  cases c with
  | data now c =>
    left
    cases c with
    | insertRecord tableName values =>
      rw [Store.step, Store.dataStep]
      unfold dbInsertRecord
      split
      next => rw [dbGetTable_eq_none fun i t hn => h i t _ (.insertRecord hn)]
      next => rfl
    | updateRecord tableName id values =>
      rw [Store.step, Store.dataStep]
      unfold dbUpdateRecord
      split
      next => rw [dbGetTable_eq_none fun i t hn => h i t _ (.updateRecord hn)]
      next => rfl
    | deleteRecord tableName id =>
      rw [Store.step, Store.dataStep]
      unfold dbDeleteRecord
      split
      next => rw [dbGetTable_eq_none fun i t hn => h i t _ (.deleteRecord hn)]
      next => rfl
    | batchInsertRecords tableName rows =>
      rcases dbBatchInsertRecords_cases s now tableName rows with
        ⟨-, e, heq⟩ | ⟨i, t, rs, -, hst, -⟩
      · rw [Store.step, Store.dataStep, heq]
      · exact absurd (.batchInsertRecords hst) (h i t _)
    | deleteRecordsByField tableName fieldName value =>
      rcases dbDeleteRecordsByField_cases s now tableName fieldName value with
        ⟨-, e, heq⟩ | ⟨i, t, j, v, -, hst, -⟩
      · rw [Store.step, Store.dataStep, heq]
      · exact absurd (.deleteRecordsByField hst) (h i t _)
  | beginTransaction now => exact .inl (dbBeginTransaction_tables s.db now)
  | commitTransaction => exact .inl (dbCommitTransaction_tables s.db)
  | rollbackTransaction => exact .inl (dbRollbackTransaction_tables s.db)
  | addTable name fields =>
    rcases dbAddTable_cases s.db name fields with
      ⟨-, htables⟩ | ⟨n, l, named, hpos, hle, -, -, -, -, -, htables⟩
    · exact .inl htables
    · exact .inr ⟨trivial, _, newTable_fresh n named hpos hle, rfl, htables⟩
  | createTable name fields ks =>
    exact (createTableInteractive_tables s.db name fields ks).imp_right fun h => ⟨trivial, h⟩
  | tableInsert i now values =>
    have hi := hnone i fun t ht => h i t _ (.tableInsert ht)
    rw [Store.step, Store.insertInto, hi]
    exact .inl rfl
  | tableUpdate i now id values =>
    have hi := hnone i fun t ht => h i t _ (.tableUpdate ht)
    rw [Store.step, Store.updateIn, hi]
    exact .inl rfl
  | tableDelete i id =>
    have hi := hnone i fun t ht => h i t _ (.tableDelete ht)
    rw [Store.step, Store.deleteFrom, hi]
    exact .inl rfl
  | createIndex tableName fieldName type =>
    left
    rw [Store.step]
    unfold dbCreateIndex
    split
    next => rw [dbGetTable_eq_none fun i t hn => h i t _ (.createIndex hn)]
    next => rfl
  | dropIndex tableName fieldName =>
    left
    rw [Store.step]
    unfold dbDropIndex
    split
    next => rw [dbGetTable_eq_none fun i t hn => h i t _ (.dropIndex hn)]
    next => rfl
  | moveCounter counter => exact .inl rfl

/-- A call makes its table calls on one table only. -/
theorem Store.Makes.unique {s : Store} {c : Call} {i i' : Nat} {t t' : Table}
    {cs cs' : List TableCall} (h : s.Makes c i t cs) (h' : s.Makes c i' t' cs') :
    i = i' ∧ t = t' ∧ cs = cs' := by
  cases h with
  | insertRecord hn | updateRecord hn | deleteRecord hn | createIndex hn | dropIndex hn =>
    cases h' with
    | _ hn' =>
      obtain ⟨rfl, rfl⟩ := hn.unique hn'
      exact ⟨rfl, rfl, rfl⟩
  | batchInsertRecords hst =>
    cases h' with
    | batchInsertRecords hst' =>
      obtain ⟨rfl, rfl, rfl⟩ := hst.unique hst'
      exact ⟨rfl, rfl, rfl⟩
  | deleteRecordsByField hst =>
    cases h' with
    | deleteRecordsByField hst' =>
      obtain ⟨rfl, rfl, rfl, rfl⟩ := hst.unique hst'
      exact ⟨rfl, rfl, rfl⟩
  | tableInsert ht | tableUpdate ht | tableDelete ht =>
    cases h' with
    | _ ht' => exact ⟨rfl, Option.some.inj (ht.symm.trans ht'), rfl⟩

/-- **What holds of the table at a place holds of it after a call exactly if the table calls of the
call keep it**, for a property of all fresh tables. -/
theorem Store.step_forall_iff {s : Store} {i : Nat} {P : Table → Prop}
    (hfresh : ∀ t : Table, t.Fresh → t.indexes = [] → P t) (h : ∀ t ∈ s.db.tables[i]?, P t)
    (c : Call) :
    (∀ t ∈ (s.step c).db.tables[i]?, P t) ↔
      ∀ t cs, s.Makes c i t cs → P (run Table.step t cs) := by
  by_cases hmakes : ∃ k t cs, s.Makes c k t cs
  · obtain ⟨k, t, cs, hm⟩ := hmakes
    have hlt : k < s.db.tables.length := (List.getElem?_eq_some_iff.mp hm.found).1
    rw [step_of_makes hm, List.getElem?_set]
    by_cases hk : k = i
    · subst hk
      rw [if_pos rfl, if_pos hlt]
      constructor
      · intro hP t' cs' hm'
        obtain ⟨-, rfl, rfl⟩ := hm.unique hm'
        exact hP _ rfl
      · intro hP t' ht'
        obtain rfl := Option.some.inj ht'
        exact hP t cs hm
    · rw [if_neg hk]
      exact ⟨fun _ t' cs' hm' => absurd (hm.unique hm').1 hk, fun _ => h⟩
  · have hno : ∀ k t cs, ¬s.Makes c k t cs := fun k t cs hm => hmakes ⟨k, t, cs, hm⟩
    refine ⟨fun _ t cs hm => absurd hm (hno i t cs), fun _ t' ht' => ?_⟩
    rcases step_of_not_makes hno with heq | ⟨-, t, ht, hindexes, heq⟩
    · rw [heq] at ht'
      exact h t' ht'
    · rw [heq] at ht'
      by_cases hlt : i < s.db.tables.length
      · rw [List.getElem?_append_left hlt] at ht'
        exact h t' ht'
      · rw [List.getElem?_append_right (Nat.le_of_not_lt hlt)] at ht'
        obtain rfl := List.mem_singleton.mp (List.mem_of_getElem? ht')
        exact hfresh t' ht hindexes

end Luminix
