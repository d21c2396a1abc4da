import Luminix.Equiv.Table
import Mathlib.Tactic.SplitIfs

/-!
# What a database operation can do

The case lemmas of the database functions: `db_begin_transaction` and its siblings on the
transaction counters, and the two operations that open a transaction of their own
(`dbBatchInsertRecords_cases`, `dbDeleteRecordsByField_cases`), with the checks that come before
their loops as structures (`Store.BatchStarts`, `Store.SweepStarts`).
-/

namespace Luminix

open CLib KeyedList Machine

/-- `transaction_active` and `transaction_level`. -/
def Database.transaction (db : Database) : Bool × Nat := (db.transactionActive, db.transactionLevel)

/-! ### Begin, commit and rollback -/

/-- The results of `db_begin_transaction`. -/
theorem dbBeginTransaction_cases (db : Database) (now : Int) :
    (db.transactionActive = true ∧ maxTransactionLevel ≤ db.transactionLevel ∧
      dbBeginTransaction db now = (.transactionConflict, db)) ∨
    (db.transactionActive = true ∧ db.transactionLevel < maxTransactionLevel ∧
      ∃ db', dbBeginTransaction db now = (.success, db') ∧ db'.tables = db.tables ∧
        db'.transaction = (true, db.transactionLevel + 1)) ∨
    (db.transactionActive = false ∧
      ∃ db', dbBeginTransaction db now = (.success, db') ∧ db'.tables = db.tables ∧
        db'.transaction = (true, 1)) := by
  unfold dbBeginTransaction
  cases ha : db.transactionActive with
  | true =>
    by_cases hl : maxTransactionLevel ≤ db.transactionLevel
    · left
      refine ⟨rfl, hl, ?_⟩
      rw [Bool.true_and, if_pos (by simpa using hl)]
    · right; left
      rw [Bool.true_and, if_neg (by simpa using hl)]
      exact ⟨rfl, by omega, _, rfl, rfl, rfl⟩
  | false =>
    right; right
    exact ⟨rfl, _, rfl, rfl, rfl⟩

/-- A commit takes one level back. -/
theorem dbCommitTransaction_transaction {db : Database} {n : Nat}
    (h : db.transaction = (true, n + 1)) :
    (dbCommitTransaction db).2.transaction = (decide (0 < n), n) := by
  obtain ⟨ha, hl⟩ := Prod.mk.inj h
  unfold dbCommitTransaction
  rw [ha, hl]
  cases n with
  | zero => rfl
  | succ n =>
    have hlt : 1 < n + 1 + 1 := by omega
    have hpos : decide (0 < n + 1) = true := by simp
    rw [Bool.not_true, if_neg Bool.false_ne_true, if_pos hlt, hpos]
    rfl

/-- A rollback ends the transaction at whatever level it is. -/
theorem dbRollbackTransaction_transaction {db : Database} {n : Nat}
    (h : db.transaction = (true, n)) :
    (dbRollbackTransaction db).2.transaction = (false, 0) := by
  obtain ⟨ha, -⟩ := Prod.mk.inj h
  unfold dbRollbackTransaction
  rw [ha]
  rfl

/-! ### Transactions do not touch the tables -/

@[simp] theorem dbBeginTransaction_tables (db : Database) (now : Int) :
    (dbBeginTransaction db now).2.tables = db.tables := by
  unfold dbBeginTransaction
  split
  · rfl
  · dsimp only
    split <;> rfl

@[simp] theorem dbCommitTransaction_tables (db : Database) :
    (dbCommitTransaction db).2.tables = db.tables := by
  unfold dbCommitTransaction
  split
  · rfl
  · split <;> rfl

@[simp] theorem dbRollbackTransaction_tables (db : Database) :
    (dbRollbackTransaction db).2.tables = db.tables := by
  unfold dbRollbackTransaction
  split <;> rfl

@[simp] theorem setTable_tables (db : Database) (i : Nat) (t : Table) :
    (db.setTable i t).tables = db.tables.set i t := rfl

/-- Outside a transaction, beginning one succeeds. -/
theorem dbBeginTransaction_of_inactive {db : Database} (h : db.transactionActive = false)
    (now : Int) :
    dbBeginTransaction db now = (.success, { db with
      transactionActive := true
      transactionLevel := 1
      transactionStartTime := now
      statistics :=
        { db.statistics with transactionsStarted := db.statistics.transactionsStarted + 1 } }) := by
  simp [dbBeginTransaction, h]

/-! ### Insertion into one table -/

theorem insertInto_eq {s : Store} {i : Nat} {t : Table} (h : s.db.tables[i]? = some t) (now : Int)
    (values : Option (List Field)) :
    s.insertInto i now values = ((tableInsertRecord t s.globalCounter now values).1,
      { db := s.db.setTable i (tableInsertRecord t s.globalCounter now values).2.1
        globalCounter := (tableInsertRecord t s.globalCounter now values).2.2 }) := by
  rw [Store.insertInto, h]

/-! ### Calls that open a transaction of their own -/

/-- A nested transaction is refused at the limit. -/
def Database.canBegin (db : Database) : Prop :=
  ¬(db.transactionActive = true ∧ maxTransactionLevel ≤ db.transactionLevel)

theorem dbBeginTransaction_of_canBegin {db : Database} (h : db.canBegin) (now : Int) :
    ∃ db', dbBeginTransaction db now = (.success, db') ∧ db'.tables = db.tables := by
  rcases dbBeginTransaction_cases db now with
    ⟨ha, hl, -⟩ | ⟨-, -, db', heq, ht, -⟩ | ⟨-, db', heq, ht, -⟩
  · exact absurd ⟨ha, hl⟩ h
  · exact ⟨db', heq, ht⟩
  · exact ⟨db', heq, ht⟩

theorem dbBeginTransaction_of_not_canBegin {db : Database} (h : ¬db.canBegin) (now : Int) :
    dbBeginTransaction db now = (.transactionConflict, db) := by
  obtain ⟨ha, hl⟩ := not_not.mp h
  unfold dbBeginTransaction
  rw [if_pos (by simpa [ha] using hl)]

/-- The name is that of table `i`, which is `t`. -/
structure Store.Names (s : Store) (tableName : Option CString) (i : Nat) (t : Table) : Prop where
  named : ∃ name, tableName = some name ∧ dbGetTable s.db name = some i
  found : s.db.tables[i]? = some t

theorem Store.Names.unique {s : Store} {tableName : Option CString} {i i' : Nat} {t t' : Table}
    (h : s.Names tableName i t) (h' : s.Names tableName i' t') : i = i' ∧ t = t' := by
  obtain ⟨name, hname, hi⟩ := h.named
  obtain ⟨name', hname', hi'⟩ := h'.named
  obtain rfl := Option.some.inj (hname.symm.trans hname')
  obtain rfl := Option.some.inj (hi.symm.trans hi')
  exact ⟨rfl, Option.some.inj (h.found.symm.trans h'.found)⟩

theorem Store.Names.getTable_eq {s : Store} {name : CString} {i : Nat} {t : Table}
    (h : s.Names (some name) i t) : dbGetTable s.db name = some i := by
  obtain ⟨name', hname, hi⟩ := h.named
  rw [Option.some.inj hname]
  exact hi

/-- The table at the place that `db_get_table` returns. -/
theorem Store.Names.getElem?_eq {s : Store} {name : CString} {i k : Nat} {t : Table}
    (h : s.Names (some name) i t) (hk : dbGetTable s.db name = some k) :
    s.db.tables[k]? = some t := by
  obtain rfl : i = k := Option.some.inj (h.getTable_eq.symm.trans hk)
  exact h.found

/-- The batch passes the checks before its loop: it is going to insert `rows` into table `i`. -/
structure Store.BatchStarts (s : Store) (tableName : Option CString)
    (rows : Option (List (Option (List Field)))) (i : Nat) (t : Table)
    (rows' : List (Option (List Field))) : Prop extends s.Names tableName i t where
  rows_eq : rows = some rows'
  size_pos : 1 ≤ rows'.length
  size_le : rows'.length ≤ batchInsertSize
  capacity : t.recordCount + rows'.length ≤ maxRecordsPerTable
  canBegin : s.db.canBegin

/-- The delete passes the checks before its loop: it is going to sweep table `i`, comparing column
`j` with `value`. -/
structure Store.SweepStarts (s : Store) (tableName fieldName : Option CString)
    (value : Option (List UInt8)) (i : Nat) (t : Table) (j : Nat) (value' : List UInt8) : Prop
    extends s.Names tableName i t where
  value_eq : value = some value'
  column : ∃ name, fieldName = some name ∧ columnIndex t.columns name = some j
  canBegin : s.db.canBegin

theorem Store.SweepStarts.columnIndex_eq {s : Store} {tableName : Option CString} {field : CString}
    {value : Option (List UInt8)} {i j : Nat} {t : Table} {v : List UInt8}
    (h : s.SweepStarts tableName (some field) value i t j v) :
    columnIndex t.columns field = some j := by
  obtain ⟨field', hfield, hj⟩ := h.column
  rw [Option.some.inj hfield]
  exact hj

theorem Store.BatchStarts.unique {s : Store} {tableName : Option CString}
    {rows : Option (List (Option (List Field)))} {i i' : Nat} {t t' : Table}
    {rs rs' : List (Option (List Field))} (h : s.BatchStarts tableName rows i t rs)
    (h' : s.BatchStarts tableName rows i' t' rs') : i = i' ∧ t = t' ∧ rs = rs' := by
  obtain ⟨rfl, rfl⟩ := h.toNames.unique h'.toNames
  exact ⟨rfl, rfl, Option.some.inj (h.rows_eq.symm.trans h'.rows_eq)⟩

theorem Store.SweepStarts.unique {s : Store} {tableName fieldName : Option CString}
    {value : Option (List UInt8)} {i i' : Nat} {t t' : Table} {j j' : Nat} {v v' : List UInt8}
    (h : s.SweepStarts tableName fieldName value i t j v)
    (h' : s.SweepStarts tableName fieldName value i' t' j' v') :
    i = i' ∧ t = t' ∧ j = j' ∧ v = v' := by
  obtain ⟨rfl, rfl⟩ := h.toNames.unique h'.toNames
  obtain ⟨field, hfield, hj⟩ := h.column
  obtain ⟨field', hfield', hj'⟩ := h'.column
  obtain rfl := Option.some.inj (hfield.symm.trans hfield')
  exact ⟨rfl, rfl, Option.some.inj (hj.symm.trans hj'),
    Option.some.inj (h.value_eq.symm.trans h'.value_eq)⟩

/-- **The results of `db_batch_insert_records`**: refused with nothing changed, or the loop run in a
transaction that its outcome ends. -/
theorem dbBatchInsertRecords_cases (s : Store) (now : Int) (tableName : Option CString)
    (rows : Option (List (Option (List Field)))) :
    ((∀ i t rs, ¬s.BatchStarts tableName rows i t rs) ∧
      ∃ e, dbBatchInsertRecords s now tableName rows = (.error e, s)) ∨
    ∃ i t rs db, s.BatchStarts tableName rows i t rs ∧
      dbBeginTransaction s.db now = (.success, db) ∧ db.tables = s.db.tables ∧
      let loop := insertRows i now { s with db } rs
      dbBatchInsertRecords s now tableName rows = (loop.1, { loop.2 with
        db := if loop.1.isOk then (dbCommitTransaction loop.2.db).2
          else (dbRollbackTransaction loop.2.db).2 }) := by
  -- every check that fails contradicts the field of `BatchStarts` that states it
  unfold dbBatchInsertRecords
  split
  next name rs =>
    by_cases hsize : rs.length < 1 ∨ batchInsertSize < rs.length
    · rw [if_pos hsize]
      refine .inl ⟨fun i t rs' h => ?_, _, rfl⟩
      obtain rfl := Option.some.inj h.rows_eq
      have := h.size_pos
      have := h.size_le
      omega
    rw [if_neg hsize]
    cases hname : dbGetTable s.db name with
    | none =>
      refine .inl ⟨fun i t rs' h => ?_, _, rfl⟩
      rw [h.getTable_eq] at hname
      cases hname
    | some i =>
      dsimp only
      cases ht : s.db.tables[i]? with
      | none =>
        refine .inl ⟨fun i' t' rs' h => ?_, _, rfl⟩
        rw [h.getElem?_eq hname] at ht
        cases ht
      | some t =>
        dsimp only
        by_cases hcap : maxRecordsPerTable < t.recordCount + rs.length
        · rw [if_pos hcap]
          refine .inl ⟨fun i' t' rs' h => ?_, _, rfl⟩
          rw [h.getElem?_eq hname] at ht
          obtain rfl := Option.some.inj ht
          obtain rfl := Option.some.inj h.rows_eq
          have := h.capacity
          omega
        rw [if_neg hcap]
        by_cases hbegin : s.db.canBegin
        · obtain ⟨db, hdb, htables⟩ := dbBeginTransaction_of_canBegin hbegin now
          refine .inr ⟨i, t, rs, db, ⟨⟨⟨name, rfl, hname⟩, ht⟩, rfl, by omega, by omega,
            by omega, hbegin⟩, hdb, htables, ?_⟩
          rw [hdb]
          dsimp only
          rcases insertRows i now { s with db } rs with ⟨e | ids, s'⟩ <;> rfl
        · rw [dbBeginTransaction_of_not_canBegin hbegin]
          exact .inl ⟨fun i' t' rs' h => hbegin h.canBegin, _, rfl⟩
  next hnone =>
    refine .inl ⟨fun i t rs h => ?_, _, rfl⟩
    obtain ⟨name, hn, -⟩ := h.named
    exact hnone name rs hn h.rows_eq

/-- **The results of `db_delete_records_by_field`**: refused with nothing changed, or the sweep run
in a transaction that is committed if it deleted something. -/
theorem dbDeleteRecordsByField_cases (s : Store) (now : Int) (tableName fieldName : Option CString)
    (value : Option (List UInt8)) :
    ((∀ i t j v, ¬s.SweepStarts tableName fieldName value i t j v) ∧
      ∃ e, dbDeleteRecordsByField s now tableName fieldName value = (.error e, s)) ∨
    ∃ i t j v db, s.SweepStarts tableName fieldName value i t j v ∧
      dbBeginTransaction s.db now = (.success, db) ∧ db.tables = s.db.tables ∧
      let swept := db.setTable i (t.step (.sweep j v))
      dbDeleteRecordsByField s now tableName fieldName value =
        (.ok (t.records.countP (recordMatches t j v)), { s with
          db := if t.records.any (recordMatches t j v) then (dbCommitTransaction swept).2
            else (dbRollbackTransaction swept).2 }) := by
  -- again a check that fails contradicts a field of `SweepStarts`
  unfold dbDeleteRecordsByField
  split
  next name field v =>
    cases hname : dbGetTable s.db name with
    | none =>
      refine .inl ⟨fun i t j v' h => ?_, _, rfl⟩
      rw [h.getTable_eq] at hname
      cases hname
    | some i =>
      dsimp only
      cases ht : s.db.tables[i]? with
      | none =>
        refine .inl ⟨fun i' t' j' v' h => ?_, _, rfl⟩
        rw [h.getElem?_eq hname] at ht
        cases ht
      | some t =>
        dsimp only
        cases hcol : columnIndex t.columns field with
        | none =>
          refine .inl ⟨fun i' t' j' v' h => ?_, _, rfl⟩
          rw [h.getElem?_eq hname] at ht
          obtain rfl := Option.some.inj ht
          rw [h.columnIndex_eq] at hcol
          cases hcol
        | some j =>
          dsimp only
          by_cases hbegin : s.db.canBegin
          · obtain ⟨db, hdb, htables⟩ := dbBeginTransaction_of_canBegin hbegin now
            refine .inr ⟨i, t, j, v, db, ⟨⟨⟨name, rfl, hname⟩, ht⟩, rfl, ⟨field, rfl, hcol⟩, hbegin⟩,
              hdb, htables, ?_⟩
            have hany : t.records.any (recordMatches t j v) = true ↔
                0 < (sweepRecords (recordMatches t j v) t.records).2 := by
              rw [sweepRecords_eq, List.any_eq_true]
              simp [List.countP_pos_iff]
            have hcount : (sweepRecords (recordMatches t j v) t.records).2 =
                t.records.countP (recordMatches t j v) := by rw [sweepRecords_eq]
            rw [hdb]
            dsimp only
            by_cases hpos : 0 < (sweepRecords (recordMatches t j v) t.records).2
            · rw [if_pos hpos, if_pos (hany.mpr hpos), ← hcount]
              rfl
            · have hzero : (sweepRecords (recordMatches t j v) t.records).2 = 0 := by omega
              rw [if_neg hpos, if_neg (mt hany.mp hpos), ← hcount, hzero]
              rfl
          · rw [dbBeginTransaction_of_not_canBegin hbegin]
            exact .inl ⟨fun i' t' j' v' h => hbegin h.canBegin, _, rfl⟩
  next hnone =>
    refine .inl ⟨fun i t j v h => ?_, _, rfl⟩
    obtain ⟨name, hn, -⟩ := h.named
    obtain ⟨field, hf, -⟩ := h.column
    exact hnone name field v hn hf h.value_eq

end Luminix
