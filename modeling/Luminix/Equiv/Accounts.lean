import Luminix.Equiv.Indexes
import Luminix.Equiv.Transaction
import Mathlib.Algebra.BigOperators.Group.List.Basic

/-!
# The statistics of a database

What `DatabaseStatistics` counts accounts for what is there (`Database.Accounted`): every table has
been created, every index has been created and not dropped, and each open level of transactions was
started.  A commit of a nested transaction is not counted, and a rollback ends all levels and counts
as one, so of the started transactions some are missing.  This holds after all calls
(`statistics_account`).
-/

namespace Luminix

open CLib Machine

/-- The number of indexes in all tables. -/
def indexCount (tables : List Table) : Int := (tables.map fun t => (t.indexes.length : Int)).sum

/-- **The statistics account for the state.** -/
structure Database.Accounted (db : Database) : Prop where
  transactionOk : db.TransactionOk
  tables : db.statistics.tablesCreated = db.tables.length
  indexes : db.statistics.indexesCreated - db.statistics.indexesDropped = indexCount db.tables
  transactions : db.statistics.transactionsCommitted + db.statistics.transactionsRolledBack +
    db.transactionLevel ≤ db.statistics.transactionsStarted

/-! ### Counting the indexes -/

@[simp] theorem indexCount_nil : indexCount [] = 0 := rfl

@[simp] theorem indexCount_cons (t : Table) (ts : List Table) :
    indexCount (t :: ts) = t.indexes.length + indexCount ts := rfl

theorem indexCount_append (ts us : List Table) :
    indexCount (ts ++ us) = indexCount ts + indexCount us := by
  rw [indexCount, List.map_append, List.sum_append]
  rfl

/-- Rewriting one table changes the number of indexes by what that one gains. -/
theorem indexCount_set {ts : List Table} {i : Nat} {t : Table} (h : ts[i]? = some t) (t' : Table) :
    indexCount (ts.set i t') = indexCount ts + (t'.indexes.length - t.indexes.length) := by
  induction ts generalizing i with
  | nil => simp at h
  | cons a ts ih =>
    cases i with
    | zero =>
      obtain rfl : a = t := by simpa using h
      rw [List.set_cons_zero, indexCount_cons, indexCount_cons]
      omega
    | succ i =>
      rw [List.set_cons_succ, indexCount_cons, indexCount_cons, ih (by simpa using h)]
      omega

namespace Database.Accounted

variable {db : Database}

/-! ### Transactions -/

theorem beginTransaction (h : db.Accounted) (now : Int) :
    (dbBeginTransaction db now).2.Accounted := by
  obtain ⟨hok, htables, hindexes, htransactions⟩ := h
  have hok' : (dbBeginTransaction db now).2.TransactionOk := dbBeginTransaction_transactionOk hok now
  refine ⟨hok', ?_, ?_, ?_⟩
  · unfold dbBeginTransaction
    split_ifs <;> exact htables
  · unfold dbBeginTransaction
    split_ifs <;> exact hindexes
  · rw [TransactionOk] at hok
    unfold dbBeginTransaction
    split_ifs with hfull hactive
    · exact htransactions
    · dsimp only
      push_cast
      omega
    · rw [if_neg hactive] at hok
      dsimp only
      omega

theorem commitTransaction (h : db.Accounted) : (dbCommitTransaction db).2.Accounted := by
  obtain ⟨hok, htables, hindexes, htransactions⟩ := h
  refine ⟨dbCommitTransaction_transactionOk hok, ?_, ?_, ?_⟩
  · unfold dbCommitTransaction
    split_ifs <;> exact htables
  · unfold dbCommitTransaction
    split_ifs <;> exact hindexes
  · rw [TransactionOk] at hok
    unfold dbCommitTransaction
    split_ifs with hinactive hnested
    · exact htransactions
    · dsimp only
      omega
    · rw [if_pos (by simpa using hinactive)] at hok
      dsimp only
      omega

theorem rollbackTransaction (h : db.Accounted) : (dbRollbackTransaction db).2.Accounted := by
  obtain ⟨hok, htables, hindexes, htransactions⟩ := h
  refine ⟨dbRollbackTransaction_transactionOk hok, ?_, ?_, ?_⟩
  · unfold dbRollbackTransaction
    split_ifs <;> exact htables
  · unfold dbRollbackTransaction
    split_ifs <;> exact hindexes
  · rw [TransactionOk] at hok
    unfold dbRollbackTransaction
    split_ifs with hinactive
    · exact htransactions
    · rw [if_pos (by simpa using hinactive)] at hok
      dsimp only
      omega

/-! ### Tables -/

/-- Rewriting a table without touching its indexes is not counted. -/
theorem setTable (h : db.Accounted) {i : Nat} {t t' : Table} (ht : db.tables[i]? = some t)
    (hindexes : t'.indexes = t.indexes) : (db.setTable i t').Accounted where
  transactionOk := h.transactionOk
  tables := by
    rw [setTable_tables, List.length_set]
    exact h.tables
  indexes := by
    rw [setTable_tables, indexCount_set ht, hindexes, Int.sub_self, Int.add_zero]
    exact h.indexes
  transactions := h.transactions

/-- A table more, without indexes, is counted. -/
theorem addTable (h : db.Accounted) (name : Option CString)
    (fields : Option (List (Option CString × FieldType))) :
    (dbAddTable db name fields).2.Accounted := by
  obtain ⟨hok, htables, hindexes, htransactions⟩ := h
  unfold dbAddTable
  split
  · split_ifs with hsize hdup hfull
    · exact ⟨hok, htables, hindexes, htransactions⟩
    · dsimp only
      split
      · exact ⟨hok, htables, hindexes, htransactions⟩
      · refine ⟨hok, ?_, ?_, htransactions⟩
        · dsimp only
          rw [List.length_append, List.length_singleton, htables]
          omega
        · dsimp only
          rw [indexCount_append, hindexes]
          exact (Int.add_zero _).symm
    · exact ⟨hok, htables, hindexes, htransactions⟩
    · exact ⟨hok, htables, hindexes, htransactions⟩
  · exact ⟨hok, htables, hindexes, htransactions⟩

theorem createTable (h : db.Accounted) (name : CString) (fields : List (CString × FieldType))
    (constraints : List Constraint) :
    (createTableInteractive db name fields constraints).2.Accounted := by
  have hadd := h.addTable (some name) (some (fields.map fun f => (some f.1, f.2)))
  unfold createTableInteractive
  split
  next db' heq =>
    rw [heq] at hadd
    split
    next t ht => exact hadd.setTable ht rfl
    next => exact hadd
  next => exact hadd

/-- Rewriting the indexes of a table is counted if the counters move by as many. -/
theorem setIndexes (h : db.Accounted) {i : Nat} {t : Table} (ht : db.tables[i]? = some t)
    {indexes : List Index} {created dropped : Int}
    (hcount : created - dropped = db.statistics.indexesCreated - db.statistics.indexesDropped +
      (indexes.length - t.indexes.length)) :
    Database.Accounted { db.setTable i { t with indexes } with
      statistics :=
        { db.statistics with indexesCreated := created, indexesDropped := dropped } } where
  transactionOk := h.transactionOk
  tables := by
    rw [setTable_tables, List.length_set]
    exact h.tables
  indexes := by
    rw [setTable_tables, indexCount_set ht, ← h.indexes]
    exact hcount
  transactions := h.transactions

theorem createIndex (h : db.Accounted) (tableName fieldName : Option CString) (type : IndexType) :
    (dbCreateIndex db tableName fieldName type).2.Accounted := by
  unfold dbCreateIndex
  split
  · split
    · exact h
    · split
      · exact h
      next i t ht =>
        split
        · exact h
        · split_ifs
          · exact h
          · exact h
          · refine h.setIndexes ht ?_
            show db.statistics.indexesCreated + 1 - db.statistics.indexesDropped = _
            rw [List.length_append, List.length_singleton]
            omega
  · exact h

theorem dropIndex (h : db.Accounted) (tableName fieldName : Option CString) :
    (dbDropIndex db tableName fieldName).2.Accounted := by
  unfold dbDropIndex
  split
  · split
    · exact h
    · split
      · exact h
      next i t ht =>
        split_ifs with hfound
        · refine h.setIndexes ht ?_
          show db.statistics.indexesCreated - (db.statistics.indexesDropped + 1) = _
          -- the index that is found is the one that goes
          obtain ⟨index, hindex⟩ := Option.isSome_iff_exists.mp hfound
          have hmem := List.mem_of_find?_eq_some hindex
          have hpos := List.length_pos_of_mem hmem
          rw [List.length_eraseP_of_mem hmem (List.find?_some hindex)]
          omega
        · exact h
  · exact h

/-! ### Data operations -/

/-- The bracket of the single-record operations counts a transaction of its own. -/
theorem withLocalTransaction {α : Type} {s : Store} (h : s.db.Accounted) (now : Int)
    (failed : ErrorCode → α) (succeeded : α → Bool) {body : Store → α × Store}
    (hbody : ∀ s : Store, s.db.Accounted → (body s).2.db.Accounted) :
    (withLocalTransaction s now failed succeeded body).2.db.Accounted := by
  unfold Luminix.withLocalTransaction
  split_ifs with hactive
  · exact hbody s h
  · have hbegin := h.beginTransaction now
    split
    next db heq =>
      rw [heq] at hbegin
      dsimp only
      split_ifs
      · exact (hbody _ hbegin).commitTransaction
      · exact (hbody _ hbegin).rollbackTransaction
    next => exact h

theorem insertInto {s : Store} (h : s.db.Accounted) (i : Nat) (now : Int)
    (values : Option (List Field)) : (s.insertInto i now values).2.db.Accounted := by
  cases ht : s.db.tables[i]? with
  | none =>
    rw [Store.insertInto, ht]
    exact h
  | some t =>
    rw [insertInto_eq ht]
    exact h.setTable ht (Table.step_indexes (c := .insert s.globalCounter now values) (by simp))

theorem updateIn {s : Store} (h : s.db.Accounted) (i : Nat) (now id : Int)
    (values : Option (List Field)) : (s.updateIn i now id values).2.db.Accounted := by
  rw [Store.updateIn]
  split
  next => exact h
  next t ht => exact h.setTable ht (Table.step_indexes (c := .update now id values) (by simp))

theorem deleteFrom {s : Store} (h : s.db.Accounted) (i : Nat) (id : Int) :
    (s.deleteFrom i id).2.db.Accounted := by
  rw [Store.deleteFrom]
  split
  next => exact h
  next t ht => exact h.setTable ht (Table.step_indexes (c := .delete id) (by simp))

theorem insertRows {s : Store} (h : s.db.Accounted) (i : Nat) (now : Int)
    (rows : List (Option (List Field))) : (insertRows i now s rows).2.db.Accounted := by
  induction rows generalizing s with
  | nil => exact h
  | cons row rows ih =>
    have hrow := h.insertInto i now row
    rw [Luminix.insertRows]
    split
    next e s' heq => rwa [heq] at hrow
    next id s' heq =>
      rw [heq] at hrow
      have hrows := ih hrow
      split
      next e s'' h => rwa [h] at hrows
      next ids s'' h => rwa [h] at hrows

theorem dataStep {s : Store} (h : s.db.Accounted) (now : Int) (c : DataCall) :
    (s.dataStep now c).db.Accounted := by
  cases c with
  | insertRecord tableName values =>
    show (dbInsertRecord s now tableName values).2.db.Accounted
    -- inside the bracket of the local transaction only one table changes
    unfold dbInsertRecord
    split
    · split
      · exact h
      · exact h.withLocalTransaction now _ _ fun s' hs' => hs'.insertInto _ now _
    · exact h
  | updateRecord tableName id values =>
    show (dbUpdateRecord s now tableName id values).2.db.Accounted
    unfold dbUpdateRecord
    split
    · split
      · exact h
      · exact h.withLocalTransaction now _ _ fun s' hs' => hs'.updateIn _ now id _
    · exact h
  | deleteRecord tableName id =>
    show (dbDeleteRecord s now tableName id).2.db.Accounted
    unfold dbDeleteRecord
    split
    · split
      · exact h
      · exact h.withLocalTransaction now _ _ fun s' hs' => hs'.deleteFrom _ id
    · exact h
  | batchInsertRecords tableName rows =>
    -- the local transaction of a batch ends in a commit or in a rollback; neither undoes a row
    rcases dbBatchInsertRecords_cases s now tableName rows with
      ⟨-, e, heq⟩ | ⟨i, t, rs, db, -, hbegin, -, heq⟩
    · rw [Store.dataStep, heq]
      exact h
    · have hdb := h.beginTransaction now
      rw [hbegin] at hdb
      have hrows := insertRows (s := { s with db }) hdb i now rs
      rw [Store.dataStep, heq]
      dsimp only
      split_ifs
      · exact hrows.commitTransaction
      · exact hrows.rollbackTransaction
  | deleteRecordsByField tableName fieldName value =>
    rcases dbDeleteRecordsByField_cases s now tableName fieldName value with
      ⟨-, e, heq⟩ | ⟨i, t, j, v, db, hst, hbegin, htables, heq⟩
    · rw [Store.dataStep, heq]
      exact h
    · have hdb := h.beginTransaction now
      rw [hbegin] at hdb
      have hswept := hdb.setTable (htables ▸ hst.found)
        (Table.step_indexes (c := .sweep j v) (by simp))
      rw [Store.dataStep, heq]
      dsimp only
      split_ifs
      · exact hswept.commitTransaction
      · exact hswept.rollbackTransaction

/-- **A call keeps the accounts.** -/
theorem step {s : Store} (h : s.db.Accounted) (c : Call) : (s.step c).db.Accounted := by
  cases c with
  | data now c => exact h.dataStep now c
  | beginTransaction now => exact h.beginTransaction now
  | commitTransaction => exact h.commitTransaction
  | rollbackTransaction => exact h.rollbackTransaction
  | addTable name fields => exact h.addTable name fields
  | createTable name fields ks => exact h.createTable name fields ks
  | tableInsert i now values => exact h.insertInto i now values
  | tableUpdate i now id values => exact h.updateIn i now id values
  | tableDelete i id => exact h.deleteFrom i id
  | createIndex tableName fieldName type => exact h.createIndex tableName fieldName type
  | dropIndex tableName fieldName => exact h.dropIndex tableName fieldName
  | moveCounter counter => exact h

end Database.Accounted

/-- **The statistics account for the state after all calls.** -/
theorem statistics_account {s : Store} (h : s.Reachable) : s.db.Accounted := by
  refine Reach.invariant (P := fun s : Store => s.db.Accounted) (fun s hs => ?_)
    (fun s c hs _ => hs.step c) h
  subst hs
  exact ⟨rfl, rfl, rfl, by decide⟩

/-- A nested transaction is committed, and the outer one is still open. -/
theorem statistics_account_nested :
    (run Store.step ⟨dbCreate, 1000⟩
      [.addTable (some (cstr "t")) (some [(some (cstr "id"), .int)]),
        .createIndex (some (cstr "t")) (some (cstr "id")) .btree, .beginTransaction 0,
        .beginTransaction 0, .commitTransaction]).db.Accounted := by
  have hinit : Store.Init ⟨dbCreate, 1000⟩ := rfl
  exact statistics_account (Reach.run (.start hinit) (Admits.of_forall (fun _ _ => trivial) _ _))

end Luminix
