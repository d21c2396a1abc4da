import Luminix.Equiv.Store

/-!
# The transaction counters

`transaction_active` and `transaction_level` change together: no transaction is at level zero, and
an active one is between one and `MAX_TRANSACTION_LEVEL` (`Database.TransactionOk`).  A data
operation either opens a transaction only when there is none, or nests one; in both cases a commit
takes back what the begin did, and a rollback does so only if the caller had no transaction.
`dataStep_transaction_iff` says exactly which calls end the caller's transaction.
-/

namespace Luminix

open CLib KeyedList Machine

/-- The level is zero exactly outside a transaction and never above the limit. -/
def Database.TransactionOk (db : Database) : Prop :=
  if db.transactionActive then 1 ≤ db.transactionLevel ∧ db.transactionLevel ≤ maxTransactionLevel
  else db.transactionLevel = 0

/-! ### The record operations leave the counters alone -/

theorem insertInto_transaction (s : Store) (i : Nat) (now : Int) (values : Option (List Field)) :
    (s.insertInto i now values).2.db.transaction = s.db.transaction := by
  unfold Store.insertInto
  split <;> rfl

theorem updateIn_transaction (s : Store) (i : Nat) (now id : Int) (values : Option (List Field)) :
    (s.updateIn i now id values).2.db.transaction = s.db.transaction := by
  unfold Store.updateIn
  split <;> rfl

theorem deleteFrom_transaction (s : Store) (i : Nat) (id : Int) :
    (s.deleteFrom i id).2.db.transaction = s.db.transaction := by
  unfold Store.deleteFrom
  split <;> rfl

theorem insertRows_transaction (i : Nat) (now : Int) (s : Store)
    (rows : List (Option (List Field))) :
    (insertRows i now s rows).2.db.transaction = s.db.transaction := by
  induction rows generalizing s with
  | nil => rfl
  | cons row rows ih =>
    have hrow := insertInto_transaction s i now row
    rw [insertRows]
    split
    next e s' heq =>
      rw [heq] at hrow
      exact hrow
    next id s' heq =>
      rw [heq] at hrow
      have hrows := ih s'
      rw [hrow] at hrows
      split
      next e s'' h => rwa [h] at hrows
      next ids s'' h => rwa [h] at hrows

/-! ### The bracket -/

/-- Outside a transaction the counters are `(false, 0)`. -/
theorem Database.TransactionOk.of_inactive {db : Database} (h : db.TransactionOk)
    (ha : db.transactionActive = false) : db.transaction = (false, 0) := by
  rw [TransactionOk, ha, if_neg Bool.false_ne_true] at h
  rw [transaction, ha, h]

/-- A commit undoes the begin it answers. -/
theorem commit_begin {db db1 db2 : Database} {now : Int} (h : db.TransactionOk)
    (hbegin : dbBeginTransaction db now = (.success, db1))
    (h2 : db2.transaction = db1.transaction) :
    (dbCommitTransaction db2).2.transaction = db.transaction := by
  rcases dbBeginTransaction_cases db now with
    ⟨-, -, heq⟩ | ⟨ha, -, db', heq, -, htx⟩ | ⟨ha, db', heq, -, htx⟩
  · rw [heq] at hbegin
    simp at hbegin
  · obtain rfl : db' = db1 := (Prod.mk.inj (heq.symm.trans hbegin)).2
    rw [Database.TransactionOk, if_pos ha] at h
    have hpos : decide (0 < db.transactionLevel) = true := decide_eq_true h.1
    rw [dbCommitTransaction_transaction (h2.trans htx), hpos, Database.transaction, ha]
  · obtain rfl : db' = db1 := (Prod.mk.inj (heq.symm.trans hbegin)).2
    rw [h.of_inactive ha]
    exact dbCommitTransaction_transaction (h2.trans htx)

/-- A rollback clears the counters, at whatever level the begin found them. -/
theorem rollback_begin {db db1 db2 : Database} {now : Int}
    (hbegin : dbBeginTransaction db now = (.success, db1))
    (h2 : db2.transaction = db1.transaction) :
    (dbRollbackTransaction db2).2.transaction = (false, 0) := by
  have hactive : ∃ n, db1.transaction = (true, n) := by
    rcases dbBeginTransaction_cases db now with
      ⟨-, -, heq⟩ | ⟨-, -, db', heq, -, htx⟩ | ⟨-, db', heq, -, htx⟩
    · rw [heq] at hbegin
      simp at hbegin
    all_goals
      obtain rfl : db' = db1 := (Prod.mk.inj (heq.symm.trans hbegin)).2
      exact ⟨_, htx⟩
  obtain ⟨n, hn⟩ := hactive
  exact dbRollbackTransaction_transaction (h2.trans hn)

/-- The bracket of the single-record operations opens a transaction only when there is none, so it
leaves the counters as they were. -/
theorem withLocalTransaction_transaction {α : Type} {s : Store} (h : s.db.TransactionOk) (now : Int)
    (failed : ErrorCode → α) (succeeded : α → Bool) (body : Store → α × Store)
    (hbody : ∀ s : Store, (body s).2.db.transaction = s.db.transaction) :
    (withLocalTransaction s now failed succeeded body).2.db.transaction = s.db.transaction := by
  unfold withLocalTransaction
  cases ha : s.db.transactionActive with
  | true => exact hbody s
  | false =>
    have hbegin := dbBeginTransaction_of_inactive ha now
    rw [if_neg Bool.false_ne_true, hbegin]
    dsimp only
    split
    · exact commit_begin h hbegin (hbody _)
    · rw [rollback_begin hbegin (hbody _), h.of_inactive ha]

/-! ### Which rows a batch accepts -/

/-- `table_insert_record` accepts the values: they pass its checks, and the id is free. -/
def insertAccepted (t : Table) (counter : Int) : Option (List Field) → Prop
  | none => False
  | some vs => insertCheck t vs = .success ∧
    lookup Record.id t.records (chooseRecordId t counter vs).1 = none

instance (t : Table) (counter : Int) : ∀ values, Decidable (insertAccepted t counter values)
  | none => inferInstanceAs (Decidable False)
  | some _ => inferInstanceAs (Decidable (_ ∧ _))

/-- Every row is accepted when the rows before it are in the table. -/
def rowsAccepted (now : Int) : Table → Int → List (Option (List Field)) → Prop
  | _, _, [] => True
  | t, counter, row :: rows => insertAccepted t counter row ∧
    rowsAccepted now (tableInsertRecord t counter now row).2.1
      (tableInsertRecord t counter now row).2.2 rows

theorem tableInsertRecord_isOk_iff (t : Table) (counter now : Int) (values : Option (List Field)) :
    (tableInsertRecord t counter now values).1.isOk = true ↔ insertAccepted t counter values := by
  rcases tableInsertRecord_cases t counter now values with
    ⟨e, c, heq⟩ | ⟨vs, id, c, rfl, hc, hid, hl, heq⟩
  · have hno : ¬insertAccepted t counter values := by
      intro hacc
      cases values with
      | none => exact hacc
      | some vs =>
        rw [tableInsertRecord_of_accepted hacc.1 hacc.2] at heq
        simp at heq
    rw [heq]
    exact ⟨fun h => absurd h Bool.false_ne_true, fun h => absurd h hno⟩
  · rw [heq]
    exact ⟨fun _ => ⟨hc, by rw [hid]; exact hl⟩, fun _ => rfl⟩

/-- A batch whose first row is refused leaves the table as it is. -/
theorem run_insertCalls_of_refused {t : Table} {k : Int} {row : Option (List Field)}
    (h : ¬insertAccepted t k row) (now : Int) (rows : List (Option (List Field))) :
    run Table.step t (insertCalls now t k (row :: rows)) = t := by
  have hok := mt (tableInsertRecord_isOk_iff t k now row).mp h
  rw [insertCalls, if_neg hok, run_cons, run_nil, Table.step]
  rcases tableInsertRecord_cases t k now row with ⟨e, c, heq⟩ | ⟨vs, id, c, -, -, -, -, heq⟩
  · rw [heq]
  · rw [heq] at hok
    exact absurd rfl hok

/-- One whose first row is accepted leaves more records behind, whatever becomes of the others. -/
theorem length_run_insertCalls {t : Table} {k : Int} {row : Option (List Field)}
    (h : insertAccepted t k row) (now : Int) (rows : List (Option (List Field))) :
    t.records.length < (run Table.step t (insertCalls now t k (row :: rows))).records.length := by
  have hok := (tableInsertRecord_isOk_iff t k now row).mpr h
  rcases tableInsertRecord_cases t k now row with ⟨e, c, heq⟩ | ⟨vs, id, c, -, -, -, -, heq⟩
  · rw [heq] at hok
    exact absurd hok Bool.false_ne_true
  · rw [insertCalls, if_pos hok, run_cons, Table.step, heq]
    -- the first record is linked, and the rows after it only add to the list
    have hsuffix : (linkRecord t id now vs).records <:+ (run Table.step (linkRecord t id now vs)
        (insertCalls now (linkRecord t id now vs) c rows)).records :=
      records_suffix_inserts _ fun c hc => (mem_insertCalls hc).1
    exact Nat.lt_of_lt_of_le (Nat.lt_succ_self t.records.length) hsuffix.length_le

/-- **A batch leaves the records as they were exactly if its first row is refused**: nothing that it
inserts is taken out again. -/
theorem run_insertCalls_eq_iff {β : Type} {f : Table → β}
    (hf : ∀ t t' : Table, f t' = f t → t'.records.length = t.records.length) (now k : Int)
    (t : Table) (rows : List (Option (List Field))) :
    f (run Table.step t (insertCalls now t k rows)) = f t ↔
      ∀ row ∈ rows.head?, ¬insertAccepted t k row := by
  cases rows with
  | nil => simp [insertCalls]
  | cons row rows =>
    simp only [List.head?_cons, Option.mem_def, Option.some.injEq, forall_eq']
    constructor
    · intro hsame hacc
      have hlen := hf _ _ hsame
      have hlt := length_run_insertCalls hacc now rows
      omega
    · intro hrefused
      rw [run_insertCalls_of_refused hrefused]

theorem insertRows_cons_isOk (i : Nat) (now : Int) (s : Store) (row : Option (List Field))
    (rows : List (Option (List Field))) :
    (insertRows i now s (row :: rows)).1.isOk =
      ((s.insertInto i now row).1.isOk &&
        (insertRows i now (s.insertInto i now row).2 rows).1.isOk) := by
  rw [insertRows]
  rcases hrow : s.insertInto i now row with ⟨e | id, s'⟩
  · rfl
  · dsimp only
    rcases hrows : insertRows i now s' rows with ⟨e | ids, s''⟩ <;> rfl

/-- The insertion loop succeeds exactly when every row is accepted in its turn. -/
theorem insertRows_isOk_iff {s : Store} {i : Nat} {t : Table} (ht : s.db.tables[i]? = some t)
    (now : Int) (rows : List (Option (List Field))) :
    (insertRows i now s rows).1.isOk = true ↔ rowsAccepted now t s.globalCounter rows := by
  induction rows generalizing s t with
  | nil => exact ⟨fun _ => trivial, fun _ => rfl⟩
  | cons row rows ih =>
    have hlt : i < s.db.tables.length := (List.getElem?_eq_some_iff.mp ht).1
    have hget : (s.insertInto i now row).2.db.tables[i]? =
        some (tableInsertRecord t s.globalCounter now row).2.1 := by
      rw [insertInto_eq ht]
      exact List.getElem?_set_self hlt
    rw [insertRows_cons_isOk, Bool.and_eq_true, ih hget, rowsAccepted, insertInto_eq ht]
    exact and_congr_left' (tableInsertRecord_isOk_iff t s.globalCounter now row)

/-! ### The data operations -/

/-- The call rolls back the caller's transaction: a batch meets a row that is refused, or a delete
by field finds nothing to delete. -/
def Store.EndsTransaction (s : Store) (now : Int) : DataCall → Prop
  | .batchInsertRecords tableName rows =>
    s.db.transactionActive = true ∧
      ∃ i t rs, s.BatchStarts tableName rows i t rs ∧ ¬rowsAccepted now t s.globalCounter rs
  | .deleteRecordsByField tableName fieldName value =>
    s.db.transactionActive = true ∧
      ∃ i t j v, s.SweepStarts tableName fieldName value i t j v ∧
        ∀ r ∈ t.records, recordMatches t j v r = false
  | _ => False

/-- The end of an operation that rolls back unless `ok`: a transaction of the caller is lost with
it. -/
theorem end_transaction {db db₁ db₂ : Database} (h : db.TransactionOk) {now : Int}
    (hbegin : dbBeginTransaction db now = (.success, db₁)) (htx : db₂.transaction = db₁.transaction)
    (ok : Prop) [Decidable ok] :
    (db.transactionActive = true ∧ ¬ok →
      (if ok then (dbCommitTransaction db₂).2 else (dbRollbackTransaction db₂).2).transaction =
        (false, 0)) ∧
    (¬(db.transactionActive = true ∧ ¬ok) →
      (if ok then (dbCommitTransaction db₂).2 else (dbRollbackTransaction db₂).2).transaction =
        db.transaction) := by
  constructor
  · rintro ⟨-, hfailed⟩
    rw [if_neg hfailed]
    exact rollback_begin hbegin htx
  · intro hends
    split_ifs with hok
    · exact commit_begin h hbegin htx
    · -- the transaction that is rolled back is the operation's own
      have hinactive : db.transactionActive = false := by
        by_contra hactive
        exact hends ⟨by simpa using hactive, hok⟩
      rw [rollback_begin hbegin htx, h.of_inactive hinactive]

theorem dbBatchInsertRecords_transaction {s : Store} (h : s.db.TransactionOk) (now : Int)
    (tableName : Option CString) (rows : Option (List (Option (List Field)))) :
    (s.EndsTransaction now (.batchInsertRecords tableName rows) →
      (dbBatchInsertRecords s now tableName rows).2.db.transaction = (false, 0)) ∧
    (¬s.EndsTransaction now (.batchInsertRecords tableName rows) →
      (dbBatchInsertRecords s now tableName rows).2.db.transaction = s.db.transaction) := by
  rcases dbBatchInsertRecords_cases s now tableName rows with
    ⟨hno, e, heq⟩ | ⟨i, t, rs, db, hst, hbegin, htables, heq⟩
  · rw [heq]
    refine ⟨?_, fun _ => rfl⟩
    rintro ⟨-, i, t, rs, hst, -⟩
    exact absurd hst (hno i t rs)
  · have hrows : (insertRows i now { s with db } rs).1.isOk = true ↔
        rowsAccepted now t s.globalCounter rs :=
      insertRows_isOk_iff (s := { s with db }) (htables ▸ hst.found) now rs
    have hends : s.EndsTransaction now (.batchInsertRecords tableName rows) ↔
        s.db.transactionActive = true ∧ ¬(insertRows i now { s with db } rs).1.isOk = true := by
      rw [hrows]
      constructor
      · rintro ⟨hactive, i', t', rs', hst', hrefused⟩
        obtain ⟨-, rfl, rfl⟩ := hst.unique hst'
        exact ⟨hactive, hrefused⟩
      · rintro ⟨hactive, hrefused⟩
        exact ⟨hactive, i, t, rs, hst, hrefused⟩
    rw [heq, hends]
    exact end_transaction h hbegin (insertRows_transaction i now { s with db } rs)
      ((insertRows i now { s with db } rs).1.isOk = true)

theorem dbDeleteRecordsByField_transaction {s : Store} (h : s.db.TransactionOk) (now : Int)
    (tableName fieldName : Option CString) (value : Option (List UInt8)) :
    (s.EndsTransaction now (.deleteRecordsByField tableName fieldName value) →
      (dbDeleteRecordsByField s now tableName fieldName value).2.db.transaction = (false, 0)) ∧
    (¬s.EndsTransaction now (.deleteRecordsByField tableName fieldName value) →
      (dbDeleteRecordsByField s now tableName fieldName value).2.db.transaction =
        s.db.transaction) := by
  rcases dbDeleteRecordsByField_cases s now tableName fieldName value with
    ⟨hno, e, heq⟩ | ⟨i, t, j, v, db, hst, hbegin, htables, heq⟩
  · rw [heq]
    refine ⟨?_, fun _ => rfl⟩
    rintro ⟨-, i, t, j, v, hst, -⟩
    exact absurd hst (hno i t j v)
  · have hnone : ¬t.records.any (recordMatches t j v) = true ↔
        ∀ r ∈ t.records, recordMatches t j v r = false := by simp
    have hends : s.EndsTransaction now (.deleteRecordsByField tableName fieldName value) ↔
        s.db.transactionActive = true ∧ ¬t.records.any (recordMatches t j v) = true := by
      rw [hnone]
      constructor
      · rintro ⟨hactive, i', t', j', v', hst', hnone⟩
        obtain ⟨-, rfl, rfl, rfl⟩ := hst.unique hst'
        exact ⟨hactive, hnone⟩
      · rintro ⟨hactive, hnone⟩
        exact ⟨hactive, i, t, j, v, hst, hnone⟩
    have htx : (db.setTable i (t.step (.sweep j v))).transaction = db.transaction := rfl
    rw [heq, hends]
    exact end_transaction h hbegin htx (t.records.any (recordMatches t j v) = true)

/-- What a data operation does to the counters: it clears them if it ends the caller's transaction,
and otherwise leaves them as it found them. -/
theorem dataStep_transaction {s : Store} (h : s.db.TransactionOk) (now : Int) (c : DataCall) :
    (s.EndsTransaction now c → (s.dataStep now c).db.transaction = (false, 0)) ∧
    (¬s.EndsTransaction now c → (s.dataStep now c).db.transaction = s.db.transaction) := by
  cases c with
  | insertRecord tableName values =>
    refine ⟨False.elim, fun _ => ?_⟩
    rw [Store.dataStep]
    unfold dbInsertRecord
    split
    · split
      · rfl
      · exact withLocalTransaction_transaction h _ _ _ _ fun s => insertInto_transaction s _ _ _
    · rfl
  | updateRecord tableName id values =>
    refine ⟨False.elim, fun _ => ?_⟩
    rw [Store.dataStep]
    unfold dbUpdateRecord
    split
    · split
      · rfl
      · exact withLocalTransaction_transaction h _ _ _ _ fun s => updateIn_transaction s _ _ _ _
    · rfl
  | deleteRecord tableName id =>
    refine ⟨False.elim, fun _ => ?_⟩
    rw [Store.dataStep]
    unfold dbDeleteRecord
    split
    · split
      · rfl
      · exact withLocalTransaction_transaction h _ _ _ _ fun s => deleteFrom_transaction s _ _
    · rfl
  | batchInsertRecords tableName rows =>
    exact dbBatchInsertRecords_transaction h now tableName rows
  | deleteRecordsByField tableName fieldName value =>
    exact dbDeleteRecordsByField_transaction h now tableName fieldName value

/-! ### Every reachable state -/

theorem Database.TransactionOk.congr {db db' : Database} (h : db.TransactionOk)
    (htx : db'.transaction = db.transaction) : db'.TransactionOk := by
  obtain ⟨ha, hl⟩ := Prod.mk.inj htx
  unfold TransactionOk
  rw [ha, hl]
  exact h

theorem Database.transactionOk_of_cleared {db : Database} (h : db.transaction = (false, 0)) :
    db.TransactionOk := by
  obtain ⟨ha, hl⟩ := Prod.mk.inj h
  rw [TransactionOk, ha, hl]
  rfl

theorem dbBeginTransaction_transactionOk {db : Database} (h : db.TransactionOk) (now : Int) :
    (dbBeginTransaction db now).2.TransactionOk := by
  rcases dbBeginTransaction_cases db now with
    ⟨-, -, heq⟩ | ⟨ha, hl, db', heq, -, htx⟩ | ⟨-, db', heq, -, htx⟩
  · rwa [heq]
  all_goals
    obtain ⟨ha', hl'⟩ := Prod.mk.inj htx
    rw [heq, Database.TransactionOk, ha', hl', if_pos rfl]
  · omega
  · decide

theorem dbCommitTransaction_transactionOk {db : Database} (h : db.TransactionOk) :
    (dbCommitTransaction db).2.TransactionOk := by
  cases ha : db.transactionActive with
  | false =>
    unfold dbCommitTransaction
    rw [ha]
    exact h
  | true =>
    rw [Database.TransactionOk, if_pos ha] at h
    obtain ⟨n, hn⟩ : ∃ n, db.transactionLevel = n + 1 := ⟨db.transactionLevel - 1, by omega⟩
    obtain ⟨ha', hl'⟩ := Prod.mk.inj (dbCommitTransaction_transaction (Prod.ext ha hn))
    rw [Database.TransactionOk, ha', hl']
    split_ifs with hpos
    · have := of_decide_eq_true hpos
      omega
    · have := of_decide_eq_false (eq_false_of_ne_true hpos)
      omega

theorem dbRollbackTransaction_transactionOk {db : Database} (h : db.TransactionOk) :
    (dbRollbackTransaction db).2.TransactionOk := by
  cases ha : db.transactionActive with
  | false =>
    unfold dbRollbackTransaction
    rw [ha]
    exact h
  | true =>
    exact Database.transactionOk_of_cleared (dbRollbackTransaction_transaction (Prod.ext ha rfl))

theorem dbAddTable_transaction (db : Database) (name : Option CString)
    (fields : Option (List (Option CString × FieldType))) :
    (dbAddTable db name fields).2.transaction = db.transaction := by
  unfold dbAddTable
  split
  · split_ifs
    · rfl
    · split <;> rfl
    · rfl
    · rfl
  · rfl

theorem createTableInteractive_transaction (db : Database) (name : CString)
    (fields : List (CString × FieldType)) (ks : List Constraint) :
    (createTableInteractive db name fields ks).2.transaction = db.transaction := by
  have hadd := dbAddTable_transaction db (some name) (some (fields.map fun f => (some f.1, f.2)))
  unfold createTableInteractive
  split
  next db' heq =>
    rw [heq] at hadd
    split <;> exact hadd
  next => exact hadd

theorem dbCreateIndex_transaction (db : Database) (tableName fieldName : Option CString)
    (type : IndexType) :
    (dbCreateIndex db tableName fieldName type).2.transaction = db.transaction := by
  unfold dbCreateIndex
  repeat' split
  all_goals rfl

theorem dbDropIndex_transaction (db : Database) (tableName fieldName : Option CString) :
    (dbDropIndex db tableName fieldName).2.transaction = db.transaction := by
  unfold dbDropIndex
  repeat' split
  all_goals rfl

/-- Every call keeps the counters within their bounds. -/
theorem Store.step_transactionOk {s : Store} (h : s.db.TransactionOk) (c : Call) :
    (s.step c).db.TransactionOk := by
  cases c with
  | data now c =>
    obtain ⟨hends, hkeeps⟩ := dataStep_transaction h now c
    by_cases he : s.EndsTransaction now c
    · exact Database.transactionOk_of_cleared (hends he)
    · exact h.congr (hkeeps he)
  | beginTransaction now => exact dbBeginTransaction_transactionOk h now
  | commitTransaction => exact dbCommitTransaction_transactionOk h
  | rollbackTransaction => exact dbRollbackTransaction_transactionOk h
  | addTable name fields => exact h.congr (dbAddTable_transaction s.db name fields)
  | createTable name fields ks => exact h.congr (createTableInteractive_transaction s.db name fields ks)
  | tableInsert i now values => exact h.congr (insertInto_transaction s i now values)
  | tableUpdate i now id values => exact h.congr (updateIn_transaction s i now id values)
  | tableDelete i id => exact h.congr (deleteFrom_transaction s i id)
  | createIndex tableName fieldName type =>
    exact h.congr (dbCreateIndex_transaction s.db tableName fieldName type)
  | dropIndex tableName fieldName => exact h.congr (dbDropIndex_transaction s.db tableName fieldName)
  | moveCounter counter => exact h

theorem Store.Reachable.transactionOk {s : Store} (h : s.Reachable) : s.db.TransactionOk := by
  refine Reach.invariant (P := fun s : Store => s.db.TransactionOk) ?_ ?_ h
  · rintro s rfl
    rfl
  · exact fun s c hs _ => Store.step_transactionOk hs c

/-- **The calls that leave the caller's transaction as they found it**: from any reachable state,
all but those of `EndsTransaction`. -/
theorem dataStep_transaction_iff {s : Store} (h : s.Reachable) (now : Int) (c : DataCall) :
    ((s.dataStep now c).db.transactionActive = s.db.transactionActive ∧
      (s.dataStep now c).db.transactionLevel = s.db.transactionLevel) ↔
    ¬s.EndsTransaction now c := by
  obtain ⟨hends, hkeeps⟩ := dataStep_transaction h.transactionOk now c
  constructor
  · rintro ⟨ha, -⟩ he
    have hactive : s.db.transactionActive = true := by
      cases c with
      | batchInsertRecords tableName rows => exact he.1
      | deleteRecordsByField tableName fieldName value => exact he.1
      | _ => exact he.elim
    rw [(Prod.mk.inj (hends he)).1, hactive] at ha
    contradiction
  · intro he
    exact Prod.mk.inj (hkeeps he)

/-- A store with one empty table, inside a transaction. -/
def openStore : Store := run Store.step ⟨dbCreate, 1000⟩
  [.addTable (some (cstr "t")) (some [(some (cstr "id"), .int)]), .beginTransaction 0]

theorem openStore_reachable : openStore.Reachable := by
  have hinit : Store.Init ⟨dbCreate, 1000⟩ := rfl
  exact Reach.run (.start hinit) (Admits.of_forall (fun _ _ => trivial) _ _)

/-- An update of an absent record, which is refused, leaves the transaction open. -/
theorem dataStep_transaction_iff_refused :
    (openStore.dataStep 0 (.updateRecord (some (cstr "t")) 9 (some []))).db.transactionLevel = 1 := by
  have h := (dataStep_transaction_iff openStore_reachable 0
    (.updateRecord (some (cstr "t")) 9 (some []))).mpr id
  exact h.2.trans (by decide)

/-- A delete that matches nothing ends the caller's transaction. -/
theorem dataStep_ends_transaction :
    ¬∀ s : Store, s.Reachable → ∀ now c,
      (s.dataStep now c).db.transactionActive = s.db.transactionActive ∧
      (s.dataStep now c).db.transactionLevel = s.db.transactionLevel := by
  intro h
  have hkept := h openStore openStore_reachable 0
    (.deleteRecordsByField (some (cstr "t")) (some (cstr "id")) (some (intBytes 9)))
  exact absurd hkept (by decide)

end Luminix
