import Luminix.Database
import Luminix.Machine.Reach

/-!
# Calls and reachable states

The API as the inputs of a machine.  A `Call` is one call of the database interface with arbitrary
arguments; a `TableCall` is what a call can do to a single table.  `Store.Reachable` and
`Table.Reachable` are the states that calls lead to.
-/

namespace Luminix

open CLib Machine

/-- The five calls that change records through the database. -/
inductive DataCall
  | insertRecord (tableName : Option CString) (values : Option (List Field))
  | updateRecord (tableName : Option CString) (id : Int) (values : Option (List Field))
  | deleteRecord (tableName : Option CString) (id : Int)
  | batchInsertRecords (tableName : Option CString) (rows : Option (List (Option (List Field))))
  | deleteRecordsByField (tableName fieldName : Option CString) (value : Option (List UInt8))
  deriving DecidableEq

/-- The calls of the interface.  `moveCounter` stands for the rest of the process: the counter of
`generate_record_id` is shared by the tables of every open database. -/
inductive Call
  | data (now : Int) (c : DataCall)
  | beginTransaction (now : Int)
  | commitTransaction
  | rollbackTransaction
  | addTable (name : Option CString) (fields : Option (List (Option CString × FieldType)))
  | createTable (name : CString) (fields : List (CString × FieldType))
      (constraints : List Constraint)
  | tableInsert (i : Nat) (now : Int) (values : Option (List Field))
  | tableUpdate (i : Nat) (now id : Int) (values : Option (List Field))
  | tableDelete (i : Nat) (id : Int)
  | createIndex (tableName fieldName : Option CString) (type : IndexType)
  | dropIndex (tableName fieldName : Option CString)
  | moveCounter (counter : Int)
  deriving DecidableEq

/-- The store after a data call. -/
def Store.dataStep (s : Store) (now : Int) : DataCall → Store
  | .insertRecord tableName values => (dbInsertRecord s now tableName values).2
  | .updateRecord tableName id values => (dbUpdateRecord s now tableName id values).2
  | .deleteRecord tableName id => (dbDeleteRecord s now tableName id).2
  | .batchInsertRecords tableName rows => (dbBatchInsertRecords s now tableName rows).2
  | .deleteRecordsByField tableName fieldName value =>
    (dbDeleteRecordsByField s now tableName fieldName value).2

/-- The store after a call, successful or not. -/
def Store.step (s : Store) : Call → Store
  | .data now c => s.dataStep now c
  | .beginTransaction now => { s with db := (dbBeginTransaction s.db now).2 }
  | .commitTransaction => { s with db := (dbCommitTransaction s.db).2 }
  | .rollbackTransaction => { s with db := (dbRollbackTransaction s.db).2 }
  | .addTable name fields => { s with db := (dbAddTable s.db name fields).2 }
  | .createTable name fields ks => { s with db := (createTableInteractive s.db name fields ks).2 }
  | .tableInsert i now values => (s.insertInto i now values).2
  | .tableUpdate i now id values => (s.updateIn i now id values).2
  | .tableDelete i id => (s.deleteFrom i id).2
  | .createIndex tableName fieldName type =>
    { s with db := (dbCreateIndex s.db tableName fieldName type).2 }
  | .dropIndex tableName fieldName => { s with db := (dbDropIndex s.db tableName fieldName).2 }
  | .moveCounter counter => { s with globalCounter := intWrap counter }

/-- A new database in a new process. -/
def Store.Init (s : Store) : Prop := s = ⟨dbCreate, 1000⟩

/-- The states calls lead to. -/
def Store.Reachable : Store → Prop := Reach Store.Init Store.step fun _ _ => True

/-! ### One table -/

/-- What a call can do to one table.  The counter is an argument: it is shared with other tables. -/
inductive TableCall
  | insert (counter now : Int) (values : Option (List Field))
  | update (now id : Int) (values : Option (List Field))
  | delete (id : Int)
  | sweep (j : Nat) (value : List UInt8)
  | setIndexes (indexes : List Index)
  deriving DecidableEq

/-- The table after it. -/
def Table.step (t : Table) : TableCall → Table
  | .insert counter now values => (tableInsertRecord t counter now values).2.1
  | .update now id values => (tableUpdateRecord t now id values).2
  | .delete id => (tableDeleteRecord t id).2
  | .sweep j value => deleteMatching t (recordMatches t j value)
  | .setIndexes indexes => { t with indexes }

/-- A table as `db_add_table` and `create_table_interactive` leave it, with any columns. -/
def Table.Fresh (t : Table) : Prop :=
  t.records = [] ∧ t.recordCount = 0 ∧ t.nextRecordId = 1 ∧ t.statistics = ⟨0, 0, 0⟩

/-- The tables that calls lead to. -/
def Table.Reachable : Table → Prop := Reach Table.Fresh Table.step fun _ _ => True

end Luminix
