import Luminix.CLib.Buffer
import Luminix.Types

/-!
# Index managers of their own

The `IndexManager` of `index.c`.  It keeps pointers: what they lead to is a function `heap`, which
nothing changes once `index_create` has filled an index in.  A function has no result where it would
read or write outside of the array of pointers.  An index that has been freed is read again only if
its pointer has been added more than once.
-/

namespace Luminix

open CLib

/-- The array of an `IndexManager`, and how far it is filled. -/
structure IndexManager where
  indexes : List Nat
  indexCount : Nat
  indexCapacity : Nat
  deriving DecidableEq

/-- `index_create`, what it fills in. -/
def indexCreate (tableName fieldName : CString) (type : IndexType) : Index :=
  ⟨tableName.truncate (maxTableName - 1), fieldName.truncate (maxFieldLen - 1), type⟩

/-- `index_manager_create`. -/
def indexManagerCreate (fresh : Nat → Nat) : IndexManager where
  indexes := realloc fresh 16 []
  indexCount := 0
  indexCapacity := 16

/-- The manager with room for one more pointer. -/
def IndexManager.withRoom (fresh : Nat → Nat) (manager : IndexManager) : IndexManager :=
  if manager.indexCapacity ≤ manager.indexCount then
    let newCapacity := if manager.indexCapacity = 0 then 4 else manager.indexCapacity * 2
    { manager with
      indexes := realloc fresh newCapacity manager.indexes
      indexCapacity := newCapacity }
  else manager

/-- `index_manager_add_index`. -/
def indexManagerAddIndex (fresh : Nat → Nat) (manager : IndexManager) (index : Nat) :
    Option IndexManager :=
  let manager := manager.withRoom fresh
  (writeAt manager.indexes manager.indexCount [index]).map fun indexes =>
    { manager with indexes, indexCount := manager.indexCount + 1 }

/-- The index is that of the column. -/
def Index.isOn (index : Index) (tableName fieldName : CString) : Bool :=
  index.tableName = tableName && index.fieldName = fieldName

/-- The loop that moves the pointers behind `j` down, for `n` of them. -/
def shiftLoop : (n : Nat) → (j : Nat) → List Nat → Option (List Nat)
  | 0, _, indexes => some indexes
  | n + 1, j, indexes => do
    let index ← indexes[j + 1]?
    let indexes ← writeAt indexes j [index]
    shiftLoop n (j + 1) indexes

/-- `index_manager_remove_index`: the code, the manager, and the pointer that is freed. -/
def indexManagerRemoveIndex (heap : Nat → Index) (manager : IndexManager)
    (tableName fieldName : CString) : Option (ErrorCode × IndexManager × List Nat) :=
  let live := manager.indexes.take manager.indexCount
  match live.findIdx? fun index => (heap index).isOn tableName fieldName with
  | none => some (.notFound, manager, [])
  | some i => do
    let index ← manager.indexes[i]?
    let indexes ← shiftLoop (manager.indexCount - 1 - i) i manager.indexes
    some (.success, { manager with indexes, indexCount := manager.indexCount - 1 }, [index])

/-- `index_manager_get_index`. -/
def indexManagerGetIndex (heap : Nat → Index) (manager : IndexManager)
    (tableName fieldName : CString) : Option Nat :=
  (manager.indexes.take manager.indexCount).find? fun index =>
    (heap index).isOn tableName fieldName

/-- `index_manager_free`: the pointers to indexes that are freed. -/
def indexManagerFree (manager : IndexManager) : List Nat :=
  manager.indexes.take manager.indexCount

/-! ### Calls -/

/-- A call that changes a manager. -/
inductive ManagerCall
  | addIndex (index : Nat)
  | removeIndex (tableName fieldName : CString)
  deriving DecidableEq

/-- A manager, and the pointers that have been freed. -/
structure ManagerState where
  manager : IndexManager
  freed : List Nat
  deriving DecidableEq

/-- The state after a call. -/
def ManagerState.step (fresh : Nat → Nat) (heap : Nat → Index) (s : ManagerState) :
    ManagerCall → Option ManagerState
  | .addIndex index =>
    (indexManagerAddIndex fresh s.manager index).map fun manager => { s with manager }
  | .removeIndex tableName fieldName =>
    (indexManagerRemoveIndex heap s.manager tableName fieldName).map fun result =>
      ⟨result.2.1, s.freed ++ result.2.2⟩

/-- The state after some calls. -/
def ManagerState.run (fresh : Nat → Nat) (heap : Nat → Index) :
    ManagerState → List ManagerCall → Option ManagerState
  | s, [] => some s
  | s, c :: calls => (s.step fresh heap c).bind fun s => run fresh heap s calls

end Luminix
