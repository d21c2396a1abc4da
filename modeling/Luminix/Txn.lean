import Luminix.CLib.FixedWidth
import Luminix.Machine.Critical

/-!
# Transactions of their own

The transactions of `transaction.c`.  They have nothing to do with those of a `Database`.
`generate_txn_id` is a critical section: threads take turns in it with `g_txn_id_mutex`, and
`g_next_txn_id++` is a read and a write.  A commit and a rollback free the operations of a
transaction, and `transaction_free` frees what they left, and the transaction.
-/

namespace Luminix

open CLib Machine

/-! ### Ids -/

/-- The read of `g_next_txn_id++`, into `id`. -/
def readNextTxnId : Critical.Instruction Int Int := fun x => (x.1, x.1)

/-- The write of `g_next_txn_id++`. -/
def writeNextTxnId : Critical.Instruction Int Int := fun x => (intWrap (x.2 + 1), x.2)

/-- `generate_txn_id` between `pthread_mutex_lock` and `pthread_mutex_unlock`. -/
def generateTxnId : List (Critical.Instruction Int Int) := [readNextTxnId, writeNextTxnId]

/-! ### Transactions -/

/-- `TransactionState`. -/
inductive TransactionState
  | active
  | committed
  | aborted
  deriving DecidableEq

/-- `Transaction`.  `operations` is the block of the array with the blocks its entries point to. -/
structure Transaction where
  id : Int
  state : TransactionState
  operations : Option (Nat × List (Option Nat))
  opCount : Int
  deriving DecidableEq

/-- `transaction_begin`, with the id it has generated. -/
def transactionBegin (id : Int) : Transaction := ⟨id, .active, none, 0⟩

/-! ### Threads -/

/-- The threads of a process that call `transaction_begin`: `results` are the ids they have got. -/
abbrev TxnThreads (π : Type) := Critical.State Int Int π

/-- The states that any schedule of the threads leads to; `g_next_txn_id` is 1 at the start. -/
def TxnThreads.Reachable {π : Type} [DecidableEq π] : TxnThreads π → Prop :=
  Critical.Reachable generateTxnId 0 1

/-- The transactions that the threads have begun, in the order in which they got their ids. -/
def TxnThreads.begun {π : Type} (s : TxnThreads π) : List Transaction :=
  s.results.map fun result => transactionBegin result.2

/-! ### Commit and rollback -/

/-- The blocks that are freed with the operations: the entries that are not null, then the array. -/
def Transaction.operationBlocks (txn : Transaction) : List Nat :=
  match txn.operations with
  | none => []
  | some (array, entries) => (entries.take txn.opCount.toNat).reduceOption ++ [array]

/-- The end that `transaction_commit` and `transaction_rollback` give a transaction. -/
def Transaction.finish (txn : Transaction) (state : TransactionState) : Transaction :=
  { txn with state, operations := none, opCount := 0 }

/-- `transaction_commit`: the result, the transaction, and the blocks that are freed. -/
def transactionCommit (txn : Option Transaction) : Int × Option Transaction × List Nat :=
  match txn with
  | none => (-1, none, [])
  | some txn =>
    if txn.state ≠ .active then (-1, some txn, [])
    else (0, some (txn.finish .committed), txn.operationBlocks)

/-- `transaction_rollback`. -/
def transactionRollback (txn : Option Transaction) : Option Transaction × List Nat :=
  match txn with
  | none => (none, [])
  | some txn =>
    if txn.state ≠ .active then (some txn, [])
    else (some (txn.finish .aborted), txn.operationBlocks)

/-- `transaction_free`: the blocks that are freed; `block` is the one of the transaction. -/
def transactionFree (block : Nat) (txn : Option Transaction) : List Nat :=
  match txn with
  | none => []
  | some txn => txn.operationBlocks ++ [block]

/-! ### Calls -/

/-- A call that may end a transaction. -/
inductive EndCall
  | commit
  | rollback
  deriving DecidableEq

/-- A transaction, the blocks that have been freed, and the results of the commits. -/
structure TxnHeap where
  txn : Option Transaction
  freed : List Nat
  commits : List Int
  deriving DecidableEq

/-- The state after a call. -/
def TxnHeap.step (s : TxnHeap) : EndCall → TxnHeap
  | .commit =>
    let (result, txn, freed) := transactionCommit s.txn
    ⟨txn, s.freed ++ freed, s.commits ++ [result]⟩
  | .rollback =>
    let (txn, freed) := transactionRollback s.txn
    ⟨txn, s.freed ++ freed, s.commits⟩

/-- The state in which the call leaves an active transaction. -/
def EndCall.state : EndCall → TransactionState
  | .commit => .committed
  | .rollback => .aborted

end Luminix
