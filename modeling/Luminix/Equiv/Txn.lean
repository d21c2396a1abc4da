import Luminix.Txn
import Mathlib.Data.List.Nodup
import Mathlib.Data.List.Range

/-!
# Threads and transactions

In every schedule of the threads the ids of `generate_txn_id` are 1, 2, 3 and so on, in the order in
which the mutex is released, and no thread waits for ever for one that is inside
(`txn_ids_serial`).  A transaction is ended by the first commit or rollback, whatever follows, and
each of its blocks is freed once (`transaction_ended_once`).
-/

namespace Luminix

open CLib Machine

/-! ### Ids -/

/-- Alone, `generate_txn_id` gives the counter and moves it by one. -/
theorem whole_generateTxnId (next : Int) :
    Critical.whole generateTxnId 0 next = (intWrap (next + 1), next) := rfl

/-- One thread after the other, the ids count from 1. -/
theorem serial_generateTxnId {n : Nat} (hn : n < 2 ^ 31) :
    (Critical.serial generateTxnId 0 1 n).1 = (List.range n).map (fun k : Nat => (k : Int) + 1) ∧
      (n + 1 < 2 ^ 31 → (Critical.serial generateTxnId 0 1 n).2 = (n : Int) + 1) := by
  induction n with
  | zero => exact ⟨rfl, fun _ => rfl⟩
  | succ n ih =>
    obtain ⟨hids, hnext⟩ := ih (by omega)
    rw [Critical.serial]
    dsimp only
    rw [hnext hn, whole_generateTxnId, hids]
    refine ⟨?_, fun h => ?_⟩
    · rw [List.range_succ, List.map_append, List.map_singleton]
    · have hint : IsInt ((n : Int) + 1 + 1) := by
        constructor <;> omega
      rw [intWrap_eq_self hint, Nat.cast_succ]

/-- **The ids of all threads.**  In every schedule, while fewer than 2³¹ transactions have been
begun, their ids are 1, 2, 3 and so on, in the order of release, so no two have the same; at most
one thread is between the lock and the unlock, and it comes to the unlock without the others. -/
theorem txn_ids_serial {π : Type} [DecidableEq π] {s : TxnThreads π} (h : s.Reachable)
    (hn : s.begun.length < 2 ^ 31) :
    s.begun.map Transaction.id = (List.range s.begun.length).map (fun k : Nat => (k : Int) + 1) ∧
    (s.begun.map Transaction.id).Nodup ∧
    (∀ p q, s.phase p ≠ .outside → s.phase q ≠ .outside → p = q) ∧
    ∀ p, s.phase p ≠ .outside → ∃ n,
      (run (Critical.step generateTxnId 0) s
        (List.replicate n (.advance p) ++ [.release p])).owner = none := by
  have hlength : s.begun.length = s.results.length := List.length_map _
  have hids : s.begun.map Transaction.id =
      (List.range s.begun.length).map (fun k : Nat => (k : Int) + 1) := by
    rw [hlength] at hn ⊢
    rw [TxnThreads.begun, List.map_map]
    exact (Critical.Reachable.results_eq h).trans (serial_generateTxnId hn).1
  refine ⟨hids, ?_, fun p q hp hq => ?_, fun p hp => ?_⟩
  · rw [hids]
    refine List.nodup_range.map fun k k' hk => ?_
    exact_mod_cast add_right_cancel hk
  · have hown := (Critical.Reachable.inside_iff h p).mp hp
    exact Option.some.inj (hown.symm.trans ((Critical.Reachable.inside_iff h q).mp hq))
  · cases hphase : s.phase p with
    | outside => exact absurd hphase hp
    | inside loc rest => exact ⟨rest.length, (Critical.exists_release hphase).1⟩

/-- Two threads: the second waits until the first has its id, then gets the next one. -/
theorem txn_ids_serial_two :
    let s : TxnThreads Bool := run (Critical.step generateTxnId 0) ⟨1, none, fun _ => .outside, []⟩
      [.acquire false, .advance false, .acquire true, .advance true, .advance false,
        .release false, .acquire true, .advance true, .advance true, .release true]
    s.begun.map Transaction.id = [1, 2] ∧ (s.begun.map Transaction.id).Nodup := by
  intro s
  have hinit : Critical.Init 1 (⟨1, none, fun _ => .outside, []⟩ : TxnThreads Bool) :=
    ⟨rfl, rfl, fun _ => rfl, rfl⟩
  have hreach : TxnThreads.Reachable s :=
    Reach.run (.start hinit) (Admits.of_forall (fun _ _ => trivial) _ _)
  have hlength : s.begun.length = 2 := rfl
  obtain ⟨hids, hnodup, -, -⟩ := txn_ids_serial hreach (by omega)
  exact ⟨hids.trans (by rw [hlength]; rfl), hnodup⟩

/-! ### Transactions -/

/-- The first call ends the transaction, and what follows changes nothing but the results of the
commits, all of which fail. -/
theorem run_ended {s : TxnHeap} {txn : Transaction} (htxn : s.txn = some txn)
    (hended : txn.state ≠ .active) (calls : List EndCall) :
    run TxnHeap.step s calls = { s with
      commits := s.commits ++ List.replicate (calls.count .commit) (-1) } := by
  induction calls generalizing s with
  | nil => simp
  | cons c calls ih =>
    have hstep : s.step c = { s with
        commits := s.commits ++ List.replicate ([c].count .commit) (-1) } := by
      cases c with
      | commit => simp [TxnHeap.step, transactionCommit, htxn, hended]
      | rollback => simp [TxnHeap.step, transactionRollback, htxn, hended]
    have hrest := ih (s := { s with
      commits := s.commits ++ List.replicate ([c].count .commit) (-1) }) htxn
    have hcount : ([c] ++ calls).count .commit = [c].count .commit + calls.count .commit :=
      List.count_append
    rw [List.singleton_append] at hcount
    rw [run_cons, hstep, hrest, hcount, List.replicate_add, List.append_assoc]

/-- **A transaction is ended once.**  After any calls of `transaction_commit` and
`transaction_rollback`, the first of which decides, `transaction_free` has freed the operations, the
array and the transaction, each once, and only the first call can have been a commit that
succeeded. -/
theorem transaction_ended_once {txn : Transaction} (h : txn.state = .active) (block : Nat)
    (calls : List EndCall) :
    let s := run TxnHeap.step ⟨some txn, [], []⟩ calls
    s.freed ++ transactionFree block s.txn = txn.operationBlocks ++ [block] ∧
    s.txn.map Transaction.state = some ((calls.head?.map EndCall.state).getD .active) ∧
    s.commits.count 0 = if calls.head? = some .commit then 1 else 0 := by
  intro s
  cases calls with
  | nil => exact ⟨rfl, congrArg some h, rfl⟩
  | cons c calls =>
    have hfirst : TxnHeap.step ⟨some txn, [], []⟩ c = ⟨some (txn.finish c.state),
        txn.operationBlocks, if c = .commit then [0] else []⟩ := by
      cases c <;> simp [TxnHeap.step, transactionCommit, transactionRollback, h, EndCall.state]
    -- from the first call on the transaction is not active any more
    have hended : (txn.finish c.state).state ≠ .active := by
      cases c <;> exact fun heq => TransactionState.noConfusion heq
    have hs : s = { TxnHeap.step ⟨some txn, [], []⟩ c with
        commits := (if c = .commit then [0] else []) ++
          List.replicate (calls.count .commit) (-1) } := by
      show run TxnHeap.step _ calls = _
      rw [hfirst]
      exact run_ended rfl hended calls
    rw [hs, hfirst]
    refine ⟨rfl, rfl, ?_⟩
    dsimp only
    have hfailed : (List.replicate (calls.count .commit) (-1 : Int)).count 0 = 0 :=
      List.count_eq_zero.mpr fun hmem => by cases List.eq_of_mem_replicate hmem
    rw [List.count_append, hfailed, Nat.add_zero]
    cases c <;> rfl

/-- Rolled back after a commit, and with one of its three entries null. -/
theorem transaction_ended_once_committed :
    let txn : Transaction := ⟨1, .active, some (10, [some 11, none, some 12]), 3⟩
    let s := run TxnHeap.step ⟨some txn, [], []⟩ [.commit, .rollback, .commit]
    s.freed ++ transactionFree 9 s.txn = [11, 12, 10, 9] ∧
      s.txn.map Transaction.state = some .committed ∧ s.commits.count 0 = 1 :=
  transaction_ended_once rfl 9 [.commit, .rollback, .commit]

end Luminix
