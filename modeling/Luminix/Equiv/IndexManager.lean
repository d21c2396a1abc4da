import Luminix.IndexManager
import Mathlib.Data.List.Perm.Basic

/-!
# An index manager is a queue for each column

Indexes on one column may be added more than once.  The one that is found is the one that has been
there longest, and removing takes that one: for each column the manager is a queue
(`index_manager_queues`).  Nothing is read or written outside of its array, and each index that has
been added is freed once, when it is removed or with the manager.
-/

namespace Luminix

open CLib

/-- The manager holds the pointers, at the beginning of its array. -/
structure IndexManager.Holds (manager : IndexManager) (live : List Nat) : Prop where
  live_prefix : live <+: manager.indexes
  count_eq : manager.indexCount = live.length
  length_indexes : manager.indexes.length = manager.indexCapacity
  count_le : manager.indexCount ≤ manager.indexCapacity

variable {manager : IndexManager} {live : List Nat}

theorem holds_indexManagerCreate (fresh : Nat → Nat) : (indexManagerCreate fresh).Holds [] where
  live_prefix := List.nil_prefix
  count_eq := rfl
  length_indexes := length_realloc _ _ _
  count_le := Nat.zero_le _

theorem IndexManager.Holds.take_eq (h : manager.Holds live) :
    manager.indexes.take manager.indexCount = live := by
  obtain ⟨r, hr⟩ := h.live_prefix
  rw [← hr, h.count_eq, List.take_left]

/-- **Adding** enters the pointer behind the others. -/
theorem IndexManager.Holds.addIndex (h : manager.Holds live) (fresh : Nat → Nat) (index : Nat) :
    ∃ manager', indexManagerAddIndex fresh manager index = some manager' ∧
      manager'.Holds (live ++ [index]) := by
  have hle := h.count_le
  have hroom : (manager.withRoom fresh).indexCount = live.length ∧
      live <+: (manager.withRoom fresh).indexes ∧
      (manager.withRoom fresh).indexes.length = (manager.withRoom fresh).indexCapacity ∧
      live.length < (manager.withRoom fresh).indexCapacity := by
    unfold IndexManager.withRoom
    have hcount := h.count_eq
    split_ifs with hfull hzero
    · refine ⟨hcount, h.live_prefix.trans (prefix_realloc ?_ fresh), length_realloc _ _ _, ?_⟩
      · rw [h.length_indexes]
        omega
      · dsimp only
        omega
    · refine ⟨hcount, h.live_prefix.trans (prefix_realloc ?_ fresh), length_realloc _ _ _, ?_⟩
      · rw [h.length_indexes]
        omega
      · dsimp only
        omega
    · exact ⟨hcount, h.live_prefix, h.length_indexes, by omega⟩
  obtain ⟨hcount, hprefix, hlength, hlt⟩ := hroom
  have hspace : live.length + [index].length ≤ (manager.withRoom fresh).indexes.length := by
    rw [hlength, List.length_singleton]
    omega
  obtain ⟨indexes, hwrite, hprefix', hlength'⟩ := exists_writeAt_prefix hprefix hspace
  refine ⟨{ manager.withRoom fresh with indexes, indexCount := _ }, ?_, hprefix', ?_, ?_, hlt⟩
  · rw [indexManagerAddIndex]
    dsimp only
    rw [hcount, hwrite]
    rfl
  · rw [List.length_append, List.length_singleton]
  · exact hlength'.trans hlength

/-- **The loop moves the pointers down.** -/
theorem shiftLoop_append (a : List Nat) (index : Nat) (b r : List Nat) :
    ∃ r', shiftLoop b.length a.length (a ++ index :: (b ++ r)) = some (a ++ (b ++ r')) ∧
      r'.length = r.length + 1 := by
  induction b generalizing a index with
  | nil => exact ⟨index :: r, rfl, rfl⟩
  | cons next b ih =>
    have hget : (a ++ index :: (next :: b ++ r))[a.length + 1]? = some next := by
      rw [List.getElem?_append_right (by omega), Nat.add_sub_cancel_left]
      rfl
    have hwrite : writeAt (a ++ index :: (next :: b ++ r)) a.length [next] =
        some ((a ++ [next]) ++ next :: (b ++ r)) := by
      rw [writeAt_append rfl (by simp)]
      simp
    obtain ⟨r', hloop, hlength⟩ := ih (a ++ [next]) next
    refine ⟨r', ?_, hlength⟩
    rw [List.length_append, List.length_singleton] at hloop
    rw [List.length_cons, shiftLoop, hget]
    dsimp only [Option.bind_eq_bind, Option.bind_some]
    rw [hwrite]
    dsimp only [Option.bind_some]
    rw [hloop]
    simp

variable {heap : Nat → Index}

/-- **Removing** takes the first index on the column out, if there is one. -/
theorem IndexManager.Holds.removeIndex (h : manager.Holds live) (heap : Nat → Index)
    (tableName fieldName : CString) :
    (indexManagerRemoveIndex heap manager tableName fieldName = some (.notFound, manager, []) ∧
      ∀ index ∈ live, (heap index).isOn tableName fieldName = false) ∨
    ∃ a index b manager', live = a ++ index :: b ∧
      (∀ other ∈ a, (heap other).isOn tableName fieldName = false) ∧
      (heap index).isOn tableName fieldName = true ∧
      indexManagerRemoveIndex heap manager tableName fieldName =
        some (.success, manager', [index]) ∧ manager'.Holds (a ++ b) := by
  unfold indexManagerRemoveIndex
  rw [h.take_eq]
  dsimp only
  cases hfind : live.findIdx? fun index => (heap index).isOn tableName fieldName with
  | none => exact .inl ⟨rfl, List.findIdx?_eq_none_iff.mp hfind⟩
  | some i =>
    obtain ⟨hi, hon, hbefore⟩ := List.findIdx?_eq_some_iff_getElem.mp hfind
    have hlive : live = live.take i ++ live[i] :: live.drop (i + 1) := by
      rw [← List.drop_eq_getElem_cons hi, List.take_append_drop]
    have hlength : (live.take i).length = i := List.length_take_of_le hi.le
    -- `r` is what lies in the block behind the indexes
    obtain ⟨r, hr⟩ := h.live_prefix
    have hindexes : manager.indexes = live.take i ++ live[i] :: (live.drop (i + 1) ++ r) := by
      rw [← hr]
      exact (congrArg (· ++ r) hlive).trans (List.append_assoc _ _ _)
    -- the loop moves every index behind the removed one by one place
    have hsteps : manager.indexCount - 1 - i = (live.drop (i + 1)).length := by
      rw [h.count_eq, List.length_drop]
      omega
    obtain ⟨r', hloop, hr'⟩ := shiftLoop_append (live.take i) live[i] (live.drop (i + 1)) r
    rw [hlength] at hloop
    right
    refine ⟨live.take i, live[i], live.drop (i + 1), ⟨live.take i ++ (live.drop (i + 1) ++ r'),
      manager.indexCount - 1, manager.indexCapacity⟩, hlive, fun other hother => ?_, hon, ?_, ?_⟩
    · obtain ⟨j, hj, rfl⟩ := List.mem_take_iff_getElem.mp hother
      exact Bool.eq_false_iff.mpr (hbefore j (by omega))
    · have hget : manager.indexes[i]? = some live[i] := by
        rw [hindexes, List.getElem?_append_right (by omega), hlength, Nat.sub_self]
        rfl
      dsimp only
      rw [hget, hsteps, hindexes, hloop]
      rfl
    · have hcount := h.count_eq
      have hle := h.count_le
      constructor
      · rw [← List.append_assoc]
        exact List.prefix_append _ _
      · dsimp only
        rw [List.length_append, hlength, List.length_drop]
        omega
      · have hbefore := h.length_indexes
        rw [hindexes] at hbefore
        simp only [List.length_append, List.length_cons, hr'] at hbefore ⊢
        omega
      · dsimp only
        omega

/-! ### Queues -/

/-- The queue of a column: an index on it is added at the end, and removed at the front. -/
def columnQueue (heap : Nat → Index) (tableName fieldName : CString) :
    List Nat → List ManagerCall → List Nat
  | queue, [] => queue
  | queue, .addIndex index :: calls =>
    columnQueue heap tableName fieldName
      (if (heap index).isOn tableName fieldName then queue ++ [index] else queue) calls
  | queue, .removeIndex tableName' fieldName' :: calls =>
    columnQueue heap tableName fieldName
      (if tableName' = tableName ∧ fieldName' = fieldName then queue.tail else queue) calls

/-- The pointers that the calls add. -/
def addedIndexes : List ManagerCall → List Nat
  | [] => []
  | .addIndex index :: calls => index :: addedIndexes calls
  | .removeIndex _ _ :: calls => addedIndexes calls

/-- An index is on one column only. -/
theorem Index.isOn_eq_false {index : Index} {tableName fieldName tableName' fieldName' : CString}
    (h : index.isOn tableName' fieldName' = true)
    (hne : ¬(tableName' = tableName ∧ fieldName' = fieldName)) :
    index.isOn tableName fieldName = false := by
  unfold Index.isOn at *
  simp only [Bool.and_eq_true, decide_eq_true_eq] at h
  obtain ⟨rfl, rfl⟩ := h
  simpa using hne

/-- Taking out the first index on one column, seen by another. -/
theorem filter_removed {a b : List Nat} {index : Nat}
    {tableName fieldName tableName' fieldName' : CString}
    (ha : ∀ other ∈ a, (heap other).isOn tableName' fieldName' = false)
    (hon : (heap index).isOn tableName' fieldName' = true) :
    (a ++ b).filter (fun index => (heap index).isOn tableName fieldName) =
      if tableName' = tableName ∧ fieldName' = fieldName then
        ((a ++ index :: b).filter fun index => (heap index).isOn tableName fieldName).tail
      else (a ++ index :: b).filter fun index => (heap index).isOn tableName fieldName := by
  split_ifs with hcolumn
  · obtain ⟨rfl, rfl⟩ := hcolumn
    have hnone : a.filter (fun index => (heap index).isOn tableName' fieldName') = [] :=
      List.filter_eq_nil_iff.mpr fun other hother => by simp [ha other hother]
    have hfirst := List.filter_cons_of_pos
      (p := fun index => (heap index).isOn tableName' fieldName') (l := b) hon
    rw [List.filter_append, List.filter_append, hnone, hfirst]
    rfl
  · have hoff := Index.isOn_eq_false hon hcolumn
    rw [List.filter_append, List.filter_append, List.filter_cons_of_neg (by simp [hoff])]

/-- **A run of calls**: what the manager then holds is, for each column, its queue, and what has
been added is there or has been freed. -/
theorem ManagerState.run_spec (fresh : Nat → Nat) (heap : Nat → Index) {s : ManagerState}
    (h : s.manager.Holds live) (calls : List ManagerCall) :
    ∃ s' live', s.run fresh heap calls = some s' ∧ s'.manager.Holds live' ∧
      (∀ tableName fieldName, live'.filter (fun index => (heap index).isOn tableName fieldName) =
        columnQueue heap tableName fieldName
          (live.filter fun index => (heap index).isOn tableName fieldName) calls) ∧
      (s'.freed ++ live').Perm (s.freed ++ live ++ addedIndexes calls) := by
  induction calls generalizing s live with
  -- a call changes the queue of its column at one end; the induction hypothesis does the rest
  | nil => exact ⟨s, live, rfl, h, fun _ _ => rfl, by rw [addedIndexes, List.append_nil]⟩
  | cons c calls ih =>
    cases c with
    | addIndex index =>
      obtain ⟨manager, hadd, hholds⟩ := h.addIndex fresh index
      obtain ⟨s', live', hrun, hholds', hqueues, hperm⟩ := ih (s := ⟨manager, s.freed⟩) hholds
      refine ⟨s', live', ?_, hholds', fun tableName fieldName => ?_, ?_⟩
      · rw [ManagerState.run, ManagerState.step, hadd]
        exact hrun
      · rw [hqueues, columnQueue, List.filter_append]
        congr 1
        by_cases hon : (heap index).isOn tableName fieldName = true
        · rw [if_pos hon, List.filter_singleton, hon]
          rfl
        · rw [if_neg hon, List.filter_singleton, Bool.eq_false_iff.mpr hon]
          exact List.append_nil _
      · rw [addedIndexes, List.append_cons _ index, List.append_assoc s.freed]
        exact hperm
    | removeIndex tableName' fieldName' =>
      rcases h.removeIndex heap tableName' fieldName' with ⟨hremove, hnone⟩ |
        ⟨a, index, b, manager, rfl, ha, hon, hremove, hholds⟩
      · obtain ⟨s', live', hrun, hholds', hqueues, hperm⟩ :=
          ih (s := ⟨s.manager, s.freed ++ []⟩) h
        refine ⟨s', live', ?_, hholds', fun tableName fieldName => ?_, ?_⟩
        · rw [ManagerState.run, ManagerState.step, hremove]
          exact hrun
        · rw [hqueues, columnQueue]
          split_ifs with hcolumn
          · -- nothing is removed, because the queue is empty
            obtain ⟨rfl, rfl⟩ := hcolumn
            rw [List.filter_eq_nil_iff.mpr fun other hother => by simp [hnone other hother]]
            rfl
          · rfl
        · rw [List.append_nil] at hperm
          exact hperm
      · obtain ⟨s', live', hrun, hholds', hqueues, hperm⟩ :=
          ih (s := ⟨manager, s.freed ++ [index]⟩) hholds
        refine ⟨s', live', ?_, hholds', fun tableName fieldName => ?_, ?_⟩
        · rw [ManagerState.run, ManagerState.step, hremove]
          exact hrun
        · rw [hqueues, columnQueue, filter_removed ha hon]
        -- the removed index moves from the live ones to the freed ones
        · refine hperm.trans (List.Perm.append_right _ ?_)
          rw [List.append_assoc, List.singleton_append]
          exact List.perm_middle.symm.append_left s.freed

/-- **An index manager is a queue for each column**, whatever distinct pointers are added and removed:
looking a column up gives the front of its queue, which has not been freed; reads and writes stay
within the array; and with the manager freed, what has been freed is what has been added, each
once. -/
theorem index_manager_queues (fresh : Nat → Nat) (heap : Nat → Index) {calls : List ManagerCall}
    (hdistinct : (addedIndexes calls).Nodup) :
    ∃ s, ManagerState.run fresh heap ⟨indexManagerCreate fresh, []⟩ calls = some s ∧
      (∀ tableName fieldName, indexManagerGetIndex heap s.manager tableName fieldName =
        (columnQueue heap tableName fieldName [] calls).head?) ∧
      (∀ tableName fieldName index,
        indexManagerGetIndex heap s.manager tableName fieldName = some index → index ∉ s.freed) ∧
      (s.freed ++ indexManagerFree s.manager).Nodup ∧
      (s.freed ++ indexManagerFree s.manager).Perm (addedIndexes calls) := by
  obtain ⟨s, live, hrun, hholds, hqueues, hperm⟩ := ManagerState.run_spec fresh heap
    (s := ⟨indexManagerCreate fresh, []⟩) (holds_indexManagerCreate fresh) calls
  have hperm' : (s.freed ++ indexManagerFree s.manager).Perm (addedIndexes calls) := by
    rw [indexManagerFree, hholds.take_eq]
    exact hperm
  have hnodup := hperm'.nodup_iff.mpr hdistinct
  refine ⟨s, hrun, fun tableName fieldName => ?_, fun tableName fieldName index hfound hfreed => ?_,
    hnodup, hperm'⟩
  · rw [indexManagerGetIndex, hholds.take_eq, ← List.head?_filter]
    exact congrArg List.head? (hqueues tableName fieldName)
  · -- what is found is among the pointers that are there
    have hlive : index ∈ indexManagerFree s.manager := List.mem_of_find?_eq_some hfound
    exact List.disjoint_of_nodup_append hnodup hfreed hlive

/-- The second of three indexes is on another column. -/
def peopleIndexes : Nat → Index
  | 2 => indexCreate (cstr "people") (cstr "name") .btree
  | _ => indexCreate (cstr "people") (cstr "id") .hash

theorem index_manager_queues_three : ∃ s,
    ManagerState.run (fun _ => 0) peopleIndexes ⟨indexManagerCreate fun _ => 0, []⟩
        [.addIndex 1, .addIndex 2, .addIndex 3, .removeIndex (cstr "people") (cstr "id")] =
      some s ∧
    indexManagerGetIndex peopleIndexes s.manager (cstr "people") (cstr "id") = some 3 ∧
    3 ∉ s.freed ∧ (s.freed ++ indexManagerFree s.manager).Nodup ∧
    (s.freed ++ indexManagerFree s.manager).Perm [1, 2, 3] := by
  obtain ⟨s, hrun, hget, hfound, hnodup, hperm⟩ := @index_manager_queues (fun _ => 0) peopleIndexes
    [.addIndex 1, .addIndex 2, .addIndex 3, .removeIndex (cstr "people") (cstr "id")] (by decide)
  have hthird := hget (cstr "people") (cstr "id")
  exact ⟨s, hrun, hthird, hfound _ _ 3 hthird, hnodup, hperm⟩

end Luminix
