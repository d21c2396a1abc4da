import Luminix.Equiv.Transaction

/-!
# The statistics of a table

An insert counts one record in `records_inserted` and a delete one in `records_deleted`, each
together with `record_count`.  `db_delete_records_by_field` lowers the record count only, so the
balance of the two statistics is that of the table exactly until such a call deletes something
(`statistics_balance_iff`).
-/

namespace Luminix

open CLib Machine

/-- **The statistics account for the records** the table has. -/
def Table.Balanced (t : Table) : Prop :=
  t.statistics.recordsInserted - t.statistics.recordsDeleted = t.recordCount

instance (t : Table) : Decidable t.Balanced := inferInstanceAs (Decidable (_ = _))

/-- The delete by field matches no record of the table at `i`. -/
def Store.SweepsNothing (i : Nat) (s : Store) : Call → Prop
  | .data _ (.deleteRecordsByField tableName fieldName value) =>
    ∀ t j v, s.SweepStarts tableName fieldName value i t j v →
      ∀ r ∈ t.records, recordMatches t j v r = false
  | _ => True

theorem Table.Fresh.balanced {t : Table} (h : t.Fresh) : t.Balanced := by
  obtain ⟨-, hcount, -, hstat⟩ := h
  rw [Table.Balanced, hcount, hstat]
  rfl

/-- A table call that sweeps nothing keeps the balance. -/
theorem Table.Balanced.step {t : Table} (h : t.Balanced) {c : TableCall}
    (hc : ∀ j v, c ≠ .sweep j v) : (t.step c).Balanced := by
  unfold Table.Balanced at h ⊢
  cases c with
  | insert counter now values =>
    rcases tableInsertRecord_cases t counter now values with
      ⟨e, c, heq⟩ | ⟨vs, id, c, -, -, -, -, heq⟩
    · rwa [Table.step, heq]
    · rw [Table.step, heq]
      dsimp only [linkRecord]
      omega
  | update now id values =>
    rcases tableUpdateRecord_cases t now id values with
      ⟨-, heq⟩ | ⟨vs, -, -, heq⟩ | ⟨vs, r, fields, -, -, -, heq⟩ | ⟨vs, r, fields, -, -, -, heq⟩
    all_goals rwa [Table.step, heq]
  | delete id =>
    rcases tableDeleteRecord_cases t id with ⟨-, heq⟩ | ⟨-, heq⟩
    · rwa [Table.step, heq]
    · rw [Table.step, heq]
      dsimp only
      omega
  | sweep j v => exact absurd rfl (hc j v)
  | setIndexes indexes => exact h

/-- So do any number of them. -/
theorem Table.Balanced.run {t : Table} (h : t.Balanced) {cs : List TableCall}
    (hcs : ∀ c ∈ cs, ∀ j v, c ≠ .sweep j v) : (run Table.step t cs).Balanced := by
  have hadm : Admits Table.step (fun _ c => ∀ j v, c ≠ .sweep j v) t cs :=
    Admits.of_forall_mem (fun c hc _ => hcs c hc) t
  exact run_invariant (P := Table.Balanced) (fun _ _ ht hc => ht.step hc) h hadm

/-- A sweep keeps it exactly if it matches nothing. -/
theorem balanced_sweep_iff {t : Table} (h : t.Balanced) (j : Nat) (v : List UInt8) :
    (t.step (.sweep j v)).Balanced ↔ ∀ r ∈ t.records, recordMatches t j v r = false := by
  have hcount : (∀ r ∈ t.records, recordMatches t j v r = false) ↔
      t.records.countP (recordMatches t j v) = 0 := by
    simp [List.countP_eq_zero]
  rw [hcount]
  unfold Table.Balanced at h ⊢
  rw [Table.step, deleteMatching, sweepRecords_eq]
  dsimp only
  omega

/-- The table at `i` stays balanced exactly if the call does not sweep records out of it. -/
theorem Store.step_balanced_iff {s : Store} {i : Nat} (h : ∀ t ∈ s.db.tables[i]?, t.Balanced)
    (c : Call) : (∀ t ∈ (s.step c).db.tables[i]?, t.Balanced) ↔ s.SweepsNothing i c := by
  rw [step_forall_iff (fun _ ht _ => ht.balanced) h c]
  constructor
  · intro hbalanced
    cases c with
    | data now c =>
      cases c with
      | deleteRecordsByField tableName fieldName value =>
        intro t j v hst
        exact (balanced_sweep_iff (h t hst.found) j v).mp
          (hbalanced t _ (.deleteRecordsByField hst))
      | _ => trivial
    | _ => trivial
  · intro hsweep t cs hm
    have ht := h t hm.found
    cases hm with
    | deleteRecordsByField hst => exact (balanced_sweep_iff ht _ _).mpr (hsweep t _ _ hst)
    | batchInsertRecords =>
      refine ht.run fun c hc => ?_
      obtain ⟨counter, now, values, rfl⟩ := (mem_insertCalls hc).1
      simp
    | insertRecord | updateRecord | deleteRecord | tableInsert | tableUpdate | tableDelete
    | createIndex | dropIndex => exact ht.run (by simp)

/-- **The statistics of a table balance after every call** exactly if no delete by field matches a
record of it. -/
theorem statistics_balance_iff (i : Nat) (calls : List Call) :
    (∀ pre, pre <+: calls → ∀ t ∈ (run Store.step ⟨dbCreate, 1000⟩ pre).db.tables[i]?, t.Balanced) ↔
      Admits Store.step (Store.SweepsNothing i) ⟨dbCreate, 1000⟩ calls := by
  refine forall_prefix_iff_admits (P := fun s : Store => ∀ t ∈ s.db.tables[i]?, t.Balanced) ?_ ?_
  · intro s c _ h
    exact Store.step_balanced_iff h c
  · intro t ht
    simp [dbCreate] at ht

/-- A record that is inserted and deleted by field counts as inserted only. -/
theorem statistics_unbalanced :
    ¬∀ (i : Nat) (calls : List Call),
      ∀ t ∈ (run Store.step ⟨dbCreate, 1000⟩ calls).db.tables[i]?, t.Balanced := by
  intro h
  have hbalanced := h 0 [.addTable (some (cstr "t")) (some [(some (cstr "id"), .int)]),
    .tableInsert 0 0 (some [.ofInt 5]),
    .data 0 (.deleteRecordsByField (some (cstr "t")) (some (cstr "id")) (some (intBytes 5)))]
  exact absurd hbalanced (by decide)

end Luminix
