import Luminix.Equiv.TableCalls

/-!
# Calls act on each table as table calls

Every call of the database interface leaves each table where it is and changes it by a run of table
calls, or adds a fresh table at the end (`Store.step_tables`).  What table calls preserve therefore
holds of every table of every reachable store (`Store.Reachable.table`).
-/

namespace Luminix

open CLib KeyedList Machine

/-! ### Runs of table calls -/

/-- The list of table calls one call makes: at most one, or the insertions of a batch. -/
def SingleOrInserts (cs : List TableCall) : Prop :=
  cs.length ≤ 1 ∨ ∀ c ∈ cs, ∃ counter now values, c = .insert counter now values

/-- An insertion uses the counter `k`, or one that `generate_record_id` has moved on. -/
def TableCall.CountsFrom (k : Int) : TableCall → Prop
  | .insert counter _ _ => counter = k ∨ IsInt counter
  | _ => True

/-- The counter moves within the range of `int`. -/
def CounterStep (k k' : Int) : Prop := k' = k ∨ IsInt k'

theorem CounterStep.trans {k k' k'' : Int} (h : CounterStep k k') (h' : CounterStep k' k'') :
    CounterStep k k'' := by
  rcases h' with rfl | h'
  · exact h
  · exact .inr h'

/-- Each table of the second list comes from the one at its place in the first by table calls, or is
fresh and beyond the end of the first; the counter was `k` and is now `k'`. -/
structure TablesStep (ts : List Table) (k : Int) (ts' : List Table) (k' : Int) : Prop where
  tables : ∀ (i : Nat) (t' : Table), ts'[i]? = some t' → (ts[i]? = none ∧ t'.Fresh) ∨
    ∃ t cs, ts[i]? = some t ∧ SingleOrInserts cs ∧ (∀ c ∈ cs, c.CountsFrom k) ∧
      t' = run Table.step t cs
  counter : CounterStep k k'

theorem TablesStep.refl (ts : List Table) (k : Int) : TablesStep ts k ts k where
  tables _ t' h := .inr ⟨t', [], h, .inl (by simp), by simp, rfl⟩
  counter := .inl rfl

/-- Rewriting one table by table calls. -/
theorem TablesStep.set {ts : List Table} {i : Nat} {t : Table} (h : ts[i]? = some t)
    {cs : List TableCall} (hcs : SingleOrInserts cs) {k k' : Int}
    (hcount : ∀ c ∈ cs, c.CountsFrom k) (hk : CounterStep k k') :
    TablesStep ts k (ts.set i (run Table.step t cs)) k' := by
  refine ⟨fun j t' ht' => ?_, hk⟩
  obtain ⟨hlt, -⟩ := List.getElem?_eq_some_iff.mp h
  rw [List.getElem?_set] at ht'
  split at ht'
  · subst j
    exact .inr ⟨t, cs, h, hcs, hcount, (Option.some.inj ht').symm⟩
  · exact .inr ⟨t', [], ht', .inl (by simp), by simp, rfl⟩

/-- Adding a fresh table at the end. -/
theorem TablesStep.append {ts : List Table} {t : Table} (h : t.Fresh) (k : Int) :
    TablesStep ts k (ts ++ [t]) k := by
  refine ⟨fun i t' ht' => ?_, .inl rfl⟩
  rcases Nat.lt_trichotomy i ts.length with hlt | heq | hgt
  · rw [List.getElem?_append_left hlt] at ht'
    exact .inr ⟨t', [], ht', .inl (by simp), by simp, rfl⟩
  · rw [List.getElem?_append_right heq.ge, heq] at ht'
    refine .inl ⟨by simp [heq], ?_⟩
    obtain rfl : t = t' := by simpa using ht'
    exact h
  · rw [List.getElem?_append_right hgt.le] at ht'
    have : [t].length ≤ i - ts.length := by simp; omega
    rw [List.getElem?_eq_none this] at ht'
    exact absurd ht' (by simp)

/-! ### The counter -/

/-- The id of a new record is the one its values supply, or generated from the counter. -/
theorem counterStep_chooseRecordId (t : Table) (k : Int) (vs : List Field) :
    CounterStep k (chooseRecordId t k vs).2 := by
  unfold chooseRecordId generateRecordId
  dsimp only
  split_ifs
  · exact .inl rfl
  · exact .inr (isInt_intWrap _)
  · exact .inl rfl

theorem counterStep_tableInsertRecord (t : Table) (k now : Int) (values : Option (List Field)) :
    CounterStep k (tableInsertRecord t k now values).2.2 := by
  cases values with
  | none => exact .inl rfl
  | some vs =>
    rw [tableInsertRecord]
    split
    · dsimp only
      split_ifs
      · exact counterStep_chooseRecordId t k vs
      · exact counterStep_chooseRecordId t k vs
    · exact .inl rfl

theorem counterStep_insertInto (s : Store) (i : Nat) (now : Int) (values : Option (List Field)) :
    CounterStep s.globalCounter (s.insertInto i now values).2.globalCounter := by
  unfold Store.insertInto
  cases s.db.tables[i]? with
  | none => exact .inl rfl
  | some t => exact counterStep_tableInsertRecord t s.globalCounter now values

theorem counterStep_insertRows (i : Nat) (now : Int) (s : Store)
    (rows : List (Option (List Field))) :
    CounterStep s.globalCounter (insertRows i now s rows).2.globalCounter := by
  induction rows generalizing s with
  | nil => exact .inl rfl
  | cons row rows ih =>
    have hrow := counterStep_insertInto s i now row
    rw [insertRows]
    split
    next e s' heq =>
      rw [heq] at hrow
      exact hrow
    next id s' heq =>
      rw [heq] at hrow
      have hall := hrow.trans (ih s')
      split
      next e s'' h => rwa [h] at hall
      next ids s'' h => rwa [h] at hall

/-- **No call but `moveCounter` moves the counter out of the range of `int`.** -/
theorem Store.counterStep (s : Store) (c : Call) :
    CounterStep s.globalCounter (s.step c).globalCounter := by
  cases c with
  | data now c =>
    cases c with
    | insertRecord tableName values =>
      rw [Store.step, Store.dataStep]
      unfold dbInsertRecord
      split
      · split
        · exact .inl rfl
        · exact withLocalTransaction_tables (P := fun _ k => CounterStep s.globalCounter k) _ _ _
            fun s' _ hc => hc ▸ counterStep_insertInto s' _ _ _
      · exact .inl rfl
    | updateRecord tableName id values =>
      rw [Store.step, Store.dataStep]
      unfold dbUpdateRecord
      split
      · split
        · exact .inl rfl
        · refine withLocalTransaction_tables (P := fun _ k => CounterStep s.globalCounter k) _ _ _
            fun s' _ hc => .inl ?_
          unfold Store.updateIn
          split <;> exact hc
      · exact .inl rfl
    | deleteRecord tableName id =>
      rw [Store.step, Store.dataStep]
      unfold dbDeleteRecord
      split
      · split
        · exact .inl rfl
        · refine withLocalTransaction_tables (P := fun _ k => CounterStep s.globalCounter k) _ _ _
            fun s' _ hc => .inl ?_
          unfold Store.deleteFrom
          split <;> exact hc
      · exact .inl rfl
    | batchInsertRecords tableName rows =>
      rcases dbBatchInsertRecords_cases s now tableName rows with
        ⟨-, e, heq⟩ | ⟨i, t, rs, db, -, -, -, heq⟩
      · rw [Store.step, Store.dataStep, heq]
        exact .inl rfl
      · rw [Store.step, Store.dataStep, heq]
        exact counterStep_insertRows i now { s with db } rs
    | deleteRecordsByField tableName fieldName value =>
      rcases dbDeleteRecordsByField_cases s now tableName fieldName value with
        ⟨-, e, heq⟩ | ⟨i, t, j, v, db, -, -, -, heq⟩
      · rw [Store.step, Store.dataStep, heq]
        exact .inl rfl
      · rw [Store.step, Store.dataStep, heq]
        exact .inl rfl
  | tableInsert i now values => exact counterStep_insertInto s i now values
  | tableUpdate i now id values =>
    rw [Store.step]
    unfold Store.updateIn
    split <;> exact .inl rfl
  | tableDelete i id =>
    rw [Store.step]
    unfold Store.deleteFrom
    split <;> exact .inl rfl
  | moveCounter counter => exact .inr (isInt_intWrap _)
  | _ => exact .inl rfl

/-! ### Lifting -/

/-- A batch inserts. -/
theorem mem_insertCalls {now : Int} {t : Table} {k : Int} {rows : List (Option (List Field))}
    {c : TableCall} (h : c ∈ insertCalls now t k rows) :
    (∃ counter now values, c = .insert counter now values) ∧ c.CountsFrom k := by
  induction rows generalizing t k with
  | nil => simp [insertCalls] at h
  | cons row rows ih =>
    rw [insertCalls] at h
    rcases List.mem_cons.mp h with rfl | h
    · exact ⟨⟨_, _, _, rfl⟩, .inl rfl⟩
    · split_ifs at h
      · obtain ⟨hins, hcount⟩ := ih h
        refine ⟨hins, ?_⟩
        -- a counter that the rows after it start from has been moved on, if at all
        obtain ⟨counter, now', values, rfl⟩ := hins
        rcases hcount with hcount | hcount
        · exact hcount ▸ counterStep_tableInsertRecord t k now row
        · exact .inr hcount
      · exact absurd h List.not_mem_nil

theorem Store.Makes.singleOrInserts {s : Store} {c : Call} {i : Nat} {t : Table}
    {cs : List TableCall} (h : s.Makes c i t cs) : SingleOrInserts cs := by
  cases h with
  | batchInsertRecords => exact .inr fun c hc => (mem_insertCalls hc).1
  | _ => exact .inl (by simp)

theorem Store.Makes.countsFrom {s : Store} {c : Call} {i : Nat} {t : Table} {cs : List TableCall}
    (h : s.Makes c i t cs) : ∀ c ∈ cs, c.CountsFrom s.globalCounter := by
  cases h with
  | batchInsertRecords => exact fun c hc => (mem_insertCalls hc).2
  | _ => simp [TableCall.CountsFrom]

/-- **Every call acts on each table by table calls, or adds a fresh one.** -/
theorem Store.step_tables (s : Store) (c : Call) :
    TablesStep s.db.tables s.globalCounter (s.step c).db.tables (s.step c).globalCounter := by
  have hcounter := s.counterStep c
  by_cases hmakes : ∃ i t cs, s.Makes c i t cs
  · obtain ⟨i, t, cs, h⟩ := hmakes
    rw [step_of_makes h]
    exact .set h.found h.singleOrInserts h.countsFrom hcounter
  · rcases step_of_not_makes fun i t cs h => hmakes ⟨i, t, cs, h⟩ with heq | ⟨-, t, hfresh, -, heq⟩
    · rw [heq]
      exact ⟨(TablesStep.refl _ s.globalCounter).tables, hcounter⟩
    · rw [heq]
      exact ⟨(TablesStep.append hfresh s.globalCounter).tables, hcounter⟩

/-- **The tables of a reachable store are reachable.** -/
theorem Store.Reachable.table {s : Store} (h : s.Reachable) {i : Nat} {t : Table}
    (ht : s.db.tables[i]? = some t) : t.Reachable := by
  unfold Store.Reachable at h
  induction h generalizing i t with
  | start h0 =>
    subst h0
    simp [dbCreate] at ht
  | next _ _ ih =>
    rcases (Store.step_tables _ _).tables i t ht with ⟨-, hfresh⟩ | ⟨t0, cs, ht0, -, -, rfl⟩
    · exact .start hfresh
    · exact Reach.run (ih ht0) (Admits.of_forall (fun _ _ => trivial) t0 cs)

/-- **The counter and all ids are `int`s.** -/
theorem Store.Reachable.isInt {s : Store} (h : s.Reachable) :
    IsInt s.globalCounter ∧ ∀ t ∈ s.db.tables, t.IntIds := by
  refine Reach.invariant (P := fun s : Store => IsInt s.globalCounter ∧ ∀ t ∈ s.db.tables, t.IntIds)
    (fun s hs => ?_) (fun s c hs _ => ?_) h
  · subst hs
    exact ⟨⟨by decide, by decide⟩, fun t ht => absurd ht List.not_mem_nil⟩
  · obtain ⟨hcounter, hids⟩ := hs
    have hstep := s.step_tables c
    constructor
    · rcases hstep.counter with heq | hint
      · rwa [heq]
      · exact hint
    · intro t' ht'
      obtain ⟨i, hi⟩ := List.mem_iff_getElem?.mp ht'
      rcases hstep.tables i t' hi with ⟨-, hfresh⟩ | ⟨t, cs, ht, -, hcount, rfl⟩
      · intro r hr
        rw [hfresh.1] at hr
        exact absurd hr List.not_mem_nil
      · -- Every counter of the run is the one of the store, or has been moved on.
        have hrun : Admits Table.step (fun _ c => c.CountsFrom s.globalCounter) t cs :=
          Admits.of_forall_mem (fun c hc _ => hcount c hc) t
        refine run_invariant (P := Table.IntIds) (fun t c ht hc => ht.step ?_)
          (hids t (List.mem_of_getElem? ht)) hrun
        rintro counter now vs rfl
        rcases hc with rfl | hint
        · exact hcounter
        · exact hint

/-- The ids of the `i`-th table, if there is one, are below `INT_MAX`. -/
def Store.IdsBelowAt (i : Nat) (s : Store) : Prop := ∀ t ∈ s.db.tables[i]?, t.IdsBelow

instance (t : Table) : Decidable t.IdsBelow := by unfold Table.IdsBelow; infer_instance

instance (i : Nat) (s : Store) : Decidable (s.IdsBelowAt i) := by
  unfold Store.IdsBelowAt
  infer_instance

/-- Insertions add records at the head of the list. -/
theorem records_suffix_inserts (t : Table) {cs : List TableCall}
    (hcs : ∀ c ∈ cs, ∃ counter now values, c = TableCall.insert counter now values) :
    t.records <:+ (run Table.step t cs).records := by
  induction cs generalizing t with
  | nil => exact List.suffix_refl _
  | cons c cs ih =>
    have htail := ih (t.step c) fun c' hc => hcs c' (List.mem_cons_of_mem c hc)
    obtain ⟨counter, now, values, rfl⟩ := hcs c List.mem_cons_self
    refine List.IsSuffix.trans ?_ htail
    rcases tableInsertRecord_cases t counter now values with
      ⟨e, c, heq⟩ | ⟨vs, id, c, -, -, -, -, heq⟩
    · rw [Table.step, heq]
    · rw [Table.step, heq]
      exact List.suffix_cons _ _

/-- A call whose last state has no id at `INT_MAX` keeps the high-water mark. -/
theorem Table.HighWater.run {t : Table} (h : t.HighWater) {cs : List TableCall}
    (hcs : SingleOrInserts cs) (hids : (run Table.step t cs).IdsBelow) :
    (run Table.step t cs).HighWater := by
  rcases hcs with hlen | hins
  · match cs, hlen with
    | [], _ => exact h
    | [c], _ => exact h.step c hids
  · -- An id that an insertion enters is still there at the end of the batch.
    induction cs generalizing t with
    | nil => exact h
    | cons c cs ih =>
      have hins' := fun c' hc => hins c' (List.mem_cons_of_mem c hc)
      have hsub := (records_suffix_inserts (t.step c) hins').subset
      exact ih (h.step c fun r hr => hids r (hsub hr)) hids hins'

/-- **The record list of every table.**  In every state that calls lead to while the ids of the
`i`-th table stay below `INT_MAX`, its ids are distinct and below `next_record_id`, its count is the
length of the list and within the limit, and its records are full. -/
theorem table_records_wellFormed {i : Nat} {s : Store}
    (h : Reach Store.Init Store.step (fun s c => (s.step c).IdsBelowAt i) s) {t : Table}
    (ht : s.db.tables[i]? = some t) :
    (t.records.map Record.id).Nodup ∧
    t.recordCount = t.records.length ∧ t.recordCount ≤ maxRecordsPerTable ∧
    (∀ r ∈ t.records, r.fields.length = t.fieldCount ∧ r.fieldCount = t.fieldCount) ∧
    ∀ r ∈ t.records, r.id < t.nextRecordId := by
  have hinv := (Store.Reachable.table (h.mono fun _ _ _ => trivial) ht).inv
  suffices hw : t.HighWater from
    ⟨hinv.ids_nodup, hinv.count_eq, hinv.count_le, hinv.fields_length, hw.2⟩
  clear hinv
  induction h generalizing t with
  | start h0 =>
    subst h0
    simp [dbCreate] at ht
  | next _ hids ih =>
    have hbelow := hids t ht
    rcases (Store.step_tables _ _).tables i t ht with ⟨-, hfresh⟩ | ⟨t0, cs, ht0, hcs, -, rfl⟩
    · exact hfresh.highWater
    · exact (ih ht0).run hcs hbelow

/-- A table with an `INT` key, after an insert and a refused insert of the same key. -/
theorem table_records_wellFormed_twice :
    let calls : List Call := [.addTable (some (cstr "t")) (some [(some (cstr "id"), .int)]),
      .tableInsert 0 0 (some [.ofInt 5]), .tableInsert 0 0 (some [.ofInt 5])]
    let s := run Store.step ⟨dbCreate, 1000⟩ calls
    ∃ t, s.db.tables[0]? = some t ∧ t.records.length = 1 ∧ t.recordCount = t.records.length := by
  intro calls s
  have hinit : Store.Init ⟨dbCreate, 1000⟩ := rfl
  have hadm : Admits Store.step (fun s c => (s.step c).IdsBelowAt 0) ⟨dbCreate, 1000⟩ calls := by
    decide
  have hreach := Reach.run (.start hinit) hadm
  have hsome : (s.db.tables[0]?).isSome = true := by decide
  obtain ⟨t, ht⟩ := Option.isSome_iff_exists.mp hsome
  have hlen : ∀ t ∈ s.db.tables[0]?, t.records.length = 1 := by decide
  exact ⟨t, ht, hlen t ht, (table_records_wellFormed hreach ht).2.1⟩

end Luminix
