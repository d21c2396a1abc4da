import Luminix.Equiv.FiniteMap
import Luminix.Equiv.PrimaryKey

/-!
# Generated ids

`generate_record_id` takes the next id after the highest one that is stored, or the counter if that
is larger.  It does not look at `next_record_id`, which every insert keeps above all ids that were
ever given out (`used_lt_nextRecordId`).  So an id can come back once its record has been deleted,
and `generated_ids_fresh_iff` says when it does.
-/

namespace Luminix

open CLib KeyedList Machine

/-- A table, and the ids its records have had so far. -/
structure IdHistory where
  table : Table
  used : List Int

/-- A call, after which the ids of all records count as used. -/
def IdHistory.step (s : IdHistory) (c : TableCall) : IdHistory :=
  ⟨s.table.step c, (s.table.step c).records.map Record.id ++ s.used⟩

/-- **An insert without a key gives out an id that no record has had.** -/
def IdHistory.GeneratesFresh (s : IdHistory) : TableCall → Prop
  | .insert counter now (some vs) => explicitKey s.table.columns vs = -1 →
    ∀ id, (tableInsertRecord s.table counter now (some vs)).1 = .ok id → id ∉ s.used
  | _ => True

/-- No record that was deleted had the next id after the highest one stored, where that is above the
counter, or else the counter as its id. -/
def IdHistory.NextUnused (s : IdHistory) : TableCall → Prop
  | .insert counter _ (some vs) => insertCheck s.table vs = .success →
    explicitKey s.table.columns vs = -1 → ∀ id ∈ s.used,
      (counter ≤ maxRecordId s.table.records → id ≠ maxRecordId s.table.records + 1) ∧
        (maxRecordId s.table.records < counter → id ≠ counter)
  | _ => True

instance (s : IdHistory) : ∀ c : TableCall, Decidable (s.NextUnused c)
  | .insert _ _ (some vs) =>
    inferInstanceAs (Decidable (insertCheck s.table vs = .success → _ → ∀ id ∈ s.used, _))
  | .insert _ _ none | .update .. | .delete _ | .sweep .. | .setIndexes _ => .isTrue trivial

/-! ### One call -/

/-- The generated id, as long as the highest one is below `INT_MAX`. -/
theorem generateRecordId_eq {t : Table} (hids : t.IdsBelow) (counter : Int) :
    (generateRecordId t counter).1 =
      if maxRecordId t.records < counter then counter else maxRecordId t.records + 1 := by
  obtain ⟨h0, -, hmax⟩ := maxRecordId_spec t.records
  have hlt : maxRecordId t.records < intMax := by
    rcases hmax with h | ⟨r, hr, h⟩
    · rw [h]
      decide
    · exact h ▸ hids r hr
  have hwrap : intWrap (maxRecordId t.records + 1) = maxRecordId t.records + 1 := by
    simp only [intMax] at hlt
    exact intWrap_eq_self ⟨by omega, by omega⟩
  unfold generateRecordId
  rw [hwrap]
  dsimp only
  split_ifs <;> first | rfl | omega

/-- **A call gives out a fresh id exactly if the next one is unused.** -/
theorem generatesFresh_iff {s : IdHistory} (hids : s.table.IdsBelow) (c : TableCall) :
    s.GeneratesFresh c ↔ s.NextUnused c := by
  cases c with
  | insert counter now values =>
    cases values with
    | none => exact Iff.rfl
    | some vs =>
      have hchoose : explicitKey s.table.columns vs = -1 →
          chooseRecordId s.table counter vs = generateRecordId s.table counter := fun h => if_pos h
      have heq := generateRecordId_eq hids counter
      constructor
      · intro hfresh hcheck hkey id hid
        -- Without a key the insert succeeds, since a generated id is never stored.
        have hl := lookup_generateRecordId hids counter
        rw [← hchoose hkey] at hl
        have hok := hfresh hkey _ (congrArg Prod.fst (tableInsertRecord_of_accepted hcheck hl))
        rw [hchoose hkey, heq] at hok
        constructor
        · rintro hle rfl
          rw [if_neg (by omega)] at hok
          exact hok hid
        · rintro hlt rfl
          rw [if_pos hlt] at hok
          exact hok hid
      · intro hunused hkey id hok hid
        rcases tableInsertRecord_cases s.table counter now (some vs) with
          ⟨e, k, hres⟩ | ⟨vs', id', k, hvs, hcheck, hid', -, hres⟩
        · rw [hres] at hok
          cases hok
        · obtain rfl := Option.some.inj hvs
          obtain rfl : id' = id := by
            rw [hres] at hok
            exact Except.ok.inj hok
          have hgen : id' = if maxRecordId s.table.records < counter then counter
              else maxRecordId s.table.records + 1 := by
            rw [← heq, ← hchoose hkey, hid']
          obtain ⟨hmax, hcounter⟩ := hunused hcheck hkey id' hid
          split_ifs at hgen with hlt
          · exact hcounter hlt hgen
          · exact hmax (by omega) hgen
  | update now id values => exact Iff.rfl
  | delete id => exact Iff.rfl
  | sweep j value => exact Iff.rfl
  | setIndexes indexes => exact Iff.rfl

/-! ### Runs -/

theorem table_run_idHistory (s : IdHistory) (calls : List TableCall) :
    (run IdHistory.step s calls).table = run Table.step s.table calls := by
  induction calls generalizing s with
  | nil => rfl
  | cons c calls ih => exact ih (s.step c)

/-! ### The high-water mark -/

/-- `next_record_id` never goes down. -/
theorem nextRecordId_le_step {t : Table} (h : t.HighWater) {c : TableCall}
    (hids : (t.step c).IdsBelow) : t.nextRecordId ≤ (t.step c).nextRecordId := by
  cases c with
  | insert counter now values =>
    rcases tableInsertRecord_cases t counter now values with
      ⟨e, k, heq⟩ | ⟨vs, id, k, -, -, -, -, heq⟩
    · rw [Table.step, heq]
    · rw [Table.step, heq] at hids ⊢
      -- an id below `INT_MAX` does not wrap the mark around
      have hmax : id < intMax := hids (newRecord t id now vs) List.mem_cons_self
      show t.nextRecordId ≤ if t.nextRecordId ≤ id then intWrap (id + 1) else t.nextRecordId
      split_ifs with hle
      · have hpos := h.1
        simp only [intMax] at hmax
        rw [intWrap_eq_self ⟨by omega, by omega⟩]
        omega
      · exact Int.le_refl _
  | update now id values =>
    rcases tableUpdateRecord_cases t now id values with
      ⟨-, heq⟩ | ⟨vs, -, -, heq⟩ | ⟨vs, r, fields, -, -, -, heq⟩ | ⟨vs, r, fields, -, -, -, heq⟩
    all_goals rw [Table.step, heq]
  | delete id =>
    rcases tableDeleteRecord_cases t id with ⟨-, heq⟩ | ⟨-, heq⟩
    all_goals rw [Table.step, heq]
  | sweep j value => exact Int.le_refl _
  | setIndexes indexes => exact Int.le_refl _

/-- **`next_record_id` is above every id that was ever used**, so that it could be given out. -/
theorem used_lt_nextRecordId {t : Table} (hfresh : t.Fresh) {calls : List TableCall}
    (hids : ∀ pre, pre <+: calls → (run Table.step t pre).IdsBelow) :
    ∀ id ∈ (run IdHistory.step ⟨t, []⟩ calls).used,
      id < (run Table.step t calls).nextRecordId := by
  -- no id that was ever used reaches the high-water mark
  let P : IdHistory → Prop := fun s => s.table.HighWater ∧ ∀ id ∈ s.used, id < s.table.nextRecordId
  have hadm : Admits IdHistory.step (fun s c => (s.step c).table.IdsBelow) ⟨t, []⟩ calls := by
    have htrue : Admits IdHistory.step (fun _ _ => True) ⟨t, []⟩ calls :=
      Admits.of_forall (fun _ _ => trivial) _ _
    refine (admits_congr fun pre c hpre => iff_true_intro ?_).mpr htrue
    show ((run IdHistory.step ⟨t, []⟩ pre).table.step c).IdsBelow
    have hbelow := hids (pre ++ [c]) hpre
    rw [run_append] at hbelow
    rwa [table_run_idHistory]
  have hP : P (run IdHistory.step ⟨t, []⟩ calls) := by
    refine run_invariant (P := P) ?_ ⟨hfresh.highWater, by simp⟩ hadm
    rintro s c ⟨hhigh, hused⟩ hbelow
    have hhigh' := hhigh.step c hbelow
    refine ⟨hhigh', fun id hid => ?_⟩
    rcases List.mem_append.mp hid with hnew | hold
    · obtain ⟨r, hr, rfl⟩ := List.mem_map.mp hnew
      exact hhigh'.2 r hr
    · exact (hused id hold).trans_le (nextRecordId_le_step hhigh hbelow)
  have hlast := hP.2
  rwa [table_run_idHistory] at hlast

/-- **Generated ids are fresh throughout a run exactly if the next id is unused at every insert
without a key.**  The mark that a new table keeps is above all of them in any case. -/
theorem generated_ids_fresh_iff {t : Table} {calls : List TableCall}
    (hids : ∀ pre, pre <+: calls → (run Table.step t pre).IdsBelow) :
    (Admits IdHistory.step IdHistory.GeneratesFresh ⟨t, []⟩ calls ↔
      Admits IdHistory.step IdHistory.NextUnused ⟨t, []⟩ calls) ∧
    (t.Fresh → ∀ id ∈ (run IdHistory.step ⟨t, []⟩ calls).used,
      id < (run Table.step t calls).nextRecordId) := by
  refine ⟨admits_congr fun pre c hpre => generatesFresh_iff ?_ c,
    fun hfresh => used_lt_nextRecordId hfresh hids⟩
  rw [table_run_idHistory]
  exact hids pre ((List.prefix_append pre [c]).trans hpre)

/-- A NULL as the callers of the interface build it. -/
def Field.null : Field := ⟨default, .null, .zero⟩

/-- Two inserts without a key after one with the key 1005. -/
def keylessCalls : List TableCall :=
  [.insert 1000 0 (some [.ofInt 1005]), .insert 1000 0 (some [.null]), .delete 1005,
    .insert 1000 0 (some [.null])]

theorem generated_ids_fresh_iff_keyless :
    Admits IdHistory.step IdHistory.GeneratesFresh ⟨keyedTable, []⟩ keylessCalls ∧
      ∀ id ∈ (run IdHistory.step ⟨keyedTable, []⟩ keylessCalls).used,
        id < (run Table.step keyedTable keylessCalls).nextRecordId := by
  have hids : ∀ pre ∈ keylessCalls.inits,
      ∀ r ∈ (run Table.step keyedTable pre).records, r.id < intMax := by decide
  have hunused : Admits IdHistory.step IdHistory.NextUnused ⟨keyedTable, []⟩ keylessCalls := by
    decide
  obtain ⟨hiff, hmark⟩ := generated_ids_fresh_iff (t := keyedTable)
    fun pre hpre => hids pre ((List.mem_inits _ _).mpr hpre)
  exact ⟨hiff.mpr hunused, hmark keyedTable_fresh⟩

/-- The record that holds the highest id is deleted, and the next insert gives out its id again. -/
theorem generated_id_reused :
    ¬∀ t : Table, t.Fresh → ∀ calls : List TableCall,
      (∀ pre, pre <+: calls → (run Table.step t pre).IdsBelow) →
        Admits IdHistory.step IdHistory.GeneratesFresh ⟨t, []⟩ calls := by
  intro h
  have hids : ∀ pre ∈ [TableCall.insert 1000 0 (some [.ofInt 2000]), .insert 1000 0 (some [.null]),
      .delete 2001, .insert 1000 0 (some [.null])].inits,
      ∀ r ∈ (run Table.step keyedTable pre).records, r.id < intMax := by decide
  obtain ⟨-, -, -, hlast, -⟩ := h keyedTable keyedTable_fresh
    [.insert 1000 0 (some [.ofInt 2000]), .insert 1000 0 (some [.null]), .delete 2001,
      .insert 1000 0 (some [.null])] fun pre hpre => hids pre ((List.mem_inits _ _).mpr hpre)
  exact hlast (by decide) 2001 (by decide) (by decide)

end Luminix
