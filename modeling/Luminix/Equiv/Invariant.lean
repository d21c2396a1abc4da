import Luminix.Equiv.FieldValue
import Luminix.Equiv.Table

/-!
# The table invariant

`Table.Inv` collects what every table call preserves: distinct ids, a record count that is the
length of the list and within its limit, and full records.  `Table.HighWater` says that
`next_record_id` is above every id; a call preserves it as long as no id reaches `INT_MAX`
(`Table.IdsBelow`), where `record_id + 1` would leave the range of `int`.
-/

namespace Luminix

open CLib KeyedList Machine

/-- What holds of a table in every reachable state. -/
structure Table.Inv (t : Table) : Prop where
  ids_nodup : (t.records.map Record.id).Nodup
  count_eq : t.recordCount = t.records.length
  count_le : t.recordCount ≤ maxRecordsPerTable
  fields_length : ∀ r ∈ t.records, r.fields.length = t.fieldCount ∧ r.fieldCount = t.fieldCount
  version_isInt : ∀ r ∈ t.records, IsInt r.version

/-- Every id is smaller than `next_record_id`, which starts at one and only grows. -/
def Table.HighWater (t : Table) : Prop :=
  1 ≤ t.nextRecordId ∧ ∀ r ∈ t.records, r.id < t.nextRecordId

/-- No id is `INT_MAX` or more. -/
def Table.IdsBelow (t : Table) : Prop := ∀ r ∈ t.records, r.id < intMax

/-! ### Preservation -/

theorem Table.Fresh.inv {t : Table} (h : t.Fresh) : t.Inv := by
  obtain ⟨hr, hc, -, -⟩ := h
  refine ⟨?_, ?_, ?_, ?_, ?_⟩
  · simp [hr]
  · simp [hr, hc]
  · rw [hc]
    decide
  · simp [hr]
  · simp [hr]

/-- Linking a record under a new id. -/
theorem Table.Inv.linkRecord {t : Table} (h : t.Inv) {vs : List Field} {id : Int} (now : Int)
    (hc : insertCheck t vs = .success) (hl : lookup Record.id t.records id = none) :
    (linkRecord t id now vs).Inv where
  ids_nodup := by
    show (id :: t.records.map Record.id).Nodup
    refine List.nodup_cons.mpr ⟨fun hmem => ?_, h.ids_nodup⟩
    exact lookup_ne_none_iff.mpr hmem hl
  count_eq := by
    show t.recordCount + 1 = ((_ :: t.records).length : Int)
    rw [h.count_eq, List.length_cons]
    omega
  count_le := by
    have := (insertCheck_eq_success_iff.mp hc).1
    show t.recordCount + 1 ≤ maxRecordsPerTable
    omega
  fields_length := by
    intro r hr
    rcases List.mem_cons.mp hr with rfl | hr
    · exact ⟨length_copyFields _ _, rfl⟩
    · exact h.fields_length r hr
  version_isInt := by
    intro r hr
    rcases List.mem_cons.mp hr with rfl | hr
    · show IsInt 1
      decide
    · exact h.version_isInt r hr

/-- Rewriting a record in place, its id and the number of its fields kept. -/
theorem Table.Inv.modify {t t' : Table} (h : t.Inv) {id : Int} {r : Record} (r' : Record)
    (hl : lookup Record.id t.records id = some r) (hid : r'.id = r.id)
    (hlen : r'.fields.length = r.fields.length) (hcount : r'.fieldCount = r.fieldCount)
    (hver : IsInt r'.version)
    (hrec : t'.records = KeyedList.modify Record.id (fun _ => r') t.records id)
    (hcols : t'.columns = t.columns) (hcnt : t'.recordCount = t.recordCount) : t'.Inv where
  ids_nodup := by
    rw [hrec, map_key_modify fun a ha => ?_]
    · exact h.ids_nodup
    · rw [hid, Option.some.inj (hl.symm.trans ha)]
  count_eq := by rw [hrec, hcnt, length_modify, h.count_eq]
  count_le := hcnt ▸ h.count_le
  fields_length := by
    intro s hs
    rw [Table.fieldCount, hcols]
    rw [hrec] at hs
    rcases mem_modify hs with hmem | ⟨s', hs', rfl⟩
    · exact h.fields_length s hmem
    · obtain ⟨h1, h2⟩ := h.fields_length r (mem_of_lookup hl)
      exact ⟨hlen.trans h1, hcount.trans h2⟩
  version_isInt := by
    intro s hs
    rw [hrec] at hs
    rcases mem_modify hs with hmem | ⟨s', hs', rfl⟩
    · exact h.version_isInt s hmem
    · exact hver

/-- Taking records out, the count lowered by their number. -/
theorem Table.Inv.sublist {t t' : Table} (h : t.Inv) (hsub : t'.records.Sublist t.records)
    (hcols : t'.columns = t.columns)
    (hcnt : t'.recordCount = t.recordCount - (t.records.length - t'.records.length)) :
    t'.Inv where
  ids_nodup := h.ids_nodup.sublist (hsub.map Record.id)
  count_eq := by rw [hcnt, h.count_eq]; omega
  count_le := by
    have := hsub.length_le
    have := h.count_le
    omega
  fields_length := by
    intro r hr
    rw [Table.fieldCount, hcols]
    exact h.fields_length r (hsub.subset hr)
  version_isInt := fun r hr => h.version_isInt r (hsub.subset hr)

/-- **Every table call preserves the invariant.** -/
theorem Table.Inv.step {t : Table} (h : t.Inv) (c : TableCall) : (t.step c).Inv := by
  cases c with
  | insert counter now values =>
    rcases tableInsertRecord_cases t counter now values with
      ⟨e, c, heq⟩ | ⟨vs, id, c, -, hc, -, hl, heq⟩
    · rwa [Table.step, heq]
    · rw [Table.step, heq]
      exact h.linkRecord now hc hl
  | update now id values =>
    rcases tableUpdateRecord_cases t now id values with
      ⟨-, heq⟩ | ⟨vs, -, -, heq⟩ | ⟨vs, r, fields, -, hl, hf, heq⟩ | ⟨vs, r, fields, -, hl, hf, heq⟩
    · rwa [Table.step, heq]
    · rwa [Table.step, heq]
    -- an update that is broken off leaves a record of the same length as well
    all_goals
      have hr := h.fields_length r (mem_of_lookup hl)
      have hlen : fields.length = r.fields.length := by
        rw [← length_updateFields t id t.columns vs r.fields hr.1.symm, hf]
      rw [Table.step, heq]
    · exact h.modify { r with fields } hl rfl hlen rfl (h.version_isInt r (mem_of_lookup hl))
        rfl rfl rfl
    · exact h.modify (updatedRecord r fields now) hl rfl hlen rfl (isInt_intWrap _) rfl rfl rfl
  | delete id =>
    rcases tableDeleteRecord_cases t id with ⟨-, heq⟩ | ⟨hl, heq⟩
    · rwa [Table.step, heq]
    · have hlen := length_erase hl
      rw [Table.step, heq]
      refine h.sublist erase_sublist rfl ?_
      dsimp only
      omega
  | sweep j value =>
    show (deleteMatching t (recordMatches t j value)).Inv
    refine h.sublist ?_ rfl ?_
    · simp only [deleteMatching, sweepRecords_eq]
      exact List.filter_sublist
    · have hlen := List.length_eq_countP_add_countP (recordMatches t j value) (l := t.records)
      simp only [deleteMatching, sweepRecords_eq, ← List.countP_eq_length_filter]
      rw [hlen]
      simp
  | setIndexes indexes =>
    exact ⟨h.ids_nodup, h.count_eq, h.count_le, h.fields_length, h.version_isInt⟩

theorem Table.Reachable.inv {t : Table} (h : t.Reachable) : t.Inv :=
  Reach.invariant (P := Table.Inv) (fun _ => Table.Fresh.inv) (fun _ c hi _ => hi.step c) h

/-! ### The records after a call -/

@[simp] theorem columns_step (t : Table) (c : TableCall) : (t.step c).columns = t.columns := by
  cases c with
  | insert counter now values =>
    rcases tableInsertRecord_cases t counter now values with ⟨e, c, heq⟩ | ⟨vs, id, c, -, -, -, -, heq⟩
    · rw [Table.step, heq]
    · rw [Table.step, heq]
      rfl
  | update now id values =>
    rcases tableUpdateRecord_cases t now id values with
      ⟨-, heq⟩ | ⟨vs, -, -, heq⟩ | ⟨vs, r, fields, -, -, -, heq⟩ | ⟨vs, r, fields, -, -, -, heq⟩
    all_goals rw [Table.step, heq]
  | delete id =>
    rcases tableDeleteRecord_cases t id with ⟨-, heq⟩ | ⟨-, heq⟩
    all_goals rw [Table.step, heq]
  | sweep j value => rfl
  | setIndexes indexes => rfl

/-- **What a call does to the list of records**: it takes records out, links a new one, or replaces
the fields of one. -/
theorem Table.step_records_cases (t : Table) (c : TableCall) :
    (t.step c).records.Sublist t.records ∨
    (∃ counter now vs id k, c = .insert counter now (some vs) ∧ insertCheck t vs = .success ∧
      chooseRecordId t counter vs = (id, k) ∧ lookup Record.id t.records id = none ∧
      (t.step c).records = newRecord t id now vs :: t.records) ∨
    ∃ now id vs r r', c = .update now id (some vs) ∧ lookup Record.id t.records id = some r ∧
      r'.id = r.id ∧ r'.fields = (updateFields t id t.columns vs r.fields).2 ∧
      (t.step c).records = modify Record.id (fun _ => r') t.records id := by
  cases c with
  | insert counter now values =>
    rcases tableInsertRecord_cases t counter now values with
      ⟨e, c, heq⟩ | ⟨vs, id, c, rfl, hc, hid, hl, heq⟩
    · rw [Table.step, heq]
      exact .inl (List.Sublist.refl _)
    · refine .inr (.inl ⟨counter, now, vs, id, c, rfl, hc, hid, hl, ?_⟩)
      rw [Table.step, heq]
      rfl
  | update now id values =>
    rcases tableUpdateRecord_cases t now id values with
      ⟨-, heq⟩ | ⟨vs, -, -, heq⟩ | ⟨vs, r, fields, rfl, hl, hf, heq⟩ | ⟨vs, r, fields, rfl, hl, hf, heq⟩
    · rw [Table.step, heq]
      exact .inl (List.Sublist.refl _)
    · rw [Table.step, heq]
      exact .inl (List.Sublist.refl _)
    · refine .inr (.inr ⟨now, id, vs, r, { r with fields }, rfl, hl, rfl, ?_, ?_⟩)
      · rw [hf]
      · rw [Table.step, heq]
    · refine .inr (.inr ⟨now, id, vs, r, updatedRecord r fields now, rfl, hl, rfl, ?_, ?_⟩)
      · rw [hf]
        rfl
      · rw [Table.step, heq]
  | delete id =>
    left
    rcases tableDeleteRecord_cases t id with ⟨-, heq⟩ | ⟨-, heq⟩
    · rw [Table.step, heq]
    · rw [Table.step, heq]
      exact erase_sublist
  | sweep j value =>
    left
    show (deleteMatching t (recordMatches t j value)).records.Sublist t.records
    simp only [deleteMatching, sweepRecords_eq]
    exact List.filter_sublist
  | setIndexes indexes => exact .inl (List.Sublist.refl _)

/-! ### Ids are integers -/

/-- Every id is an `int`. -/
def Table.IntIds (t : Table) : Prop := ∀ r ∈ t.records, IsInt r.id

/-- A key that the values supply is an `int`. -/
theorem isInt_explicitKey (cs : List Column) (vs : List Field) : IsInt (explicitKey cs vs) := by
  induction cs generalizing vs with
  | nil => exact (by decide : IsInt (-1))
  | cons c cs ih =>
    rw [explicitKey]
    split_ifs
    · exact FieldValue.isInt_intValue _
    · exact ih vs.tail

/-- The id of a new record is an `int`, if the counter is. -/
theorem isInt_chooseRecordId (t : Table) {counter : Int} (hcounter : IsInt counter)
    (vs : List Field) : IsInt (chooseRecordId t counter vs).1 := by
  unfold chooseRecordId
  split_ifs
  · unfold generateRecordId
    dsimp only
    split_ifs
    · exact isInt_intWrap _
    · exact hcounter
  · exact isInt_explicitKey _ _

theorem Table.IntIds.step {t : Table} (h : t.IntIds) {c : TableCall}
    (hc : ∀ counter now vs, c = .insert counter now vs → IsInt counter) : (t.step c).IntIds := by
  intro s hs
  rcases t.step_records_cases c with
    hsub | ⟨counter, now, vs, id, k, rfl, -, hid, -, heq⟩ | ⟨now, id, vs, r, r', -, hl, hr', -, heq⟩
  · exact h s (hsub.subset hs)
  · rw [heq] at hs
    rcases List.mem_cons.mp hs with rfl | hs
    · have hint := isInt_chooseRecordId t (hc _ _ _ rfl) vs
      rwa [hid] at hint
    · exact h s hs
  · rw [heq] at hs
    rcases mem_modify hs with hmem | ⟨s', -, rfl⟩
    · exact h s hmem
    · rw [hr']
      exact h r (mem_of_lookup hl)

/-! ### The high-water mark -/

theorem Table.Fresh.highWater {t : Table} (h : t.Fresh) : t.HighWater := by
  obtain ⟨hr, -, hn, -⟩ := h
  exact ⟨hn.ge, by simp [hr]⟩

/-- A call that leaves no id at `INT_MAX` keeps `next_record_id` above all of them. -/
theorem Table.HighWater.step {t : Table} (h : t.HighWater) (c : TableCall)
    (hids : (t.step c).IdsBelow) : (t.step c).HighWater := by
  obtain ⟨hpos, hlt⟩ := h
  cases c with
  | insert counter now values =>
    rcases tableInsertRecord_cases t counter now values with
      ⟨e, c, heq⟩ | ⟨vs, id, c, -, -, -, -, heq⟩
    · rw [Table.step, heq]
      exact ⟨hpos, hlt⟩
    · rw [Table.step, heq] at hids ⊢
      -- the new mark is the id plus one, which does not wrap around
      have hmax : id < intMax := hids (newRecord t id now vs) (List.mem_cons_self ..)
      have hnext : (linkRecord t id now vs).nextRecordId =
          if t.nextRecordId ≤ id then id + 1 else t.nextRecordId := by
        show (if t.nextRecordId ≤ id then intWrap (id + 1) else t.nextRecordId) = _
        split
        · simp only [intMax] at hmax
          exact intWrap_eq_self ⟨by omega, by omega⟩
        · rfl
      refine ⟨?_, fun r hr => ?_⟩
      · rw [hnext]
        split <;> omega
      · rw [hnext]
        rcases List.mem_cons.mp hr with rfl | hr
        · show id < _
          split <;> omega
        · have := hlt r hr
          split <;> omega
  | update now id values =>
    rcases tableUpdateRecord_cases t now id values with
      ⟨-, heq⟩ | ⟨vs, -, -, heq⟩ | ⟨vs, r, fields, -, hl, hf, heq⟩ | ⟨vs, r, fields, -, hl, hf, heq⟩
    · rw [Table.step, heq]
      exact ⟨hpos, hlt⟩
    · rw [Table.step, heq]
      exact ⟨hpos, hlt⟩
    all_goals
      rw [Table.step, heq]
      refine ⟨hpos, fun s hs => ?_⟩
      rcases mem_modify hs with hmem | ⟨s', hs', rfl⟩
      · exact hlt s hmem
      · exact hlt r (mem_of_lookup hl)
  | delete id =>
    rcases tableDeleteRecord_cases t id with ⟨-, heq⟩ | ⟨hl, heq⟩
    · rw [Table.step, heq]
      exact ⟨hpos, hlt⟩
    · rw [Table.step, heq]
      exact ⟨hpos, fun r hr => hlt r (erase_sublist.subset hr)⟩
  | sweep j value =>
    refine ⟨hpos, fun r hr => ?_⟩
    simp only [Table.step, deleteMatching, sweepRecords_eq] at hr
    exact hlt r (List.mem_of_mem_filter hr)
  | setIndexes indexes => exact ⟨hpos, hlt⟩

end Luminix
