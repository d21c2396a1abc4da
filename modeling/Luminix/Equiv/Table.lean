import Luminix.Calls

/-!
# What a record operation can do

One case lemma for each table operation (`tableInsertRecord_cases`, `tableUpdateRecord_cases`,
`tableDeleteRecord_cases`): every result it can have, with the guards that lead there.  Everything
about runs is derived from these; the operations are not unfolded again.
-/

namespace Luminix

open CLib KeyedList Machine

/-! ### Lookup ignores the indexes -/

theorem findByIndex_eq_none (t : Table) (id : Int) (indexes : List Index) :
    findByIndex t id indexes = none := by
  induction indexes with
  | nil => rfl
  | cons index rest ih =>
    rw [findByIndex, ih]
    split <;> rfl

/-- `table_find_record` is the linear search. -/
@[simp] theorem tableFindRecord_eq (t : Table) (id : Int) :
    tableFindRecord t id = lookup Record.id t.records id := by
  rw [tableFindRecord, findByIndex_eq_none, Option.none_or]

@[simp] theorem updateIndexesForRecord_eq (t : Table) (r : Record) (oldId : Int) :
    updateIndexesForRecord t r oldId = t.indexes := by
  refine (List.map_congr_left fun index _ => ?_).trans (List.map_id _)
  cases columnIndex t.columns index.fieldName with
  | none => rfl
  | some j =>
    simp only [indexUpdateSimple, indexInsertSimple, indexDeleteSimple, ite_self]
    rfl

@[simp] theorem removeIndexesForRecord_eq (t : Table) (id : Int) :
    removeIndexesForRecord t id = t.indexes := List.map_id _

@[simp] theorem reindexUpdatedRecord_eq (t : Table) (old r : Record) :
    reindexUpdatedRecord t old r = t.indexes := by
  refine (List.map_congr_left fun index _ => ?_).trans (List.map_id _)
  cases columnIndex t.columns index.fieldName with
  | none => rfl
  | some j =>
    simp only [indexUpdateSimple, indexInsertSimple, indexDeleteSimple, ite_self]
    rfl

/-! ### Insertion -/

/-- The record `table_insert_record` adds has one field for each column. -/
@[simp] theorem length_copyFields (cs : List Column) (values : List Field) :
    (copyFields cs values).length = cs.length := by
  induction cs generalizing values with
  | nil => rfl
  | cons c cs ih => simp [copyFields, ih]

/-- **The results of `table_insert_record`**: refused with the table as it was, or the new record
linked under an id that no record had. -/
theorem tableInsertRecord_cases (t : Table) (counter now : Int) (values : Option (List Field)) :
    (∃ e c, tableInsertRecord t counter now values = (.error e, t, c)) ∨
    ∃ vs id c, values = some vs ∧ insertCheck t vs = .success ∧
      chooseRecordId t counter vs = (id, c) ∧ lookup Record.id t.records id = none ∧
      tableInsertRecord t counter now values = (.ok id, linkRecord t id now vs, c) := by
  cases values with
  | none => exact .inl ⟨_, _, rfl⟩
  | some vs =>
    rw [tableInsertRecord]
    by_cases hc : insertCheck t vs = .success
    · simp only [hc, tableFindRecord_eq]
      cases hl : lookup Record.id t.records (chooseRecordId t counter vs).1 with
      | some r => exact .inl ⟨_, _, rfl⟩
      | none => exact .inr ⟨vs, _, _, rfl, hc, rfl, hl, rfl⟩
    · left
      cases he : insertCheck t vs <;> first | exact absurd he hc | exact ⟨_, _, rfl⟩

/-- The checks and the id decide whether an insert succeeds. -/
theorem tableInsertRecord_of_accepted {t : Table} {counter now : Int} {vs : List Field}
    (hc : insertCheck t vs = .success)
    (hl : lookup Record.id t.records (chooseRecordId t counter vs).1 = none) :
    tableInsertRecord t counter now (some vs) =
      (.ok (chooseRecordId t counter vs).1, linkRecord t (chooseRecordId t counter vs).1 now vs,
        (chooseRecordId t counter vs).2) := by
  rw [tableInsertRecord]
  simp only [hc, tableFindRecord_eq, hl]
  rfl

/-- What passing the checks says. -/
theorem insertCheck_eq_success_iff {t : Table} {vs : List Field} :
    insertCheck t vs = .success ↔ t.recordCount < maxRecordsPerTable ∧
      (vs.headD .zero).type ≠ .unknown ∧ nullViolation t.columns vs = false := by
  unfold insertCheck
  split
  · simp only [reduceCtorEq, false_iff]
    omega
  · split
    · simp_all
    · split
      · simp_all
      · simp_all

/-! ### Update -/

/-- The field loop writes as many fields as the record has. -/
theorem length_updateFields (t : Table) (id : Int) (cs : List Column) (values olds : List Field)
    (h : cs.length = olds.length) :
    (updateFields t id cs values olds).2.length = olds.length := by
  induction cs generalizing values olds with
  | nil => rfl
  | cons c cs ih =>
    cases olds with
    | nil => simp at h
    | cons old olds =>
      rw [updateFields]
      split
      · rfl
      · simpa using ih values.tail olds (by simpa using h)

/-- The loop ends in success or with a refused key. -/
theorem updateFields_code (t : Table) (id : Int) (cs : List Column) (values olds : List Field) :
    (updateFields t id cs values olds).1 = .success ∨
      (updateFields t id cs values olds).1 = .duplicateKey := by
  induction cs generalizing values olds with
  | nil => exact .inl rfl
  | cons c cs ih =>
    rw [updateFields]
    split
    · exact .inr rfl
    · exact ih _ _

/-- The record of a finished update. -/
def updatedRecord (r : Record) (fields : List Field) (now : Int) : Record :=
  { r with fields, timestamp := now, version := intWrap (r.version + 1) }

/-- **The results of `table_update_record`**: nothing found, the loop broken off after it wrote some
of the fields, or the record rewritten with its version one up. -/
theorem tableUpdateRecord_cases (t : Table) (now id : Int) (values : Option (List Field)) :
    (values = none ∧ tableUpdateRecord t now id values = (.invalidInput, t)) ∨
    (∃ vs, values = some vs ∧ lookup Record.id t.records id = none ∧
      tableUpdateRecord t now id values = (.notFound, t)) ∨
    (∃ vs r fields, values = some vs ∧ lookup Record.id t.records id = some r ∧
      updateFields t id t.columns vs r.fields = (.duplicateKey, fields) ∧
      tableUpdateRecord t now id values = (.duplicateKey,
        { t with records := modify Record.id (fun _ => { r with fields }) t.records id })) ∨
    ∃ vs r fields, values = some vs ∧ lookup Record.id t.records id = some r ∧
      updateFields t id t.columns vs r.fields = (.success, fields) ∧
      tableUpdateRecord t now id values = (.success,
        { t with
          records := modify Record.id (fun _ => updatedRecord r fields now) t.records id
          statistics :=
            { t.statistics with recordsUpdated := t.statistics.recordsUpdated + 1 } }) := by
  cases values with
  | none => exact .inl ⟨rfl, rfl⟩
  | some vs =>
    rw [tableUpdateRecord]
    simp only [tableFindRecord_eq, reindexUpdatedRecord_eq]
    cases hl : lookup Record.id t.records id with
    | none => exact .inr (.inl ⟨vs, rfl, rfl, rfl⟩)
    | some r =>
      refine .inr (.inr ?_)
      rcases updateFields_code t id t.columns vs r.fields with h | h
      · exact .inr ⟨vs, r, _, rfl, rfl, Prod.ext h rfl, by simp [h, updatedRecord]⟩
      · exact .inl ⟨vs, r, _, rfl, rfl, Prod.ext h rfl, by simp [h]⟩

/-! ### Deletion -/

/-- **The results of `table_delete_record`**: the id is absent, or its record is unlinked. -/
theorem tableDeleteRecord_cases (t : Table) (id : Int) :
    (lookup Record.id t.records id = none ∧ tableDeleteRecord t id = (.notFound, t)) ∨
    (lookup Record.id t.records id ≠ none ∧ tableDeleteRecord t id = (.success,
      { t with
        records := erase Record.id t.records id
        recordCount := t.recordCount - 1
        statistics :=
          { t.statistics with recordsDeleted := t.statistics.recordsDeleted + 1 } })) := by
  rw [tableDeleteRecord]
  cases hl : lookup Record.id t.records id with
  | none => exact .inl ⟨rfl, rfl⟩
  | some r => exact .inr ⟨by simp, by simp⟩

/-- The unlinking loop is a filter, and it counts what it frees. -/
theorem sweepRecords_eq (matched : Record → Bool) (l : List Record) :
    sweepRecords matched l = (l.filter fun r => !matched r, (l.countP matched : Int)) := by
  induction l with
  | nil => rfl
  | cons r l ih =>
    rw [sweepRecords, ih]
    by_cases h : matched r = true
    · simp [h]
    · simp [h]

end Luminix
