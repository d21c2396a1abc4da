import Luminix.Equiv.Fields
import Luminix.Equiv.Transaction

/-!
# What a failed call leaves behind

A batch is followed by a rollback when one of its rows is refused, and an update returns when a key
it is about to write belongs to another record.  Neither takes anything back: the rollback restores
no record, and the loop of the update has written the fields in front of the key.
`batch_all_or_nothing_iff` and `refused_update_unchanged_iff` say when the call still leaves the
records as they were.
-/

namespace Luminix

open CLib KeyedList Machine

/-! ### Batches -/

/-- The records of every table, and their number. -/
def Store.recordLists (s : Store) : List (List Record × Int) :=
  s.db.tables.map fun t => (t.records, t.recordCount)

/-- **A failed batch leaves the records as they were** exactly if none of its rows is refused behind
one that was accepted. -/
theorem batch_all_or_nothing_iff (s : Store) (now : Int) (tableName : Option CString)
    (rows : Option (List (Option (List Field)))) :
    (∀ e s', dbBatchInsertRecords s now tableName rows = (.error e, s') →
      s'.recordLists = s.recordLists) ↔
    ∀ i t rs, s.BatchStarts tableName rows i t rs →
      rowsAccepted now t s.globalCounter rs ∨
        ∀ row ∈ rs.head?, ¬insertAccepted t s.globalCounter row := by
  rcases dbBatchInsertRecords_cases s now tableName rows with
    ⟨hno, e, heq⟩ | ⟨i, t, rs, db, hst, -, htables, heq⟩
  · refine ⟨fun _ i t rs hst => absurd hst (hno i t rs), fun _ e' s' h => ?_⟩
    rw [heq] at h
    rw [(Prod.mk.inj h).2]
  · have hok : (insertRows i now { s with db } rs).1.isOk = true ↔
        rowsAccepted now t s.globalCounter rs :=
      insertRows_isOk_iff (s := { s with db }) (htables ▸ hst.found) now rs
    have hfst : (dbBatchInsertRecords s now tableName rows).1 =
        (insertRows i now { s with db } rs).1 := by rw [heq]
    have hset : (dbBatchInsertRecords s now tableName rows).2.db.tables =
        s.db.tables.set i (run Table.step t (insertCalls now t s.globalCounter rs)) :=
      Store.step_of_makes (.batchInsertRecords hst)
    -- what the rows have entered stays
    have hkept : (dbBatchInsertRecords s now tableName rows).2.recordLists = s.recordLists ↔
        ∀ row ∈ rs.head?, ¬insertAccepted t s.globalCounter row := by
      have hlength : ∀ t t' : Table, (t'.records, t'.recordCount) = (t.records, t.recordCount) →
          t'.records.length = t.records.length := fun _ _ h => congrArg (fun x => x.1.length) h
      rw [Store.recordLists, Store.recordLists, hset, map_set_iff hst.found]
      exact run_insertCalls_eq_iff hlength now _ t rs
    constructor
    · intro h i' t' rs' hst'
      obtain ⟨rfl, rfl, rfl⟩ := hst.unique hst'
      refine or_iff_not_imp_left.mpr fun hrefused => hkept.mp ?_
      rcases hres : (insertRows i now { s with db } rs).1 with e | ids
      · exact h e _ (Prod.ext (hfst.trans hres) rfl)
      · rw [← hok, hres] at hrefused
        exact absurd rfl hrefused
    · intro h e s' hres
      have herr := hfst.symm.trans (congrArg Prod.fst hres)
      obtain rfl : (dbBatchInsertRecords s now tableName rows).2 = s' := congrArg Prod.snd hres
      rcases h i t rs hst with hacc | hrefused
      · rw [← hok, herr] at hacc
        exact absurd hacc Bool.false_ne_true
      · exact hkept.mpr hrefused

/-- The second row of a batch has the key of the first, which stays. -/
theorem batch_keeps_first_row :
    ¬∀ s : Store, s.Reachable → ∀ now tableName (rows : List (Option (List Field))),
      1 ≤ rows.length → rows.length ≤ batchInsertSize → ∀ e s',
      dbBatchInsertRecords s now tableName (some rows) = (.error e, s') →
        s'.recordLists = s.recordLists := by
  intro h
  have hbatch := h openStore openStore_reachable 0 (some (cstr "t"))
    [some [.ofInt 5], some [.ofInt 5]] (by decide) (by decide) .duplicateKey _
    (Prod.ext (by decide) rfl)
  exact absurd hbatch (by decide)

/-! ### Updates -/

/-- The field has the value `v` already, and its type unless that is `TYPE_UNKNOWN`. -/
def Field.Holds (f v : Field) : Prop := f.value = v.value ∧ (v.type = .unknown ∨ v.type = f.type)

instance (f v : Field) : Decidable (f.Holds v) := inferInstanceAs (Decidable (_ ∧ _))

/-- Assigning a value changes nothing exactly if the field has it already. -/
theorem assignField_eq_self_iff (f v : Field) : assignField f v = f ↔ f.Holds v := by
  have htype : (assignField f v).type = if v.type ≠ .unknown then v.type else f.type := rfl
  have hiff : assignField f v = f ↔ v.value = f.value ∧ (assignField f v).type = f.type := by
    cases f
    simp [assignField, and_comm]
  rw [hiff, htype, Field.Holds, eq_comm]
  by_cases hv : v.type = .unknown
  · simp [hv]
  · simp [hv]

/-- The update has a new key that belongs to another record. -/
def Table.RefusesKey (t : Table) (id : Int) (vs : List Field) : Prop :=
  ∃ x ∈ t.columns.zipIdx, keyTaken t id x.1 (fieldAt vs x.2) = true

instance (t : Table) (id : Int) (vs : List Field) : Decidable (t.RefusesKey id vs) :=
  inferInstanceAs (Decidable (∃ x ∈ t.columns.zipIdx, _))

/-- The loop is refused exactly if one of the keys is. -/
theorem updateFields_duplicateKey_iff (t : Table) (id : Int) (cs : List Column)
    (vs olds : List Field) : (updateFields t id cs vs olds).1 = .duplicateKey ↔
      ∃ j c, cs[j]? = some c ∧ keyTaken t id c (fieldAt vs j) = true := by
  induction cs generalizing vs olds with
  | nil => simp [updateFields]
  | cons c cs ih =>
    rw [updateFields]
    split_ifs with hkey
    · refine ⟨fun _ => ⟨0, c, rfl, ?_⟩, fun _ => rfl⟩
      rw [fieldAt_zero]
      exact hkey
    · rw [ih]
      constructor
      · rintro ⟨j, c', hc', htaken⟩
        exact ⟨j + 1, c', hc', (fieldAt_succ vs j).symm ▸ htaken⟩
      · rintro ⟨j, c', hc', htaken⟩
        cases j with
        | zero =>
          obtain rfl : c = c' := Option.some.inj hc'
          rw [fieldAt_zero] at htaken
          exact absurd htaken hkey
        | succ j => exact ⟨j, c', hc', fieldAt_succ vs j ▸ htaken⟩

theorem Table.refusesKey_iff (t : Table) (id : Int) (vs olds : List Field) :
    t.RefusesKey id vs ↔ (updateFields t id t.columns vs olds).1 = .duplicateKey := by
  rw [updateFields_duplicateKey_iff]
  constructor
  · rintro ⟨⟨c, j⟩, hx, htaken⟩
    exact ⟨j, c, List.mem_zipIdx_iff_getElem?.mp hx, htaken⟩
  · rintro ⟨j, c, hc, htaken⟩
    exact ⟨(c, j), List.mem_zipIdx_iff_getElem?.mpr hc, htaken⟩

/-- The loop leaves the fields as they were exactly if those it reaches hold the new values. -/
theorem updateFields_eq_self_iff (t : Table) (id : Int) {cs : List Column} (vs : List Field)
    {olds : List Field} (hlen : olds.length = cs.length) :
    (updateFields t id cs vs olds).2 = olds ↔ ∀ j < cs.length, writesField t id cs vs j = true →
      (fieldAt olds j).Holds (fieldAt vs j) := by
  have hlen' : (updateFields t id cs vs olds).2.length = olds.length :=
    length_updateFields t id cs vs olds hlen.symm
  have hfields := fun j (hj : j < cs.length) => fieldAt_updateFields t id vs hlen hj
  constructor
  · intro heq j hj hw
    have hj' := hfields j hj
    rw [heq, if_pos hw] at hj'
    exact (assignField_eq_self_iff _ _).mp hj'.symm
  · intro h
    apply List.ext_getElem hlen'
    intro j h1 h2
    have hj : j < cs.length := hlen ▸ h2
    have hget : ∀ (l : List Field) (hl : j < l.length), fieldAt l j = l[j] :=
      fun l hl => fieldAt_of_getElem? (List.getElem?_eq_getElem hl)
    rw [← hget _ h1, ← hget _ h2, hfields j hj]
    split_ifs with hw
    · exact (assignField_eq_self_iff _ _).mpr (h j hj hw)
    · rfl

/-- **A refused update leaves the records as they were** exactly if the fields in front of the key
that is taken hold their new values already. -/
theorem refused_update_unchanged_iff {t : Table}
    (ht : ∀ r ∈ t.records, r.fields.length = t.fieldCount) (now id : Int)
    (values : Option (List Field)) :
    (∀ e t', tableUpdateRecord t now id values = (e, t') → e ≠ .success → t'.records = t.records) ↔
    ∀ vs ∈ values, ∀ r ∈ lookup Record.id t.records id, t.RefusesKey id vs →
      ∀ j < t.fieldCount, writesField t id t.columns vs j = true →
        (r.field j).Holds (fieldAt vs j) := by
  rcases tableUpdateRecord_cases t now id values with
    ⟨rfl, heq⟩ | ⟨vs, rfl, hl, heq⟩ | ⟨vs, r, fields, rfl, hl, hf, heq⟩ |
    ⟨vs, r, fields, rfl, hl, hf, heq⟩
  -- nothing is found, and nothing is written
  · refine ⟨fun _ vs hvs => absurd hvs (by simp), fun _ e t' h _ => ?_⟩
    rw [heq] at h
    rw [← (Prod.mk.inj h).2]
  · refine ⟨fun _ vs _ r hr => absurd (hl.symm.trans hr) (by simp), fun _ e t' h _ => ?_⟩
    rw [heq] at h
    rw [← (Prod.mk.inj h).2]
  -- the loop is broken off
  · have hrefused : t.RefusesKey id vs := (t.refusesKey_iff id vs r.fields).mpr (by rw [hf])
    have hsame := updateFields_eq_self_iff t id vs (ht r (mem_of_lookup hl))
    have hrecord : ({ r with fields } : Record) = r ↔ fields = r.fields := by
      cases r
      simp
    have hkept : (tableUpdateRecord t now id (some vs)).2.records = t.records ↔
        ∀ j < t.fieldCount, writesField t id t.columns vs j = true →
          (r.field j).Holds (fieldAt vs j) := by
      have hmap := map_modify_eq_iff (g := fun r : Record => r)
        (f := fun _ => ({ r with fields } : Record)) hl
      rw [List.map_id', List.map_id', hrecord] at hmap
      rw [heq, hmap]
      rw [hf] at hsame
      exact hsame
    rw [heq] at hkept ⊢
    constructor
    · intro h vs' hvs' r' hr' _
      obtain rfl := Option.some.inj hvs'
      obtain rfl := Option.some.inj (hl.symm.trans hr')
      exact hkept.mp (h _ _ rfl (by simp))
    · intro h e t' h' _
      rw [← (Prod.mk.inj h').2]
      exact hkept.mpr (h vs rfl r hl hrefused)
  -- it is not refused
  · have haccepted : ¬t.RefusesKey id vs := by
      rw [t.refusesKey_iff id vs r.fields, hf]
      simp
    constructor
    · intro _ vs' hvs' r' _ hrefused
      obtain rfl := Option.some.inj hvs'
      exact absurd hrefused haccepted
    · intro _ e t' h he
      rw [heq] at h
      exact absurd (Prod.mk.inj h).1.symm he

/-- A table whose `INT` key comes after another column. -/
def keyLastTable : Table :=
  (newTable (cstr "t") [(cstr "n", .int), (cstr "id", .int)] (by decide)
    (by decide)).withConstraints [⟨true, false, false, false⟩, ⟨true, false, true, false⟩]

/-- The table with the records 7 and 5. -/
def twoKeys : Table := run Table.step keyLastTable
  [.insert 1000 0 (some [.ofInt 0, .ofInt 5]), .insert 1000 0 (some [.ofInt 0, .ofInt 7])]

theorem twoKeys_full : ∀ r ∈ twoKeys.records, r.fields.length = twoKeys.fieldCount := by
  decide

/-- The update of record 5 to the key 7 is refused with its first field as it was. -/
theorem refused_update_unchanged_iff_same :
    (tableUpdateRecord twoKeys 0 5 (some [.ofInt 0, .ofInt 7])).1 = .duplicateKey ∧
      (tableUpdateRecord twoKeys 0 5 (some [.ofInt 0, .ofInt 7])).2.records = twoKeys.records := by
  have hrefused : (tableUpdateRecord twoKeys 0 5 (some [.ofInt 0, .ofInt 7])).1 =
      .duplicateKey := by
    decide
  have hne : (tableUpdateRecord twoKeys 0 5 (some [.ofInt 0, .ofInt 7])).1 ≠ .success := by
    rw [hrefused]
    simp
  refine ⟨hrefused, ?_⟩
  refine (refused_update_unchanged_iff twoKeys_full 0 5 (some [.ofInt 0, .ofInt 7])).mpr ?_ _ _
    rfl hne
  intro vs hvs r hr _
  obtain rfl := Option.some.inj hvs
  have hall : ∀ r ∈ lookup Record.id twoKeys.records 5, ∀ j < twoKeys.fieldCount,
      writesField twoKeys 5 twoKeys.columns [.ofInt 0, .ofInt 7] j = true →
        (r.field j).Holds (fieldAt [.ofInt 0, .ofInt 7] j) := by decide +kernel
  exact hall r hr

/-- With another first value that one has been overwritten when the key is refused. -/
theorem refused_update_writes :
    ¬∀ t : Table, t.Reachable → ∀ now id (vs : List Field) e t',
      tableUpdateRecord t now id (some vs) = (e, t') → e ≠ .success → t'.records = t.records := by
  intro h
  have hreach : twoKeys.Reachable :=
    Reach.run (.start ⟨rfl, rfl, rfl, rfl⟩) (Admits.of_forall (fun _ _ => trivial) _ _)
  have hkept := h twoKeys hreach 0 5 [.ofInt 1, .ofInt 7] .duplicateKey _
    (Prod.ext (by decide) rfl) (by decide)
  exact absurd hkept (by decide +kernel)

end Luminix
