import Luminix.Equiv.Invariant

/-!
# The fields a call writes

What an insert and an update put into each column.  An insert that is accepted (`Table.Accepts`)
copies the payload of every value and takes the type from the schema; an update writes payload and
type of every value up to the first key that is taken (`writesField`), and leaves the rest.
-/

namespace Luminix

open CLib KeyedList Machine

/-- Reading the fields of a record past the end gives a zeroed field, as in the model's loops. -/
def fieldAt (l : List Field) (i : Nat) : Field := l.getD i .zero

@[simp] theorem fieldAt_zero (l : List Field) : fieldAt l 0 = l.headD .zero := by
  cases l <;> rfl

@[simp] theorem fieldAt_succ (l : List Field) (i : Nat) : fieldAt l (i + 1) = fieldAt l.tail i := by
  cases l <;> rfl

theorem fieldAt_of_getElem? {l : List Field} {i : Nat} {f : Field} (h : l[i]? = some f) :
    fieldAt l i = f := by
  rw [fieldAt, List.getD_eq_getElem?_getD, h, Option.getD_some]

theorem getElem?_fieldAt {l : List Field} {i : Nat} (h : i < l.length) :
    l[i]? = some (fieldAt l i) := by
  rw [fieldAt_of_getElem? (List.getElem?_eq_getElem h), List.getElem?_eq_getElem h]

/-- The field at place `j`. -/
def Record.field (r : Record) (j : Nat) : Field := fieldAt r.fields j

theorem lt_of_mem_zipIdx {cs : List Column} {x : Column × Nat} (hx : x ∈ cs.zipIdx) :
    x.2 < cs.length := by
  have hc : cs[x.2]? = some x.1 := List.mem_zipIdx_iff_getElem?.mp hx
  exact (List.getElem?_eq_some_iff.mp hc).1

/-! ### Insertion -/

/-- The insert passes its checks, and the id it chooses is free. -/
def Table.Accepts (t : Table) (counter : Int) (vs : List Field) : Prop :=
  insertCheck t vs = .success ∧ lookup Record.id t.records (chooseRecordId t counter vs).1 = none

instance (t : Table) (counter : Int) (vs : List Field) : Decidable (t.Accepts counter vs) :=
  inferInstanceAs (Decidable (_ ∧ _))

/-- What an insert stores in a column for the value `v`. -/
def copiedField (c : Column) (v : Field) : Field := ⟨c.name.truncate (maxFieldLen - 1), c.type, v.value⟩

theorem getElem?_copyFields (cs : List Column) (vs : List Field) (j : Nat) :
    (copyFields cs vs)[j]? = cs[j]?.map fun c => copiedField c (fieldAt vs j) := by
  induction cs generalizing vs j with
  | nil => rfl
  | cons c cs ih =>
    cases j with
    | zero =>
      rw [copyFields, fieldAt_zero]
      rfl
    | succ j =>
      rw [copyFields, fieldAt_succ]
      exact ih vs.tail j

theorem field_newRecord {t : Table} {j : Nat} {c : Column} (hc : t.columns[j]? = some c)
    (id now : Int) (vs : List Field) :
    (newRecord t id now vs).field j = copiedField c (fieldAt vs j) := by
  apply fieldAt_of_getElem?
  rw [newRecord, getElem?_copyFields, hc]
  rfl

/-- Without a free id the insert fails with the error of its checks, or for the id. -/
theorem tableInsertRecord_of_refused {t : Table} {counter : Int} {vs : List Field}
    (h : ¬t.Accepts counter vs) (now : Int) : (tableInsertRecord t counter now (some vs)).1 =
      .error (if insertCheck t vs = .success then .duplicateKey else insertCheck t vs) := by
  rw [tableInsertRecord]
  by_cases hc : insertCheck t vs = .success
  · have hl : lookup Record.id t.records (chooseRecordId t counter vs).1 ≠ none := fun hl => h ⟨hc, hl⟩
    simp only [hc, tableFindRecord_eq, Option.isSome_iff_ne_none.mpr hl]
    rfl
  · rw [if_neg hc]
    cases he : insertCheck t vs <;> first | exact absurd he hc | rfl

/-- The checks have no such error. -/
theorem insertCheck_ne_duplicateKey (t : Table) (vs : List Field) :
    insertCheck t vs ≠ .duplicateKey := by
  unfold insertCheck
  split_ifs <;> simp

theorem step_insert_of_accepts {t : Table} {counter : Int} {vs : List Field}
    (h : t.Accepts counter vs) (now : Int) : (t.step (.insert counter now (some vs))).records =
      newRecord t (chooseRecordId t counter vs).1 now vs :: t.records := by
  rw [Table.step, tableInsertRecord_of_accepted h.1 h.2]
  rfl

/-! ### Update -/

/-- The loop of an update reaches column `j`: no key up to there is taken. -/
def writesField (t : Table) (id : Int) : List Column → List Field → Nat → Bool
  | [], _, _ => false
  | c :: _, vs, 0 => !keyTaken t id c (vs.headD .zero)
  | c :: cs, vs, j + 1 => !keyTaken t id c (vs.headD .zero) && writesField t id cs vs.tail j

/-- **The fields after an update**, for a record with a field for each column. -/
theorem fieldAt_updateFields (t : Table) (id : Int) {cs : List Column} (vs : List Field)
    {olds : List Field} (hlen : olds.length = cs.length) {j : Nat} (hj : j < cs.length) :
    fieldAt (updateFields t id cs vs olds).2 j =
      if writesField t id cs vs j then assignField (fieldAt olds j) (fieldAt vs j)
      else fieldAt olds j := by
  induction cs generalizing vs olds j with
  | nil => exact absurd hj (Nat.not_lt_zero j)
  | cons c cs ih =>
    obtain ⟨old, olds, rfl⟩ := List.exists_cons_of_length_eq_add_one hlen
    rw [updateFields]
    by_cases hk : keyTaken t id c (vs.headD .zero) = true
    -- the loop breaks off at this column
    · have hw : writesField t id (c :: cs) vs j = false := by
        cases j <;> rw [writesField, hk] <;> rfl
      rw [if_pos hk, hw]
      rfl
    -- the column is written, and the loop goes on
    · have hfree : keyTaken t id c (vs.headD .zero) = false := Bool.eq_false_of_not_eq_true hk
      rw [if_neg hk]
      cases j with
      | zero =>
        have hw : writesField t id (c :: cs) vs 0 = true := by
          rw [writesField, hfree]
          rfl
        rw [hw, fieldAt_zero, fieldAt_zero, fieldAt_zero]
        rfl
      | succ j =>
        have hw : writesField t id (c :: cs) vs (j + 1) = writesField t id cs vs.tail j := by
          rw [writesField, hfree]
          rfl
        rw [hw, fieldAt_succ, fieldAt_succ, fieldAt_succ]
        exact ih vs.tail (Nat.succ.inj hlen) (Nat.lt_of_succ_lt_succ hj)

/-- The record that an update leaves in the place of `r`. -/
theorem step_update_of_lookup {t : Table} (ht : t.Inv) {id : Int} {r : Record}
    (h : lookup Record.id t.records id = some r) (now : Int) (vs : List Field) :
    ∃ r' : Record, r'.id = id ∧
      (t.step (.update now id (some vs))).records =
        modify Record.id (fun _ => r') t.records id ∧
      ∀ j < t.columns.length, r'.field j =
        if writesField t id t.columns vs j then assignField (r.field j) (fieldAt vs j)
        else r.field j := by
  have hid : r.id = id := key_of_lookup h
  have hlen : r.fields.length = t.columns.length := (ht.fields_length r (mem_of_lookup h)).1
  rcases tableUpdateRecord_cases t now id (some vs) with
    ⟨hvs, -⟩ | ⟨vs', -, hl, -⟩ | ⟨vs', r₁, fields, hvs, hl, hf, heq⟩ |
    ⟨vs', r₁, fields, hvs, hl, hf, heq⟩
  · cases hvs
  · exact absurd (hl.symm.trans h) (by simp)
  -- broken off or not, the fields are those that the loop leaves
  all_goals
    obtain rfl := Option.some.inj hvs
    obtain rfl := Option.some.inj (h.symm.trans hl)
    have hfields : fields = (updateFields t id t.columns vs r.fields).2 := by rw [hf]
  · refine ⟨{ r with fields }, hid, ?_, fun j hj => ?_⟩
    · rw [Table.step, heq]
    · rw [hfields]
      exact fieldAt_updateFields t id vs hlen hj
  · refine ⟨updatedRecord r fields now, hid, ?_, fun j hj => ?_⟩
    · rw [Table.step, heq]
    · rw [hfields]
      exact fieldAt_updateFields t id vs hlen hj

/-! ### Entering a record -/

/-- The record `n` has entered the table: under a new id, or in the place of the one with its id. -/
structure Table.Enters (t t' : Table) (n : Record) : Prop where
  columns_eq : t'.columns = t.columns
  mem_iff : ∀ s, s ∈ t'.records ↔ s = n ∨ s ∈ t.records ∧ s.id ≠ n.id

theorem enters_insert {t : Table} {counter : Int} {vs : List Field} (h : t.Accepts counter vs)
    (now : Int) : t.Enters (t.step (.insert counter now (some vs)))
      (newRecord t (chooseRecordId t counter vs).1 now vs) where
  columns_eq := columns_step t _
  mem_iff s := by
    rw [step_insert_of_accepts h, List.mem_cons]
    refine or_congr_right ⟨fun hs => ⟨hs, ?_⟩, And.left⟩
    exact lookup_eq_none_iff.mp h.2 s hs

theorem enters_update {t : Table} (ht : t.Inv) {id : Int} {r : Record}
    (h : lookup Record.id t.records id = some r) (now : Int) (vs : List Field) :
    ∃ r' : Record, r'.id = id ∧ t.Enters (t.step (.update now id (some vs))) r' ∧
      ∀ j < t.columns.length, r'.field j =
        if writesField t id t.columns vs j then assignField (r.field j) (fieldAt vs j)
        else r.field j := by
  obtain ⟨r', hid, hrecords, hfields⟩ := step_update_of_lookup ht h now vs
  refine ⟨r', hid, ⟨columns_step t _, fun s => ?_⟩, hfields⟩
  rw [hrecords, hid]
  exact mem_modify_iff ht.ids_nodup h

/-- Any other call takes records out at most. -/
theorem step_records_sublist {t : Table} {c : TableCall}
    (hinsert : ∀ counter now vs, c = .insert counter now (some vs) → ¬t.Accepts counter vs)
    (hupdate : ∀ now id vs, c = .update now id (some vs) → lookup Record.id t.records id = none) :
    (t.step c).records.Sublist t.records := by
  rcases t.step_records_cases c with
    hsub | ⟨counter, now, vs, id, k, rfl, hcheck, hid, hl, -⟩ | ⟨now, id, vs, r, r', rfl, hl, -⟩
  · exact hsub
  · refine absurd ⟨hcheck, ?_⟩ (hinsert counter now vs rfl)
    rw [hid]
    exact hl
  · exact absurd ((hupdate now id vs rfl).symm.trans hl) (by simp)

/-! ### Conditions on what is stored -/

/-- A condition on what the call stores: on the values of an insert that is accepted, and on those
of an update that finds its record. -/
def Table.OnStore (t : Table) (insert : Int → List Field → Prop)
    (update : Int → List Field → Record → Prop) : TableCall → Prop
  | .insert counter _ (some vs) => t.Accepts counter vs → insert counter vs
  | .update _ id (some vs) => ∀ r ∈ lookup Record.id t.records id, update id vs r
  | _ => True

instance (t : Table) (insert : Int → List Field → Prop) (update : Int → List Field → Record → Prop)
    [∀ counter vs, Decidable (insert counter vs)] [∀ id vs r, Decidable (update id vs r)] :
    ∀ c : TableCall, Decidable (t.OnStore insert update c)
  | .insert counter _ (some vs) => inferInstanceAs (Decidable (t.Accepts counter vs → _))
  | .update _ id (some _) => inferInstanceAs (Decidable (∀ r ∈ lookup Record.id t.records id, _))
  | .insert _ _ none | .update _ _ none | .delete _ | .sweep .. | .setIndexes _ => .isTrue trivial

/-- **What a call has to meet**, from the two ways in which it can store something. -/
theorem onStore_iff {t : Table} {insert : Int → List Field → Prop}
    {update : Int → List Field → Record → Prop} {P : TableCall → Prop}
    (hinsert : ∀ {counter now vs}, t.Accepts counter vs →
      (P (.insert counter now (some vs)) ↔ insert counter vs))
    (hupdate : ∀ {now id vs r}, lookup Record.id t.records id = some r →
      (P (.update now id (some vs)) ↔ update id vs r))
    (hother : ∀ c, (∀ counter now vs, c = .insert counter now (some vs) → ¬t.Accepts counter vs) →
      (∀ now id vs, c = .update now id (some vs) → lookup Record.id t.records id = none) → P c)
    (c : TableCall) : P c ↔ t.OnStore insert update c := by
  cases c with
  | insert counter now values =>
    cases values with
    | none =>
      refine ⟨fun _ => trivial, fun _ => hother _ ?_ nofun⟩
      rintro _ _ vs ⟨⟩
    | some vs =>
      by_cases hacc : t.Accepts counter vs
      · exact (hinsert hacc).trans ⟨fun h _ => h, fun h => h hacc⟩
      · refine ⟨fun _ hacc' => absurd hacc' hacc, fun _ => hother _ ?_ nofun⟩
        rintro _ _ vs' ⟨⟩
        exact hacc
  | update now id values =>
    cases values with
    | none =>
      refine ⟨fun _ => trivial, fun _ => hother _ nofun ?_⟩
      rintro _ _ vs ⟨⟩
    | some vs =>
      cases hl : lookup Record.id t.records id with
      | none =>
        refine ⟨fun _ r hr => absurd (hl.symm.trans hr) nofun, fun _ => hother _ nofun ?_⟩
        rintro _ _ vs' ⟨⟩
        exact hl
      | some r =>
        refine (hupdate hl).trans ⟨fun h r' hr' => ?_, fun h => h r hl⟩
        obtain rfl := Option.some.inj (hl.symm.trans hr')
        exact h
  | delete id => exact ⟨fun _ => trivial, fun _ => hother _ (by simp) (by simp)⟩
  | sweep j value => exact ⟨fun _ => trivial, fun _ => hother _ (by simp) (by simp)⟩
  | setIndexes indexes => exact ⟨fun _ => trivial, fun _ => hother _ (by simp) (by simp)⟩

end Luminix
