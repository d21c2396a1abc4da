import Luminix.Equiv.Fields

/-!
# Declared constraints

What `NOT NULL` and `UNIQUE` promise about a table, and when a call keeps the promise.  An insert
refuses a `TYPE_NULL` value for a column that is not nullable, but no function looks at `unique`,
and an update looks at neither flag.  So the constraints hold throughout a run exactly as long as
every value that is stored happens to fit (`constraints_run_iff`).
-/

namespace Luminix

open CLib KeyedList Machine

/-- Two fields with the same type and the same value, which is not NULL. -/
def Field.sameValue (f g : Field) : Bool :=
  f.type == g.type &&
    match f.type with
    | .null => false
    | .int => f.value.intValue == g.value.intValue
    | .string => f.value.stringValue == g.value.stringValue
    | .float => binary32.ieeeEq f.value.floatBits g.value.floatBits
    | .double => binary64.ieeeEq f.value.doubleBits g.value.doubleBits
    | .bool => f.value.boolValue == g.value.boolValue
    | .datetime => f.value.timeValue == g.value.timeValue
    | .unknown | .blob => f.value == g.value

/-- **The declared constraints hold**: no NULL in a column that is not nullable, and no two records
with the same value in a unique column. -/
structure Table.ConstraintsHold (t : Table) : Prop where
  notNull : ∀ r ∈ t.records, ∀ x ∈ t.columns.zipIdx, x.1.constraint.nullable = false →
    (r.field x.2).type ≠ .null
  unique : ∀ r ∈ t.records, ∀ s ∈ t.records, s.id ≠ r.id → ∀ x ∈ t.columns.zipIdx,
    x.1.constraint.unique = true → (r.field x.2).sameValue (s.field x.2) = false

/-- The field `f` can stand in column `x.2` of the record `id`. -/
def Table.Fits (t : Table) (id : Int) (x : Column × Nat) (f : Field) : Prop :=
  (x.1.constraint.nullable = false → f.type ≠ .null) ∧
    (x.1.constraint.unique = true → ∀ s ∈ t.records, s.id ≠ id → f.sameValue (s.field x.2) = false)

instance (t : Table) (id : Int) (x : Column × Nat) (f : Field) : Decidable (t.Fits id x f) :=
  inferInstanceAs (Decidable (_ ∧ _))

/-- Whatever the call stores fits: the values of an insert that is accepted, with the types of their
columns, and the values of an update that its loop reaches. -/
def Table.KeepsConstraints (t : Table) : TableCall → Prop :=
  t.OnStore
    (fun counter vs => ∀ x ∈ t.columns.zipIdx,
      t.Fits (chooseRecordId t counter vs).1 x (copiedField x.1 (fieldAt vs x.2)))
    fun id vs r => ∀ x ∈ t.columns.zipIdx, writesField t id t.columns vs x.2 = true →
      t.Fits id x (assignField (r.field x.2) (fieldAt vs x.2))

instance (t : Table) (c : TableCall) : Decidable (t.KeepsConstraints c) :=
  inferInstanceAs (Decidable (t.OnStore _ _ c))

/-! ### One call -/

theorem ieeeEq_comm (F : IeeeFormat) (a b : Nat) : F.ieeeEq a b = F.ieeeEq b a := by
  unfold IeeeFormat.ieeeEq
  rw [Bool.beq_comm, Bool.and_comm (!F.isNaN a), Bool.and_comm (F.isZero a)]

theorem Field.sameValue_comm (f g : Field) : f.sameValue g = g.sameValue f := by
  unfold Field.sameValue
  by_cases h : f.type = g.type
  · rw [h, BEq.rfl, Bool.true_and, Bool.true_and]
    split
    · rfl
    · exact Bool.beq_comm
    · exact Bool.beq_comm
    · exact ieeeEq_comm _ _ _
    · exact ieeeEq_comm _ _ _
    · exact Bool.beq_comm
    · exact Bool.beq_comm
    · exact Bool.beq_comm
    · exact Bool.beq_comm
  · rw [beq_eq_false_iff_ne.mpr h, beq_eq_false_iff_ne.mpr (Ne.symm h), Bool.false_and, Bool.false_and]

/-- Record by record and column by column. -/
theorem constraintsHold_iff {t : Table} : t.ConstraintsHold ↔
    ∀ r ∈ t.records, ∀ x ∈ t.columns.zipIdx, t.Fits r.id x (r.field x.2) := by
  constructor
  · intro h r hr x hx
    exact ⟨h.notNull r hr x hx, fun hu s hs hne => h.unique r hr s hs hne x hx hu⟩
  · intro h
    exact ⟨fun r hr x hx => (h r hr x hx).1, fun r hr s hs hne x hx hu => (h r hr x hx).2 hu s hs hne⟩

instance (t : Table) : Decidable t.ConstraintsHold := decidable_of_iff _ constraintsHold_iff.symm

/-- **Entering a record** keeps the constraints exactly if all its fields fit. -/
theorem Table.Enters.constraints_iff {t t' : Table} {n : Record} (he : t.Enters t' n)
    (h : t.ConstraintsHold) :
    t'.ConstraintsHold ↔ ∀ x ∈ t.columns.zipIdx, t.Fits n.id x (n.field x.2) := by
  rw [constraintsHold_iff] at h ⊢
  rw [he.columns_eq]
  constructor
  -- the conditions on the entered record are among those of the table
  · intro h' x hx
    have hn := h' n ((he.mem_iff n).mpr (.inl rfl)) x hx
    exact ⟨hn.1, fun hu s hs hne => hn.2 hu s ((he.mem_iff s).mpr (.inr ⟨hs, hne⟩)) hne⟩
  -- two old records fit as before, so that one of the two is the new one
  · intro hn r hr x hx
    rcases (he.mem_iff r).mp hr with rfl | ⟨hr, hrn⟩
    · refine ⟨(hn x hx).1, fun hu s hs hne => ?_⟩
      rcases (he.mem_iff s).mp hs with rfl | ⟨hs, -⟩
      · exact absurd rfl hne
      · exact (hn x hx).2 hu s hs hne
    · refine ⟨(h r hr x hx).1, fun hu s hs hne => ?_⟩
      rcases (he.mem_iff s).mp hs with rfl | ⟨hs, -⟩
      · -- The new record against an old one.
        rw [Field.sameValue_comm]
        exact (hn x hx).2 hu r hr hrn
      · exact (h r hr x hx).2 hu s hs hne

theorem Table.ConstraintsHold.sublist {t t' : Table} (h : t.ConstraintsHold)
    (hcols : t'.columns = t.columns) (hsub : t'.records.Sublist t.records) :
    t'.ConstraintsHold where
  notNull r hr := hcols ▸ h.notNull r (hsub.subset hr)
  unique r hr s hs := hcols ▸ h.unique r (hsub.subset hr) s (hsub.subset hs)

/-- **A call keeps the constraints exactly if what it stores fits.** -/
theorem step_constraints_iff {t : Table} (ht : t.Inv) (h : t.ConstraintsHold) (c : TableCall) :
    (t.step c).ConstraintsHold ↔ t.KeepsConstraints c := by
  refine onStore_iff (P := fun c => (t.step c).ConstraintsHold) ?_ ?_ ?_ c
  -- an insert enters a record with the types of the columns
  · intro counter now vs hacc
    rw [(enters_insert hacc now).constraints_iff h]
    apply forall₂_congr
    intro x hx
    rw [field_newRecord (List.mem_zipIdx_iff_getElem?.mp hx)]
    rfl
  -- an update enters the changed record in the place of the old one
  · intro now id vs r hl
    obtain ⟨r', hid, he, hfields⟩ := enters_update ht hl now vs
    rw [he.constraints_iff h, hid]
    apply forall₂_congr
    intro x hx
    rw [hfields x.2 (lt_of_mem_zipIdx hx)]
    split_ifs with hw
    · exact ⟨fun hfit _ => hfit, fun hfit => hfit hw⟩
    · -- What the loop does not reach stays, and fitted before.
      have hold := constraintsHold_iff.mp h r (mem_of_lookup hl) x hx
      rw [key_of_lookup hl] at hold
      exact ⟨fun _ hw' => absurd hw' hw, fun _ => hold⟩
  -- any other call at most takes records out
  · intro c hinsert hupdate
    exact h.sublist (columns_step t c) (step_records_sublist hinsert hupdate)

/-! ### Runs -/

/-- **The declared constraints hold throughout a run exactly if everything that is stored fits.** -/
theorem constraints_run_iff {t : Table} (hfresh : t.Fresh) (calls : List TableCall) :
    (∀ pre, pre <+: calls → (run Table.step t pre).ConstraintsHold) ↔
      Admits Table.step Table.KeepsConstraints t calls := by
  have hempty : t.ConstraintsHold :=
    constraintsHold_iff.mpr fun r hr => absurd hr (by simp [hfresh.1])
  have hiff : (∀ pre, pre <+: calls → (run Table.step t pre).Inv ∧
      (run Table.step t pre).ConstraintsHold) ↔
        Admits Table.step Table.KeepsConstraints t calls := by
    refine forall_prefix_iff_admits (P := fun t : Table => t.Inv ∧ t.ConstraintsHold) ?_
      ⟨hfresh.inv, hempty⟩
    rintro t c - ⟨hinv, h⟩
    rw [← step_constraints_iff hinv h c]
    exact and_iff_right (hinv.step c)
  rw [← hiff]
  refine forall₂_congr fun pre _ => (and_iff_right ?_).symm
  -- The invariant holds in every state anyway.
  have hreach : Table.Reachable (run Table.step t pre) :=
    Reach.run (.start hfresh) (Admits.of_forall (fun _ _ => trivial) _ _)
  exact hreach.inv

/-- A table with a key and a column that is unique and not nullable, as `create_table_interactive`
declares them. -/
def uniqueTable : Table where
  name := cstr "t"
  columns := [⟨cstr "id", .int, ⟨true, false, true, false⟩⟩, ⟨cstr "n", .int, ⟨false, true, false, false⟩⟩]
  records := []
  recordCount := 0
  nextRecordId := 1
  indexes := []
  statistics := ⟨0, 0, 0⟩
  name_lt := by decide
  columns_pos := by decide
  columns_le := by decide

theorem uniqueTable_fresh : uniqueTable.Fresh := ⟨rfl, rfl, rfl, rfl⟩

/-- Two records with different values, one of which is rewritten. -/
theorem constraints_run_iff_different :
    (run Table.step uniqueTable [.insert 1000 0 (some [.ofInt 1, .ofInt 5]),
      .insert 1000 0 (some [.ofInt 2, .ofInt 6]),
      .update 0 2 (some [.ofInt 2, .ofInt 7])]).ConstraintsHold := by
  have hkeeps : Admits Table.step Table.KeepsConstraints uniqueTable
      [.insert 1000 0 (some [.ofInt 1, .ofInt 5]), .insert 1000 0 (some [.ofInt 2, .ofInt 6]),
        .update 0 2 (some [.ofInt 2, .ofInt 7])] := by decide
  exact (constraints_run_iff uniqueTable_fresh _).mpr hkeeps _ (List.prefix_refl _)

/-- A value that another record holds is stored a second time. -/
theorem constraints_broken :
    ¬∀ t : Table, t.Fresh → ∀ calls : List TableCall, (run Table.step t calls).ConstraintsHold := by
  intro h
  have hhold := h uniqueTable uniqueTable_fresh
    [.insert 1000 0 (some [.ofInt 1, .ofInt 5]), .insert 1000 0 (some [.ofInt 2, .ofInt 5])]
  exact absurd hhold (by decide)

end Luminix
