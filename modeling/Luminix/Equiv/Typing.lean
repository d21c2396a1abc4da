import Luminix.Equiv.Fields

/-!
# Types of stored values

A stored field has a tag of its own next to the type of its column, and its payload was handed over
under a third type, that of the value in the call.  `TypedTable` keeps the last one beside the
table.  An insert takes the tag from the schema and an update takes it from the caller, and both
copy the payload whatever it is; so the three agree throughout a run exactly as long as every value
that is stored comes with the type of its column (`typed_run_iff`).
-/

namespace Luminix

open CLib KeyedList Machine

/-- A table, and the type under which the payload of each column of each record was supplied. -/
structure TypedTable where
  table : Table
  supplied : Int → Nat → FieldType

/-- The types that a call supplies for what it stores. -/
def Table.supply (t : Table) (supplied : Int → Nat → FieldType) : TableCall → Int → Nat → FieldType
  | .insert counter _ (some vs) =>
    if t.Accepts counter vs then
      Function.update supplied (chooseRecordId t counter vs).1 fun j => (fieldAt vs j).type
    else supplied
  | .update _ id (some vs) =>
    if lookup Record.id t.records id = none then supplied
    else
      Function.update supplied id fun j =>
        if writesField t id t.columns vs j then (fieldAt vs j).type else supplied id j
  | _ => supplied

/-- A call, with the types it supplies. -/
def TypedTable.step (s : TypedTable) (c : TableCall) : TypedTable :=
  ⟨s.table.step c, s.table.supply s.supplied c⟩

/-- The field `f` in a column, with a payload of the type `supplied`. -/
def Column.Types (c : Column) (f : Field) (supplied : FieldType) : Prop :=
  (f.type = c.type ∨ f.type = .null) ∧ supplied = f.type

instance (c : Column) (f : Field) (supplied : FieldType) : Decidable (c.Types f supplied) :=
  inferInstanceAs (Decidable (_ ∧ _))

/-- **The stored values are typed by the schema**: every tag is that of the column or NULL, and the
payload was supplied under the type of the tag. -/
def TypedTable.Typed (s : TypedTable) : Prop :=
  ∀ r ∈ s.table.records, ∀ x ∈ s.table.columns.zipIdx,
    x.1.Types (r.field x.2) (s.supplied r.id x.2)

instance (s : TypedTable) : Decidable s.Typed :=
  inferInstanceAs (Decidable (∀ r ∈ s.table.records, _))

/-- The values that the call stores have the types of their columns; an update may also store NULL,
and a value without a type where the field has none. -/
def Table.SuppliesTypes (t : Table) : TableCall → Prop :=
  t.OnStore
    (fun _ vs => ∀ x ∈ t.columns.zipIdx, (fieldAt vs x.2).type = x.1.type)
    fun id vs r => ∀ x ∈ t.columns.zipIdx, writesField t id t.columns vs x.2 = true →
      if (fieldAt vs x.2).type = .unknown then (r.field x.2).type = .unknown
      else (fieldAt vs x.2).type = x.1.type ∨ (fieldAt vs x.2).type = .null

instance (t : Table) (c : TableCall) : Decidable (t.SuppliesTypes c) :=
  inferInstanceAs (Decidable (t.OnStore _ _ c))

/-! ### One call -/

/-- A call that stores nothing supplies no types. -/
theorem supply_eq {t : Table} {supplied : Int → Nat → FieldType} {c : TableCall}
    (hinsert : ∀ counter now vs, c = .insert counter now (some vs) → ¬t.Accepts counter vs)
    (hupdate : ∀ now id vs, c = .update now id (some vs) → lookup Record.id t.records id = none) :
    t.supply supplied c = supplied := by
  unfold Table.supply
  split
  · exact if_neg (hinsert _ _ _ rfl)
  · exact if_pos (hupdate _ _ _ rfl)
  · rfl

/-- A field that an insert copies. -/
theorem types_copiedField_iff (c : Column) (v : Field) :
    c.Types (copiedField c v) v.type ↔ v.type = c.type :=
  and_iff_right (.inl rfl)

/-- A field that an update assigns, in the place of one that was typed. -/
theorem types_assignField_iff {c : Column} {old : Field} {supplied : FieldType}
    (hold : c.Types old supplied) (v : Field) : c.Types (assignField old v) v.type ↔
      if v.type = .unknown then old.type = .unknown else v.type = c.type ∨ v.type = .null := by
  have htype : (assignField old v).type = if v.type ≠ .unknown then v.type else old.type := rfl
  unfold Column.Types
  rw [htype]
  by_cases hv : v.type = .unknown
  · rw [if_neg (not_not.mpr hv), if_pos hv, hv]
    exact (and_iff_right hold.1).trans eq_comm
  · rw [if_pos hv, if_neg hv]
    exact and_iff_left rfl

/-- **Entering a record** whose types are `supplied'`, those of the other records kept. -/
theorem Table.Enters.typed_iff {s : TypedTable} {t' : Table} {n : Record} (he : s.table.Enters t' n)
    (h : s.Typed) {supplied' : Int → Nat → FieldType}
    (hother : ∀ id, id ≠ n.id → supplied' id = s.supplied id) :
    (TypedTable.mk t' supplied').Typed ↔
      ∀ x ∈ s.table.columns.zipIdx, x.1.Types (n.field x.2) (supplied' n.id x.2) := by
  unfold TypedTable.Typed
  dsimp only
  rw [he.columns_eq]
  constructor
  · intro h'
    exact h' n ((he.mem_iff n).mpr (.inl rfl))
  · intro hn r hr x hx
    rcases (he.mem_iff r).mp hr with rfl | ⟨hr, hrn⟩
    · exact hn x hx
    · rw [hother r.id hrn]
      exact h r hr x hx

theorem TypedTable.Typed.sublist {s : TypedTable} (h : s.Typed) {t' : Table}
    (hcols : t'.columns = s.table.columns) (hsub : t'.records.Sublist s.table.records) :
    (TypedTable.mk t' s.supplied).Typed := by
  intro r hr x hx
  exact h r (hsub.subset hr) x (hcols ▸ hx)

/-- An insert that is accepted. -/
theorem typed_insert_iff {s : TypedTable} (h : s.Typed) {counter : Int} {vs : List Field}
    (hacc : s.table.Accepts counter vs) (now : Int) :
    (s.step (.insert counter now (some vs))).Typed ↔
      ∀ x ∈ s.table.columns.zipIdx, (fieldAt vs x.2).type = x.1.type := by
  have hsupply : s.table.supply s.supplied (.insert counter now (some vs)) =
      Function.update s.supplied (chooseRecordId s.table counter vs).1
        fun j => (fieldAt vs j).type := if_pos hacc
  rw [TypedTable.step, hsupply,
    (enters_insert hacc now).typed_iff h fun id hid => Function.update_of_ne hid _ _]
  apply forall₂_congr
  intro x hx
  rw [field_newRecord (List.mem_zipIdx_iff_getElem?.mp hx)]
  show x.1.Types _ (Function.update s.supplied (chooseRecordId s.table counter vs).1
    (fun j => (fieldAt vs j).type) (chooseRecordId s.table counter vs).1 x.2) ↔ _
  rw [Function.update_self]
  exact types_copiedField_iff x.1 _

/-- An update that finds its record. -/
theorem typed_update_iff {s : TypedTable} (ht : s.table.Inv) (h : s.Typed) {id : Int} {r : Record}
    (hl : lookup Record.id s.table.records id = some r) (now : Int) (vs : List Field) :
    (s.step (.update now id (some vs))).Typed ↔
      ∀ x ∈ s.table.columns.zipIdx, writesField s.table id s.table.columns vs x.2 = true →
        if (fieldAt vs x.2).type = .unknown then (r.field x.2).type = .unknown
        else (fieldAt vs x.2).type = x.1.type ∨ (fieldAt vs x.2).type = .null := by
  have hfound : lookup Record.id s.table.records id ≠ none := by
    rw [hl]
    exact nofun
  have hsupply : s.table.supply s.supplied (.update now id (some vs)) =
      Function.update s.supplied id fun j =>
        if writesField s.table id s.table.columns vs j then (fieldAt vs j).type
        else s.supplied id j := if_neg hfound
  obtain ⟨r', hid, he, hfields⟩ := enters_update ht hl now vs
  have hrid : r.id = id := key_of_lookup hl
  rw [TypedTable.step, hsupply,
    he.typed_iff h fun id' hid' => Function.update_of_ne (hid ▸ hid') _ _, hid, Function.update_self]
  apply forall₂_congr
  intro x hx
  have hold : x.1.Types (r.field x.2) (s.supplied id x.2) := hrid ▸ h r (mem_of_lookup hl) x hx
  rw [hfields x.2 (lt_of_mem_zipIdx hx)]
  by_cases hw : writesField s.table id s.table.columns vs x.2 = true
  · rw [if_pos hw, if_pos hw, types_assignField_iff hold]
    exact ⟨fun hcond _ => hcond, fun hcond => hcond hw⟩
  · -- What the loop does not reach stays as it was.
    rw [if_neg hw, if_neg hw]
    exact ⟨fun _ hw' => absurd hw' hw, fun _ => hold⟩

/-- **A call keeps the stored values typed exactly if it supplies the types of the columns.** -/
theorem step_typed_iff {s : TypedTable} (ht : s.table.Inv) (h : s.Typed) (c : TableCall) :
    (s.step c).Typed ↔ s.table.SuppliesTypes c := by
  refine onStore_iff (P := fun c => (s.step c).Typed) ?_ ?_ ?_ c
  · intro counter now vs hacc
    exact typed_insert_iff h hacc now
  · intro now id vs r hl
    exact typed_update_iff ht h hl now vs
  · intro c hinsert hupdate
    have hsupply : s.table.supply s.supplied c = s.supplied := supply_eq hinsert hupdate
    rw [TypedTable.step, hsupply]
    exact h.sublist (columns_step _ c) (step_records_sublist hinsert hupdate)

/-! ### Runs -/

/-- **Stored values stay typed throughout a run exactly if every value that is stored comes with the
type of its column.** -/
theorem typed_run_iff {t : Table} (hfresh : t.Fresh) (supplied : Int → Nat → FieldType)
    (calls : List TableCall) :
    (∀ pre, pre <+: calls → (run TypedTable.step ⟨t, supplied⟩ pre).Typed) ↔
      Admits TypedTable.step (fun s c => s.table.SuppliesTypes c) ⟨t, supplied⟩ calls := by
  have hempty : (TypedTable.mk t supplied).Typed := by
    intro r hr
    exact absurd hr (by simp [hfresh.1])
  have hinv : ∀ pre, (run TypedTable.step ⟨t, supplied⟩ pre).table.Inv := fun pre =>
    run_invariant (P := fun s : TypedTable => s.table.Inv) (fun s c hs _ => hs.step c) hfresh.inv
      (Admits.of_forall (fun _ _ => trivial) _ pre)
  -- the table invariant goes along, since the step lemma asks for it
  have hiff : (∀ pre, pre <+: calls → (run TypedTable.step ⟨t, supplied⟩ pre).table.Inv ∧
      (run TypedTable.step ⟨t, supplied⟩ pre).Typed) ↔
        Admits TypedTable.step (fun s c => s.table.SuppliesTypes c) ⟨t, supplied⟩ calls := by
    refine forall_prefix_iff_admits (P := fun s : TypedTable => s.table.Inv ∧ s.Typed) ?_
      ⟨hfresh.inv, hempty⟩
    rintro s c - ⟨hs, h⟩
    rw [← step_typed_iff hs h c]
    exact and_iff_right (hs.step c)
  rw [← hiff]
  exact forall₂_congr fun pre _ => (and_iff_right (hinv pre)).symm

/-- A table with an `INT` and a `STRING` column. -/
def typedTable : Table :=
  newTable (cstr "t") [(cstr "id", .int), (cstr "s", .string)] (by decide) (by decide)

theorem typedTable_fresh : typedTable.Fresh := ⟨rfl, rfl, rfl, rfl⟩

/-- A `STRING` value as the callers of the interface build it. -/
def Field.ofString (s : CString) : Field := ⟨default, .string, FieldValue.zero.setString s⟩

/-- A record whose second field is replaced by another string. -/
theorem typed_run_iff_strings :
    (run TypedTable.step ⟨typedTable, fun _ _ => .unknown⟩
      [.insert 1000 0 (some [.ofInt 1, .ofString (cstr "a")]),
        .update 0 1 (some [.ofInt 1, .ofString (cstr "b")])]).Typed := by
  have hsupplies : Admits TypedTable.step (fun s c => s.table.SuppliesTypes c)
      ⟨typedTable, fun _ _ => .unknown⟩
      [.insert 1000 0 (some [.ofInt 1, .ofString (cstr "a")]),
        .update 0 1 (some [.ofInt 1, .ofString (cstr "b")])] := by decide
  exact (typed_run_iff typedTable_fresh _ _).mpr hsupplies _ (List.prefix_refl _)

/-- A number is stored as the payload of a string. -/
theorem typed_broken :
    ¬∀ t : Table, t.Fresh → ∀ (supplied : Int → Nat → FieldType) (calls : List TableCall),
      (run TypedTable.step ⟨t, supplied⟩ calls).Typed := by
  intro h
  have htyped := h typedTable typedTable_fresh (fun _ _ => .unknown)
    [.insert 1000 0 (some [.ofInt 1, .ofInt 65])]
  exact absurd htyped (by decide)

end Luminix
