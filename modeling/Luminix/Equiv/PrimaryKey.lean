import Luminix.Equiv.Invariant
import Mathlib.Tactic.SplitIfs

/-!
# The primary key and the record id

A record of a table with an `INT` primary key holds its key twice: as its id, which lookups and
duplicate checks go by, and as the value of its first field.  An insert enters both alike.  An
update checks a new key against the ids of the table and then writes it into the field only, so the
two stay in step exactly as long as no update moves a record to a free key (`keysCoherent_iff`).
-/

namespace Luminix

open CLib KeyedList Machine

/-- The first column is the `INT` primary key. -/
def Table.HasIntKey (t : Table) : Prop :=
  ∃ c cs, t.columns = c :: cs ∧ c.type = .int ∧ c.constraint.primaryKey = true

/-- The value of the first column. -/
def Record.keyValue (r : Record) : Int := (r.fields.headD .zero).value.intValue

/-- Every record's id is its key value, and no two records hold the same one. -/
structure Table.KeysCoherent (t : Table) : Prop where
  keyValue_eq : ∀ r ∈ t.records, r.keyValue = r.id
  keys_nodup : (t.records.map Record.keyValue).Nodup

/-- The values give an `INT` other than `-1` for the first column. -/
def SuppliesKey (values : Option (List Field)) : Prop :=
  ∀ vs ∈ values, (vs.headD .zero).type = .int ∧ (vs.headD .zero).value.intValue ≠ -1

instance (values : Option (List Field)) : Decidable (SuppliesKey values) :=
  inferInstanceAs (Decidable (∀ vs ∈ values, _ ∧ _))

/-- Every insert and every update gives a key. -/
def TableCall.SuppliesKey : TableCall → Prop
  | .insert _ _ values => Luminix.SuppliesKey values
  | .update _ _ values => Luminix.SuppliesKey values
  | _ => True

instance : ∀ c : TableCall, Decidable c.SuppliesKey
  | .insert _ _ values => inferInstanceAs (Decidable (Luminix.SuppliesKey values))
  | .update _ _ values => inferInstanceAs (Decidable (Luminix.SuppliesKey values))
  | .delete _ | .sweep .. | .setIndexes _ => .isTrue trivial

/-- An update does not move a record to a free key: the record is absent, or the key is its own id,
or the key belongs to another record (and the update is refused). -/
def Table.KeepsKey (t : Table) : TableCall → Prop
  | .update _ id values => ∀ vs ∈ values, lookup Record.id t.records id ≠ none →
    (vs.headD .zero).value.intValue = id ∨
      lookup Record.id t.records (vs.headD .zero).value.intValue ≠ none
  | _ => True

/-! ### The key of an inserted and of an updated record -/

/-- The id of an insert is the key it gives. -/
theorem chooseRecordId_of_suppliesKey {t : Table} (hkey : t.HasIntKey) {vs : List Field}
    (hvs : SuppliesKey (some vs)) (counter : Int) :
    (chooseRecordId t counter vs).1 = (vs.headD .zero).value.intValue := by
  obtain ⟨c, cs, hcols, -, hpk⟩ := hkey
  obtain ⟨htype, hne⟩ := hvs vs rfl
  have hexplicit : explicitKey t.columns vs = (vs.headD .zero).value.intValue := by
    rw [hcols, explicitKey, if_pos]
    rw [hpk, htype]
    rfl
  rw [chooseRecordId, hexplicit, if_neg hne]

/-- The key value of a new record is the first value. -/
theorem keyValue_newRecord {t : Table} (hkey : t.HasIntKey) (id now : Int) (vs : List Field) :
    (newRecord t id now vs).keyValue = (vs.headD .zero).value.intValue := by
  obtain ⟨c, cs, hcols, -⟩ := hkey
  rw [Record.keyValue, newRecord, hcols, copyFields, List.headD_cons]

/-- The update loop refuses a taken key before it writes, and else writes the first value. -/
theorem updateFields_key {t : Table} (hkey : t.HasIntKey) (id : Int) {vs : List Field}
    (hvs : SuppliesKey (some vs)) (olds : List Field) :
    ((vs.headD .zero).value.intValue ≠ id ∧
        lookup Record.id t.records (vs.headD .zero).value.intValue ≠ none ∧
        updateFields t id t.columns vs olds = (.duplicateKey, olds)) ∨
    (((vs.headD .zero).value.intValue = id ∨
        lookup Record.id t.records (vs.headD .zero).value.intValue = none) ∧
      ((updateFields t id t.columns vs olds).2.headD .zero).value.intValue =
        (vs.headD .zero).value.intValue) := by
  obtain ⟨c, cs, hcols, -, hpk⟩ := hkey
  obtain ⟨htype, -⟩ := hvs vs rfl
  have hnew : newKey (vs.headD .zero) = (vs.headD .zero).value.intValue := if_pos htype
  have htaken : keyTaken t id c (vs.headD .zero) = true ↔
      (vs.headD .zero).value.intValue ≠ id ∧
        lookup Record.id t.records (vs.headD .zero).value.intValue ≠ none := by
    rw [keyTaken, hpk, htype, hnew, tableFindRecord_eq]
    simp [Option.isSome_iff_ne_none]
  rw [hcols, updateFields]
  by_cases hk : keyTaken t id c (vs.headD .zero) = true
  · obtain ⟨h1, h2⟩ := htaken.mp hk
    exact .inl ⟨h1, h2, if_pos hk⟩
  · rw [if_neg hk]
    refine .inr ⟨?_, rfl⟩
    exact (not_and_or.mp (mt htaken.mpr hk)).imp not_not.mp not_not.mp

/-! ### One call -/

/-- **A call keeps ids and key values in step exactly if it does not move a record to a free key.**
-/
theorem step_keyValue_iff {t : Table} (hkey : t.HasIntKey)
    (h : ∀ r ∈ t.records, r.keyValue = r.id) {c : TableCall} (hc : c.SuppliesKey) :
    (∀ r ∈ (t.step c).records, r.keyValue = r.id) ↔ t.KeepsKey c := by
  cases c with
  | insert counter now values =>
    refine ⟨fun _ => trivial, fun _ => ?_⟩
    rcases tableInsertRecord_cases t counter now values with
      ⟨e, c, heq⟩ | ⟨vs, id, c, rfl, -, hid, -, heq⟩
    · rwa [Table.step, heq]
    · rw [Table.step, heq]
      refine List.forall_mem_cons.mpr ⟨?_, h⟩
      have hchosen := chooseRecordId_of_suppliesKey hkey hc counter
      rw [hid] at hchosen
      rw [keyValue_newRecord hkey]
      exact hchosen.symm
  | update now id values =>
    rcases tableUpdateRecord_cases t now id values with
      ⟨rfl, heq⟩ | ⟨vs, rfl, hl, heq⟩ | ⟨vs, r, fields, rfl, hl, hf, heq⟩ |
      ⟨vs, r, fields, rfl, hl, hf, heq⟩
    · rw [Table.step, heq]
      exact ⟨fun _ vs hvs => absurd hvs (by simp), fun _ => h⟩
    · rw [Table.step, heq]
      exact ⟨fun _ vs _ hno => absurd hl hno, fun _ => h⟩
    all_goals
      -- The record `r` is found; `key` is what the update wants to write into its first field.
      have hfields := updateFields_key hkey id hc r.fields
      have hr : r.keyValue = r.id := h r (mem_of_lookup hl)
      have hid : r.id = id := key_of_lookup hl
      have hkeeps : t.KeepsKey (.update now id (some vs)) ↔
          ((vs.headD .zero).value.intValue = id ∨
            lookup Record.id t.records (vs.headD .zero).value.intValue ≠ none) := by
        constructor
        · exact fun hk => hk vs rfl (by rw [hl]; simp)
        · rintro hk vs' rfl' -
          obtain rfl := Option.some.inj rfl'
          exact hk
      rw [hf] at hfields
      rw [Table.step, heq, hkeeps]
      dsimp only
      rw [forall_mem_modify_iff hl h]
    · -- Refused, at the first column or at a later one.
      show (fields.headD .zero).value.intValue = r.id ↔ _
      rcases hfields with ⟨-, htaken, hsame⟩ | ⟨hfree, hval⟩
      · obtain rfl := (Prod.mk.inj hsame).2
        exact ⟨fun _ => .inr htaken, fun _ => hr⟩
      · rw [hval, hid]
        refine ⟨.inl, fun hk => hk.elim (fun hk => hk) fun htaken => ?_⟩
        exact hfree.resolve_right htaken
    · -- Finished: the key was not taken.
      show (fields.headD .zero).value.intValue = r.id ↔ _
      rcases hfields with ⟨-, -, hsame⟩ | ⟨hfree, hval⟩
      · exact absurd (Prod.mk.inj hsame).1 (by simp)
      · rw [hval, hid]
        refine ⟨.inl, fun hk => hk.elim (fun hk => hk) fun htaken => ?_⟩
        exact hfree.resolve_right htaken
  | delete id =>
    refine ⟨fun _ => trivial, fun _ => ?_⟩
    rcases tableDeleteRecord_cases t id with ⟨-, heq⟩ | ⟨-, heq⟩
    · rwa [Table.step, heq]
    · rw [Table.step, heq]
      exact fun r hr => h r (erase_sublist.subset hr)
  | sweep j value =>
    refine ⟨fun _ => trivial, fun _ r hr => ?_⟩
    simp only [Table.step, deleteMatching, sweepRecords_eq] at hr
    exact h r (List.mem_of_mem_filter hr)
  | setIndexes indexes => exact ⟨fun _ => trivial, fun _ => h⟩

/-! ### Runs -/

/-- With ids equal to key values, distinct ids are distinct keys. -/
theorem Table.Inv.keysCoherent_iff {t : Table} (h : t.Inv) :
    t.KeysCoherent ↔ ∀ r ∈ t.records, r.keyValue = r.id := by
  refine ⟨fun hk => hk.keyValue_eq, fun hk => ⟨hk, ?_⟩⟩
  rw [List.map_congr_left hk]
  exact h.ids_nodup

/-- **Ids and keys stay in step through a run exactly if no update moves a record to a free key.**
-/
theorem keysCoherent_run_iff {t : Table} (hfresh : t.Fresh) (hkey : t.HasIntKey)
    {calls : List TableCall} (hcalls : ∀ c ∈ calls, c.SuppliesKey) :
    (∀ pre, pre <+: calls → (run Table.step t pre).KeysCoherent) ↔
      Admits Table.step Table.KeepsKey t calls := by
  let P : Table → Prop := fun t => t.Inv ∧ t.HasIntKey ∧ t.KeysCoherent
  have hcoherent : t.KeysCoherent :=
    hfresh.inv.keysCoherent_iff.mpr fun r hr => absurd hr (by simp [hfresh.1])
  have hiff : (∀ pre, pre <+: calls → P (run Table.step t pre)) ↔
      Admits Table.step Table.KeepsKey t calls := by
    refine forall_prefix_iff_admits (P := P) ?_ ⟨hfresh.inv, hkey, hcoherent⟩
    rintro t c hmem ⟨hinv, hkey, hcoh⟩
    have hinv' := hinv.step c
    have hkey' : (t.step c).HasIntKey := by
      rw [Table.HasIntKey, columns_step]
      exact hkey
    rw [← step_keyValue_iff hkey hcoh.keyValue_eq (hcalls c hmem), ← hinv'.keysCoherent_iff]
    exact ⟨fun h => h.2.2, fun h => ⟨hinv', hkey', h⟩⟩
  rw [← hiff]
  refine forall_congr' fun pre => forall_congr' fun _ => ?_
  -- The invariant and the columns hold in every state anyway.
  have hP : (run Table.step t pre).Inv ∧ (run Table.step t pre).HasIntKey := by
    refine run_invariant (P := fun t : Table => t.Inv ∧ t.HasIntKey) ?_ ⟨hfresh.inv, hkey⟩
      (Admits.of_forall (fun _ _ => trivial) _ _)
    rintro t c ⟨hi, hk⟩ (- : True)
    refine ⟨hi.step c, ?_⟩
    rw [Table.HasIntKey, columns_step]
    exact hk
  exact ⟨fun h => ⟨hP.1, hP.2, h⟩, fun h => h.2.2⟩

/-- A table with an `INT` key named `id`. -/
def keyedTable : Table := newTable (cstr "t") [(cstr "id", .int)] (by decide) (by decide)

theorem keyedTable_fresh : keyedTable.Fresh := ⟨rfl, rfl, rfl, rfl⟩

theorem keyedTable_hasIntKey : keyedTable.HasIntKey := ⟨_, _, rfl, rfl, rfl⟩

/-- An insert and an update under the same key. -/
theorem keysCoherent_run_iff_same :
    (run Table.step keyedTable
      [.insert 1000 0 (some [.ofInt 5]), .update 0 5 (some [.ofInt 5])]).KeysCoherent := by
  have hcalls : ∀ c ∈ [TableCall.insert 1000 0 (some [.ofInt 5]), .update 0 5 (some [.ofInt 5])],
      c.SuppliesKey := by decide
  have hkeeps : Admits Table.step Table.KeepsKey keyedTable
      [.insert 1000 0 (some [.ofInt 5]), .update 0 5 (some [.ofInt 5])] := by
    refine ⟨trivial, fun vs hvs _ => .inl ?_, trivial⟩
    obtain rfl := Option.some.inj hvs
    decide
  exact (keysCoherent_run_iff keyedTable_fresh keyedTable_hasIntKey hcalls).mpr hkeeps _
    (List.prefix_refl _)

/-- After an update of record 5 to the free key 7, another record can take the key 7 as well. -/
theorem keysCoherent_broken :
    ¬∀ t : Table, t.Fresh → t.HasIntKey → ∀ calls : List TableCall,
      (∀ c ∈ calls, c.SuppliesKey) → (run Table.step t calls).KeysCoherent := by
  intro h
  have hcoherent := h keyedTable keyedTable_fresh keyedTable_hasIntKey
    [.insert 1000 0 (some [.ofInt 5]), .update 0 5 (some [.ofInt 7]),
      .insert 1000 0 (some [.ofInt 7])] (by decide)
  exact absurd hcoherent.keys_nodup (by decide)

end Luminix
