import Luminix.Equiv.Fields

/-!
# The table as a finite map from ids to records

Read through `table_find_record`, a table is a finite map.  With the distinct ids of a reachable
table, `KeyedList` gives the map after each operation as a `Function.update` of the map before it.
The laws are collected in `FiniteMapLaws` and hold of every reachable table
(`Table.Reachable.finiteMapLaws`).
-/

namespace Luminix

open CLib KeyedList Machine

/-! ### The loops over the columns, by index -/

/-- No `TYPE_NULL` value for a column that is not nullable. -/
theorem nullViolation_eq_false {cs : List Column} {vs : List Field}
    (h : ∀ i c, cs[i]? = some c → c.constraint.nullable = false → (fieldAt vs i).type ≠ .null) :
    nullViolation cs vs = false := by
  induction cs generalizing vs with
  | nil => rfl
  | cons c cs ih =>
    have hrest : nullViolation cs vs.tail = false :=
      ih fun i c' hc hn => fieldAt_succ vs i ▸ h (i + 1) c' hc hn
    rw [nullViolation, hrest, Bool.or_false, ← fieldAt_zero]
    cases hn : c.constraint.nullable with
    | true => rfl
    | false => simpa using h 0 c rfl hn

/-- Without a `TYPE_INT` value in a primary key column the id is generated. -/
theorem explicitKey_eq_neg_one {cs : List Column} {vs : List Field}
    (h : ∀ i c, cs[i]? = some c → c.constraint.primaryKey = true → (fieldAt vs i).type ≠ .int) :
    explicitKey cs vs = -1 := by
  induction cs generalizing vs with
  | nil => rfl
  | cons c cs ih =>
    have hrest : explicitKey cs vs.tail = -1 :=
      ih fun i c' hc hn => fieldAt_succ vs i ▸ h (i + 1) c' hc hn
    rw [explicitKey, hrest, ← fieldAt_zero, if_neg]
    intro hcond
    rw [Bool.and_eq_true, beq_iff_eq] at hcond
    exact h 0 c rfl hcond.1 hcond.2

/-- The payloads of the new record are the supplied ones. -/
theorem fieldAt_copyFields {cs : List Column} {vs : List Field} {i : Nat} (h : i < cs.length) :
    (fieldAt (copyFields cs vs) i).value = (fieldAt vs i).value := by
  obtain ⟨c, hc⟩ : ∃ c, cs[i]? = some c := ⟨_, List.getElem?_eq_getElem h⟩
  have hcopy := getElem?_copyFields cs vs i
  rw [hc, Option.map_some] at hcopy
  rw [fieldAt_of_getElem? hcopy]
  rfl

/-! ### Generated ids -/

/-- The scan finds a bound of all ids, and the bound is zero or one of them. -/
theorem maxRecordId_spec (l : List Record) :
    0 ≤ maxRecordId l ∧ (∀ r ∈ l, r.id ≤ maxRecordId l) ∧
      (maxRecordId l = 0 ∨ ∃ r ∈ l, r.id = maxRecordId l) := by
  -- the scan is a fold, so its start value `m` is kept general
  have hfold : ∀ (l : List Record) (m : Int),
      let res := l.foldl (fun m r => if r.id > m then r.id else m) m
      m ≤ res ∧ (∀ r ∈ l, r.id ≤ res) ∧ (res = m ∨ ∃ r ∈ l, r.id = res) := by
    intro l
    induction l with
    | nil => exact fun m => ⟨le_refl _, by simp, .inl rfl⟩
    | cons a l ih =>
      intro m
      obtain ⟨h1, h2, h3⟩ := ih (if a.id > m then a.id else m)
      rw [List.foldl_cons]
      have hmax : m ≤ (if a.id > m then a.id else m) ∧ a.id ≤ (if a.id > m then a.id else m) := by
        split <;> omega
      refine ⟨hmax.1.trans h1, ?_, ?_⟩
      · intro r hr
        rcases List.mem_cons.mp hr with rfl | hr
        · exact hmax.2.trans h1
        · exact h2 r hr
      · rcases h3 with h3 | ⟨r, hr, h3⟩
        · rw [h3]
          split
          · exact .inr ⟨a, by simp, rfl⟩
          · exact .inl rfl
        · exact .inr ⟨r, by simp [hr], h3⟩
  exact hfold l 0

/-- A generated id is new, whatever the counter, while no id is `INT_MAX`. -/
theorem lookup_generateRecordId {t : Table} (hids : t.IdsBelow) (counter : Int) :
    lookup Record.id t.records (generateRecordId t counter).1 = none := by
  obtain ⟨h0, hle, hmax⟩ := maxRecordId_spec t.records
  have hlt : maxRecordId t.records < intMax := by
    rcases hmax with h | ⟨r, hr, h⟩
    · rw [h]
      decide
    · exact h ▸ hids r hr
  have hwrap : intWrap (maxRecordId t.records + 1) = maxRecordId t.records + 1 := by
    simp only [intMax] at hlt
    exact intWrap_eq_self ⟨by omega, by omega⟩
  rw [lookup_eq_none_iff]
  intro r hr heq
  have hr' := hle r hr
  unfold generateRecordId at heq
  rw [hwrap] at heq
  dsimp only at heq
  split at heq <;> (dsimp only at heq; omega)

/-! ### The laws -/

/-- The laws of a finite map, for one table. -/
structure FiniteMapLaws (t : Table) : Prop where
  /-- The id a successful insert reports finds the supplied payloads; all other lookups are as
  before. -/
  insert_found : ∀ counter now vs k t' c, tableInsertRecord t counter now vs = (.ok k, t', c) →
    (∃ values r, vs = some values ∧ tableFindRecord t' k = some r ∧
      r.fields.length = t.fieldCount ∧
      ∀ i < t.fieldCount, (fieldAt r.fields i).value = (fieldAt values i).value) ∧
    ∀ j ≠ k, tableFindRecord t' j = tableFindRecord t j
  /-- An insert without an integer key succeeds under a new id. -/
  insert_fresh : ∀ counter now values, 1000 ≤ counter → t.recordCount < maxRecordsPerTable →
    t.IdsBelow → (fieldAt values 0).type ≠ .unknown →
    (∀ i c, t.columns[i]? = some c → c.constraint.nullable = false →
      (fieldAt values i).type ≠ .null) →
    (∀ i c, t.columns[i]? = some c → c.constraint.primaryKey = true →
      (fieldAt values i).type ≠ .int) →
    ∃ k t' c, tableInsertRecord t counter now (some values) = (.ok k, t', c) ∧
      tableFindRecord t k = none
  /-- A successful update changes record `k` only, raises its version by one and keeps the ids. -/
  update_only : ∀ now k vs t', tableUpdateRecord t now k vs = (.success, t') →
    (∃ r r', tableFindRecord t k = some r ∧ tableFindRecord t' k = some r' ∧
      r'.version = intWrap (r.version + 1) ∧ (r.version ≠ intMax → r'.version = r.version + 1)) ∧
    (∀ j ≠ k, tableFindRecord t' j = tableFindRecord t j) ∧
    t'.records.map Record.id = t.records.map Record.id
  /-- A delete succeeds exactly when the id is there. -/
  delete_iff : ∀ k, (tableDeleteRecord t k).1 = .success ↔ tableFindRecord t k ≠ none
  /-- Then the id is gone and the other records are as they were, in the same order. -/
  delete_others : ∀ k t', tableDeleteRecord t k = (.success, t') →
    tableFindRecord t' k = none ∧ t'.records = t.records.filter (·.id ≠ k)
  /-- A failed insert or delete leaves the list as it is. -/
  failed_unchanged : (∀ counter now vs e t' c,
      tableInsertRecord t counter now vs = (.error e, t', c) → t'.records = t.records) ∧
    ∀ k e t', e ≠ .success → tableDeleteRecord t k = (e, t') → t'.records = t.records

/-- The map after a successful insert. -/
theorem find_linkRecord (t : Table) (id now : Int) (vs : List Field) :
    tableFindRecord (linkRecord t id now vs) =
      Function.update (tableFindRecord t) id (some (newRecord t id now vs)) := by
  have heq : ∀ t, tableFindRecord t = lookup Record.id t.records := fun t =>
    funext (tableFindRecord_eq t)
  rw [heq, heq]
  exact lookup_cons

/-- **Every reachable table is a finite map from ids to records.** -/
theorem Table.Reachable.finiteMapLaws {t : Table} (h : t.Reachable) : FiniteMapLaws t where
  insert_found := by
    intro counter now vs k t' c heq
    rcases tableInsertRecord_cases t counter now vs with
      ⟨e, c', h'⟩ | ⟨values, id, c', rfl, -, -, -, h'⟩
    · rw [h'] at heq
      simp at heq
    · rw [h'] at heq
      simp only [Prod.mk.injEq, Except.ok.injEq] at heq
      obtain ⟨rfl, rfl, rfl⟩ := heq
      rw [find_linkRecord]
      refine ⟨⟨values, _, rfl, Function.update_self .., length_copyFields _ _, fun i hi => ?_⟩,
        fun j hj => Function.update_of_ne hj ..⟩
      exact fieldAt_copyFields hi
  insert_fresh := by
    intro counter now values _ hcount hids htype hnull hkey
    have hcheck : insertCheck t values = .success :=
      insertCheck_eq_success_iff.mpr ⟨hcount, fieldAt_zero values ▸ htype, nullViolation_eq_false hnull⟩
    have hchoose : chooseRecordId t counter values = generateRecordId t counter :=
      if_pos (explicitKey_eq_neg_one hkey)
    have hnew := lookup_generateRecordId hids counter
    rw [← hchoose] at hnew
    exact ⟨_, _, _, tableInsertRecord_of_accepted hcheck hnew, by rw [tableFindRecord_eq, hnew]⟩
  update_only := by
    intro now k vs t' heq
    rcases tableUpdateRecord_cases t now k vs with
      ⟨-, h'⟩ | ⟨_, -, -, h'⟩ | ⟨_, _, _, -, -, -, h'⟩ | ⟨values, r, fields, -, hl, -, h'⟩
    · simp [h'] at heq
    · simp [h'] at heq
    · simp [h'] at heq
    · rw [h'] at heq
      obtain rfl := (Prod.mk.inj heq).2
      have hid : (updatedRecord r fields now).id = r.id := rfl
      have hmap := lookup_modify (f := fun _ => updatedRecord r fields now) hl hid
      simp only [tableFindRecord_eq, hmap]
      refine ⟨⟨r, _, hl, Function.update_self .., rfl, fun hne => ?_⟩,
        fun j hj => Function.update_of_ne hj .., ?_⟩
      -- the version counts on as long as it is below `INT_MAX`
      · have hint := h.inv.version_isInt r (mem_of_lookup hl)
        refine intWrap_eq_self ⟨?_, ?_⟩
        · have := hint.1
          omega
        · have := hint.2
          simp only [intMax] at hne
          omega
      · exact map_key_modify fun a ha => by rw [hid, Option.some.inj (hl.symm.trans ha)]
  delete_iff := by
    intro k
    rw [tableFindRecord_eq]
    rcases tableDeleteRecord_cases t k with ⟨hl, h'⟩ | ⟨hl, h'⟩
    · simp [h', hl]
    · simp [h', hl]
  delete_others := by
    intro k t' heq
    rcases tableDeleteRecord_cases t k with ⟨-, h'⟩ | ⟨-, h'⟩
    · simp [h'] at heq
    · rw [h'] at heq
      obtain rfl := (Prod.mk.inj heq).2
      rw [tableFindRecord_eq]
      refine ⟨?_, erase_eq_filter h.inv.ids_nodup⟩
      rw [lookup_erase h.inv.ids_nodup, Function.update_self]
  failed_unchanged := by
    constructor
    · intro counter now vs e t' c heq
      rcases tableInsertRecord_cases t counter now vs with
        ⟨e', c', h'⟩ | ⟨values, id, c', -, -, -, -, h'⟩
      · rw [h'] at heq
        rw [← (Prod.mk.inj (Prod.mk.inj heq).2).1]
      · simp [h'] at heq
    · intro k e t' he heq
      rcases tableDeleteRecord_cases t k with ⟨-, h'⟩ | ⟨-, h'⟩
      · rw [h'] at heq
        rw [← (Prod.mk.inj heq).2]
      · rw [h'] at heq
        exact absurd (Prod.mk.inj heq).1.symm he

/-- A table with an `INT` key after an insert, an update and a delete of another id. -/
theorem Table.Reachable.finiteMapLaws_key5 :
    let t0 := newTable (cstr "t") [(cstr "id", .int)] (by decide) (by decide)
    let t := run Table.step t0
      [.insert 1000 0 (some [.ofInt 5]), .update 0 5 (some [.ofInt 5]), .delete 6]
    FiniteMapLaws t ∧ tableFindRecord t 5 ≠ none := by
  intro t0 t
  have hfresh : t0.Fresh := ⟨rfl, rfl, rfl, rfl⟩
  have hreach : t.Reachable := Reach.run (.start hfresh) (Admits.of_forall (fun _ _ => trivial) _ _)
  exact ⟨Table.Reachable.finiteMapLaws hreach, by decide⟩

end Luminix
