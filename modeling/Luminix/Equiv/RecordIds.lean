import Luminix.Equiv.GeneratedIds
import Luminix.Equiv.Transaction

/-!
# Ids at the ends of the range

One `int` holds the key an insert was given, the mark that it was given none, and the id it
generates.  So the key `-1` is taken for no key (`explicit_key_honoured_iff`), and at `INT_MAX` the
sums that the next id is made from leave the range (`id_arithmetic_fits_iff`).
-/

namespace Luminix

open CLib KeyedList Machine

/-! ### Explicit keys -/

/-- **The key of an insert is honoured**: a successful insert reports it and the record is found by
it, and a key that is taken is refused as such. -/
def Table.HonoursKey (t : Table) (counter now : Int) (vs : List Field) : Prop :=
  let v := (fieldAt vs 0).value.intValue
  (∀ id t' k, tableInsertRecord t counter now (some vs) = (.ok id, t', k) →
    id = v ∧ tableFindRecord t' v = some (newRecord t v now vs)) ∧
  (tableFindRecord t v ≠ none →
    (tableInsertRecord t counter now (some vs)).1 = .error .duplicateKey)

/-- A generated id is not negative, if the counter is not. -/
theorem generateRecordId_nonneg (t : Table) {counter : Int} (h : 0 ≤ counter) :
    0 ≤ (generateRecordId t counter).1 := by
  unfold generateRecordId
  dsimp only
  split_ifs
  · dsimp only
    omega
  · exact h

/-- **An explicit key is honoured** exactly if it is not `-1`, unless the insert is refused, and no
other check fails before the search for a key that is taken. -/
theorem explicit_key_honoured_iff {t : Table} (hkey : t.HasIntKey) {counter : Int}
    (hcounter : 0 ≤ counter) (now : Int) {vs : List Field} (hint : (fieldAt vs 0).type = .int) :
    t.HonoursKey counter now vs ↔
      ((fieldAt vs 0).value.intValue = -1 → ¬t.Accepts counter vs) ∧
      (tableFindRecord t (fieldAt vs 0).value.intValue ≠ none → insertCheck t vs = .success) := by
  obtain ⟨v, hv⟩ : ∃ v, (fieldAt vs 0).value.intValue = v := ⟨_, rfl⟩
  have hexplicit : explicitKey t.columns vs = v := by
    obtain ⟨c, cs, hcols, -, hpk⟩ := hkey
    rw [fieldAt_zero] at hint hv
    rw [hcols, explicitKey, if_pos]
    · exact hv
    · rw [hpk, hint]
      rfl
  unfold Table.HonoursKey
  dsimp only
  rw [hv, tableFindRecord_eq]
  by_cases hacc : t.Accepts counter vs
  · have hins : tableInsertRecord t counter now (some vs) = _ :=
      tableInsertRecord_of_accepted hacc.1 hacc.2
    by_cases hv1 : v = -1
    · -- the key is taken for none, and the id is generated
      have hchoose : (chooseRecordId t counter vs).1 = (generateRecordId t counter).1 := by
        rw [chooseRecordId, if_pos (hexplicit.trans hv1)]
      have hpos := generateRecordId_nonneg t hcounter
      constructor
      · intro h
        have hid := (h.1 _ _ _ hins).1
        omega
      · intro h
        exact absurd hacc (h.1 hv1)
    · have hchoose : (chooseRecordId t counter vs).1 = v := by
        rw [chooseRecordId, if_neg (by rwa [hexplicit]), hexplicit]
      have hfree : lookup Record.id t.records v = none := hchoose ▸ hacc.2
      refine ⟨fun _ => ⟨fun h => absurd h hv1, fun h => absurd hfree h⟩,
        fun _ => ⟨fun id t' k h => ?_, fun h => absurd hfree h⟩⟩
      rw [hins, hchoose] at h
      obtain ⟨hid, ht', -⟩ : id = v ∧ t' = linkRecord t v now vs ∧ _ := by
        simp only [Prod.mk.injEq, Except.ok.injEq] at h
        exact ⟨h.1.symm, h.2.1.symm, h.2.2⟩
      refine ⟨hid, ?_⟩
      rw [ht', find_linkRecord, Function.update_self]
  · have hins := tableInsertRecord_of_refused hacc now
    have hfail : ∀ id t' k, tableInsertRecord t counter now (some vs) ≠ (.ok id, t', k) := by
      intro id t' k h
      rw [h] at hins
      cases hins
    rw [hins]
    constructor
    · rintro ⟨-, htaken⟩
      refine ⟨fun _ => hacc, fun h => ?_⟩
      have hcode := Except.error.inj (htaken h)
      by_contra hc
      rw [if_neg hc] at hcode
      exact insertCheck_ne_duplicateKey t vs hcode
    · rintro ⟨-, hcheck⟩
      refine ⟨fun id t' k h => absurd h (hfail id t' k), fun h => ?_⟩
      rw [if_pos (hcheck h)]

/-- The key 5 in an empty table. -/
theorem explicit_key_honoured_iff_five : keyedTable.HonoursKey 1000 0 [.ofInt 5] := by
  have hfind : tableFindRecord keyedTable (fieldAt [Field.ofInt 5] 0).value.intValue = none := by
    decide
  exact (explicit_key_honoured_iff keyedTable_hasIntKey (by decide) 0 (by decide)).mpr
    ⟨fun h => absurd h (by decide), fun h => absurd hfind h⟩

/-- The key -1 is replaced by a generated id. -/
theorem explicit_key_replaced :
    ¬∀ t : Table, t.Reachable → t.HasIntKey → ∀ now vs, (fieldAt vs 0).type = .int →
      t.HonoursKey 1000 now vs := by
  intro h
  have hid : (tableInsertRecord keyedTable 1000 0 (some [.ofInt (-1)])).1 = .ok 1000 := by decide
  have hhonoured := (h keyedTable (.start keyedTable_fresh) keyedTable_hasIntKey 0 [.ofInt (-1)]
    (by decide)).1 1000 _ _ (by rw [← hid])
  exact absurd hhonoured.1 (by decide)

/-! ### The sums of the id arithmetic -/

/-- The sums an insert forms, before they are cut to `int`: `max_id + 1` and, where the counter is
used, `global_counter + 1` for a generated id, and `record_id + 1` where it becomes
`next_record_id`. -/
def idSums (t : Table) (counter : Int) (vs : List Field) : List Int :=
  if insertCheck t vs = .success then
    (if explicitKey t.columns vs = -1 then
      (maxRecordId t.records + 1) ::
        if intWrap (maxRecordId t.records + 1) > counter then [] else [counter + 1]
    else []) ++
    if tableFindRecord t (chooseRecordId t counter vs).1 = none ∧
        t.nextRecordId ≤ (chooseRecordId t counter vs).1 then
      [(chooseRecordId t counter vs).1 + 1]
    else []
  else []

/-- **No sum of the call leaves the range of `int`.** -/
def Table.IdArithmeticFits (t : Table) : TableCall → Prop
  | .insert counter _ (some vs) => ∀ n ∈ idSums t counter vs, IsInt n
  | _ => True

/-- An insert that passes the checks stays below `INT_MAX`: with a free key of its own, that is
another one; without a key, the next id after the highest one and the counter are. -/
def Table.BelowMax (t : Table) : TableCall → Prop
  | .insert counter _ (some vs) => insertCheck t vs = .success →
    if explicitKey t.columns vs = -1 then maxRecordId t.records + 1 < intMax ∧ counter < intMax
    else tableFindRecord t (explicitKey t.columns vs) = none → explicitKey t.columns vs ≠ intMax
  | _ => True

instance (t : Table) : ∀ c : TableCall, Decidable (t.IdArithmeticFits c)
  | .insert counter _ (some vs) => inferInstanceAs (Decidable (∀ n ∈ idSums t counter vs, IsInt n))
  | .insert _ _ none | .update .. | .delete _ | .sweep .. | .setIndexes _ => .isTrue trivial

instance (t : Table) : ∀ c : TableCall, Decidable (t.BelowMax c)
  | .insert _ _ (some vs) => inferInstanceAs (Decidable (insertCheck t vs = .success → _))
  | .insert _ _ none | .update .. | .delete _ | .sweep .. | .setIndexes _ => .isTrue trivial

/-- The ids and the mark are `int`s. -/
def Table.IntFields (t : Table) : Prop := t.IntIds ∧ IsInt t.nextRecordId

theorem Table.Fresh.intFields {t : Table} (h : t.Fresh) : t.IntFields := by
  obtain ⟨hr, -, hn, -⟩ := h
  refine ⟨fun r hmem => absurd hmem (by simp [hr]), ?_⟩
  rw [hn]
  decide

/-- A table call keeps them in range, if the counter of an insert is. -/
theorem Table.IntFields.step {t : Table} (h : t.IntFields) {c : TableCall}
    (hc : ∀ counter now vs, c = .insert counter now vs → IsInt counter) : (t.step c).IntFields := by
  refine ⟨h.1.step hc, ?_⟩
  cases c with
  | insert counter now values =>
    rcases tableInsertRecord_cases t counter now values with
      ⟨e, k, heq⟩ | ⟨vs, id, k, -, -, -, -, heq⟩
    · rw [Table.step, heq]
      exact h.2
    · rw [Table.step, heq]
      show IsInt (if t.nextRecordId ≤ id then intWrap (id + 1) else t.nextRecordId)
      split_ifs
      · exact isInt_intWrap _
      · exact h.2
  | update now id values =>
    rcases tableUpdateRecord_cases t now id values with
      ⟨-, heq⟩ | ⟨vs, -, -, heq⟩ | ⟨vs, r, fields, -, -, -, heq⟩ | ⟨vs, r, fields, -, -, -, heq⟩
    all_goals
      rw [Table.step, heq]
      exact h.2
  | delete id =>
    rcases tableDeleteRecord_cases t id with ⟨-, heq⟩ | ⟨-, heq⟩
    all_goals
      rw [Table.step, heq]
      exact h.2
  | sweep j v => exact h.2
  | setIndexes indexes => exact h.2

theorem Table.IntFields.run {t : Table} (h : t.IntFields) {cs : List TableCall}
    (hcs : ∀ c ∈ cs, ∀ counter now vs, c = .insert counter now vs → IsInt counter) :
    (run Table.step t cs).IntFields := by
  have hadm : Admits Table.step
      (fun _ c => ∀ counter now vs, c = .insert counter now vs → IsInt counter) t cs :=
    Admits.of_forall_mem (fun c hc _ => hcs c hc) t
  exact run_invariant (P := Table.IntFields) (fun _ _ ht hc => ht.step hc) h hadm

/-- The highest id is an `int`, and not negative. -/
theorem maxRecordId_le {t : Table} (h : t.IntIds) :
    0 ≤ maxRecordId t.records ∧ maxRecordId t.records ≤ intMax := by
  obtain ⟨h0, -, hmax⟩ := maxRecordId_spec t.records
  refine ⟨h0, ?_⟩
  rcases hmax with hzero | ⟨r, hr, heq⟩
  · rw [hzero]
    decide
  · rw [← heq]
    exact (h r hr).2

/-- The sums of an insert with a key of its own. -/
theorem idSums_fit_of_key {t : Table} (h : t.IntFields) (counter : Int) {vs : List Field}
    (hcheck : insertCheck t vs = .success) (hkey : explicitKey t.columns vs ≠ -1)
    (hint : IsInt (explicitKey t.columns vs)) :
    (∀ n ∈ idSums t counter vs, IsInt n) ↔
      (tableFindRecord t (explicitKey t.columns vs) = none →
        explicitKey t.columns vs ≠ intMax) := by
  have hchoose : (chooseRecordId t counter vs).1 = explicitKey t.columns vs := by
    rw [chooseRecordId, if_neg hkey]
  have hnext := h.2
  rw [idSums, if_pos hcheck, if_neg hkey, hchoose, List.nil_append]
  simp only [IsInt, intMax] at hint hnext ⊢
  split_ifs with hraise
  · simp only [List.mem_singleton, forall_eq, hraise.1, forall_const]
    omega
  · -- a free key below the mark is below `INT_MAX`
    refine ⟨fun _ hfree => ?_, fun _ n hn => absurd hn List.not_mem_nil⟩
    have hbelow : ¬t.nextRecordId ≤ explicitKey t.columns vs := fun hle => hraise ⟨hfree, hle⟩
    omega

/-- The sums of an insert without a key. -/
theorem idSums_fit_of_no_key {t : Table} (h : t.IntFields) {counter : Int}
    (hcounter : IsInt counter) {vs : List Field} (hcheck : insertCheck t vs = .success)
    (hkey : explicitKey t.columns vs = -1) :
    (∀ n ∈ idSums t counter vs, IsInt n) ↔
      maxRecordId t.records + 1 < intMax ∧ counter < intMax := by
  obtain ⟨hnonneg, hmax⟩ := maxRecordId_le h.1
  have hnext := h.2
  have hchoose : chooseRecordId t counter vs = generateRecordId t counter := if_pos hkey
  rw [idSums, if_pos hcheck, if_pos hkey, hchoose]
  by_cases hlt : maxRecordId t.records < intMax
  · -- `max_id + 1` fits, and the generated id is free
    have hids : t.IdsBelow := fun r hr => ((maxRecordId_spec t.records).2.1 r hr).trans_lt hlt
    have hfree := lookup_generateRecordId hids counter
    rw [generateRecordId_eq hids] at hfree ⊢
    simp only [intMax] at hlt ⊢
    have hwrap : intWrap (maxRecordId t.records + 1) = maxRecordId t.records + 1 :=
      intWrap_eq_self ⟨by omega, by omega⟩
    rw [hwrap, tableFindRecord_eq, hfree]
    simp only [true_and, IsInt, gt_iff_lt] at hcounter hnext ⊢
    split_ifs <;> simp <;> omega
  · constructor
    · intro hfits
      have hsum := hfits (maxRecordId t.records + 1) (by simp)
      simp only [IsInt, intMax] at hsum hlt
      omega
    · intro hbelow
      omega

/-- **The sums of a call fit exactly if it stays below `INT_MAX`.** -/
theorem idArithmeticFits_iff {t : Table} (h : t.IntFields) {c : TableCall}
    (hc : ∀ counter now vs, c = .insert counter now vs → IsInt counter) :
    t.IdArithmeticFits c ↔ t.BelowMax c := by
  cases c with
  | insert counter now values =>
    cases values with
    | none => exact Iff.rfl
    | some vs =>
      rw [Table.IdArithmeticFits, Table.BelowMax]
      by_cases hcheck : insertCheck t vs = .success
      · rw [forall_prop_of_true hcheck]
        split_ifs with hkey
        · exact idSums_fit_of_no_key h (hc _ _ _ rfl) hcheck hkey
        · exact idSums_fit_of_key h counter hcheck hkey (isInt_explicitKey _ _)
      · refine ⟨fun _ hcheck' => absurd hcheck' hcheck, fun _ n hn => ?_⟩
        rw [idSums, if_neg hcheck] at hn
        exact absurd hn List.not_mem_nil
  | update | delete | sweep | setIndexes => exact Iff.rfl

/-! ### Runs -/

/-- What the type `int` guarantees of the counter and of every table. -/
def Store.IntFields (s : Store) : Prop :=
  IsInt s.globalCounter ∧ ∀ (i : Nat), ∀ t ∈ s.db.tables[i]?, t.IntFields

/-- No sum of the inserts that the call makes leaves the range. -/
def Store.IdArithmeticFits (s : Store) (c : Call) : Prop :=
  ∀ i t cs, s.Makes c i t cs → Admits Table.step Table.IdArithmeticFits t cs

/-- All inserts that the call makes stay below `INT_MAX`. -/
def Store.BelowMax (s : Store) (c : Call) : Prop :=
  ∀ i t cs, s.Makes c i t cs → Admits Table.step Table.BelowMax t cs

/-- The counters that a call inserts with are `int`s. -/
theorem isInt_of_makes {s : Store} (h : s.IntFields) {c : Call} {i : Nat} {t : Table}
    {cs : List TableCall} (hm : s.Makes c i t cs) {c' : TableCall} (hc : c' ∈ cs) :
    ∀ counter now vs, c' = .insert counter now vs → IsInt counter := by
  rintro counter now vs rfl
  rcases hm.countsFrom _ hc with heq | hint
  · exact heq ▸ h.1
  · exact hint

theorem Store.IntFields.step {s : Store} (h : s.IntFields) (c : Call) : (s.step c).IntFields := by
  constructor
  · rcases s.counterStep c with heq | hint
    · exact heq ▸ h.1
    · exact hint
  · intro i
    refine (Store.step_forall_iff (fun _ ht _ => ht.intFields) (h.2 i) c).mpr fun t cs hm => ?_
    exact (h.2 i t hm.found).run fun _ hc => isInt_of_makes h hm hc

theorem Store.idArithmeticFits_iff {s : Store} (h : s.IntFields) (c : Call) :
    s.IdArithmeticFits c ↔ s.BelowMax c := by
  refine forall₄_congr fun i t cs hm => admits_congr fun pre c' hpre => ?_
  have hmem : ∀ c ∈ pre ++ [c'], c ∈ cs := fun c hc => hpre.subset hc
  have hpre' : (run Table.step t pre).IntFields := (h.2 i t hm.found).run fun c hc =>
    isInt_of_makes h hm (hmem c (List.mem_append_left _ hc))
  exact Luminix.idArithmeticFits_iff hpre' (isInt_of_makes h hm (hmem c' (by simp)))

/-- **The arithmetic of the ids stays in range throughout a run** exactly if every insert that
passes the checks stays below `INT_MAX`. -/
theorem id_arithmetic_fits_iff {s : Store} (h : s.IntFields) (calls : List Call) :
    Admits Store.step Store.IdArithmeticFits s calls ↔ Admits Store.step Store.BelowMax s calls :=
  admits_iff_of_invariant (P := Store.IntFields) (fun _ c hs => Store.idArithmeticFits_iff hs c)
    (fun _ c hs _ => hs.step c) h calls

theorem intFields_dbCreate : Store.IntFields ⟨dbCreate, 1000⟩ := by
  refine ⟨by decide, fun i t ht => ?_⟩
  simp [dbCreate] at ht

/-- A new table, and an insert under the key 5. -/
theorem id_arithmetic_fits_iff_five : Admits Store.step Store.IdArithmeticFits ⟨dbCreate, 1000⟩
    [.addTable (some (cstr "t")) (some [(some (cstr "id"), .int)]),
      .tableInsert 0 0 (some [.ofInt 5])] := by
  refine (id_arithmetic_fits_iff intFields_dbCreate _).mpr ⟨?_, ?_, trivial⟩
  · intro i t cs hm
    cases hm
  · intro i t cs hm
    cases hm with
    | tableInsert ht =>
      have hbelow : ∀ t ∈ (run Store.step ⟨dbCreate, 1000⟩
          [.addTable (some (cstr "t")) (some [(some (cstr "id"), .int)])]).db.tables[0]?,
          t.BelowMax (.insert 1000 0 (some [.ofInt 5])) := by decide
      exact ⟨hbelow t ht, trivial⟩

/-- The key `INT_MAX` is accepted, and the mark behind it overflows. -/
theorem id_arithmetic_overflows :
    ¬∀ calls : List Call, Admits Store.step Store.IdArithmeticFits ⟨dbCreate, 1000⟩ calls := by
  intro h
  obtain ⟨-, hins, -⟩ := h [.addTable (some (cstr "t")) (some [(some (cstr "id"), .int)]),
    .tableInsert 0 0 (some [.ofInt 2147483647])]
  have hsome : ((run Store.step ⟨dbCreate, 1000⟩
      [.addTable (some (cstr "t")) (some [(some (cstr "id"), .int)])]).db.tables[0]?).isSome = true := by
    decide
  obtain ⟨t, ht⟩ := Option.isSome_iff_exists.mp hsome
  have hover : ∀ t ∈ (run Store.step ⟨dbCreate, 1000⟩
      [.addTable (some (cstr "t")) (some [(some (cstr "id"), .int)])]).db.tables[0]?,
      ¬t.IdArithmeticFits (.insert 1000 0 (some [.ofInt 2147483647])) := by decide
  exact hover t ht (hins 0 t _ (.tableInsert ht)).1

end Luminix
