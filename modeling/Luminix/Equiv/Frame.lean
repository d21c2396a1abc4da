import Luminix.Equiv.Store

/-!
# What calls leave alone

A call is about one table, and in it about the records that it names.  Tables keep their places,
names and columns whatever is called (`schema_kept`), a record stays as it is while no call updates
or removes it (`record_kept`), and the version of a record counts the updates that succeed
(`version_counts_updates`).
-/

namespace Luminix

open CLib KeyedList Machine

/-- Wrapping a summand first makes no difference. -/
theorem intWrap_add (m n : Int) : intWrap (intWrap m + n) = intWrap (m + n) := by
  simp only [intWrap, Int.bmod_add_bmod]

/-! ### One table -/

/-- The call does not remove the record with id `k`. -/
def TableCall.Keeps (t : Table) (k : Int) : TableCall → Prop
  | .delete id => id ≠ k
  | .sweep j value => ∀ r ∈ t.records, r.id = k → recordMatches t j value r = false
  | _ => True

/-- The call is an update of id `k`. -/
def TableCall.UpdatesId (k : Int) : TableCall → Prop
  | .update _ id _ => id = k
  | _ => False

/-- One, if the call is an update of id `k` that succeeds. -/
def TableCall.updates (t : Table) (k : Int) : TableCall → Nat
  | .update now id values =>
    if id = k ∧ (tableUpdateRecord t now id values).1 = .success then 1 else 0
  | _ => 0

/-- A record whose id stays its own is found in a list with distinct ids. -/
theorem lookup_of_kept {l l' : List Record} {k : Int} {r : Record} (hnd : (l'.map Record.id).Nodup)
    (hr : lookup Record.id l k = some r) (hmem : r ∈ l') : lookup Record.id l' k = some r := by
  obtain rfl := key_of_lookup hr
  exact lookup_of_mem hnd hmem

/-- What is found after the record with one id has been rewritten. -/
theorem lookup_rewritten {l : List Record} {k id : Int} {r r' : Record} (r₁ : Record)
    (hr : lookup Record.id l k = some r) (hl : lookup Record.id l id = some r')
    (hid : r₁.id = r'.id) :
    (id = k → r' = r ∧ lookup Record.id (modify Record.id (fun _ => r₁) l id) k = some r₁) ∧
      (id ≠ k → lookup Record.id (modify Record.id (fun _ => r₁) l id) k = some r) := by
  rw [lookup_modify (f := fun _ => r₁) hl hid]
  constructor
  · rintro rfl
    exact ⟨Option.some.inj (hl.symm.trans hr), Function.update_self _ _ _⟩
  · intro hne
    rw [Function.update_of_ne (Ne.symm hne)]
    exact hr

/-- **A table call and one record** that it does not remove: the record stays as it is, or the call
is an update of it.  Its version is one up if the update succeeds. -/
theorem Table.step_kept {t : Table} (h : t.Inv) {k : Int} {r : Record}
    (hr : lookup Record.id t.records k = some r) {c : TableCall} (hc : c.Keeps t k) :
    ∃ r', lookup Record.id (t.step c).records k = some r' ∧ (¬c.UpdatesId k → r' = r) ∧
      r'.version = intWrap (r.version + c.updates t k) := by
  have hnd := (h.step c).ids_nodup
  have hversion := h.version_isInt r (mem_of_lookup hr)
  -- what all calls but an update that finds its record have in common
  have hsame : ∀ c : TableCall, r ∈ (t.step c).records → ((t.step c).records.map Record.id).Nodup →
      c.updates t k = 0 → ∃ r', lookup Record.id (t.step c).records k = some r' ∧
        (¬c.UpdatesId k → r' = r) ∧ r'.version = intWrap (r.version + c.updates t k) := by
    intro c hmem hnd hzero
    refine ⟨r, lookup_of_kept hnd hr hmem, fun _ => rfl, ?_⟩
    rw [hzero, Nat.cast_zero, Int.add_zero, intWrap_eq_self hversion]
  cases c with
  | insert counter now values =>
    refine hsame _ ?_ hnd rfl
    rcases tableInsertRecord_cases t counter now values with
      ⟨e, c, heq⟩ | ⟨vs, id, c, -, -, -, -, heq⟩
    · rw [Table.step, heq]
      exact mem_of_lookup hr
    · rw [Table.step, heq]
      exact List.mem_cons_of_mem _ (mem_of_lookup hr)
  | update now id values =>
    rcases tableUpdateRecord_cases t now id values with
      ⟨-, heq⟩ | ⟨vs, -, -, heq⟩ | ⟨vs, r', fields, -, hl, -, heq⟩ | ⟨vs, r', fields, -, hl, -, heq⟩
    · refine hsame _ ?_ hnd ?_
      · rw [Table.step, heq]
        exact mem_of_lookup hr
      · rw [TableCall.updates, heq, if_neg (by simp)]
    · refine hsame _ ?_ hnd ?_
      · rw [Table.step, heq]
        exact mem_of_lookup hr
      · rw [TableCall.updates, heq, if_neg (by simp)]
    · -- the update is broken off: fields may have changed, but not the version
      obtain ⟨heq', hne⟩ := lookup_rewritten { r' with fields } hr hl rfl
      rw [Table.step, TableCall.updates, heq]
      dsimp only
      rw [if_neg (by simp), Nat.cast_zero, Int.add_zero, intWrap_eq_self hversion]
      by_cases hk : id = k
      · obtain ⟨rfl, hfound⟩ := heq' hk
        exact ⟨_, hfound, fun hno => absurd hk hno, rfl⟩
      · exact ⟨r, hne hk, fun _ => rfl, rfl⟩
    · obtain ⟨heq', hne⟩ := lookup_rewritten (updatedRecord r' fields now) hr hl rfl
      rw [Table.step, TableCall.updates, heq]
      dsimp only
      by_cases hk : id = k
      · obtain ⟨rfl, hfound⟩ := heq' hk
        rw [if_pos ⟨hk, rfl⟩]
        exact ⟨_, hfound, fun hno => absurd hk hno, rfl⟩
      · rw [if_neg fun hand => hk hand.1, Nat.cast_zero, Int.add_zero, intWrap_eq_self hversion]
        exact ⟨r, hne hk, fun _ => rfl, rfl⟩
  | delete id =>
    refine hsame _ ?_ hnd rfl
    rcases tableDeleteRecord_cases t id with ⟨-, heq⟩ | ⟨-, heq⟩
    · rw [Table.step, heq]
      exact mem_of_lookup hr
    · rw [Table.step, heq]
      dsimp only
      -- with distinct ids, only the record with that id goes
      rw [erase_eq_filter h.ids_nodup, List.mem_filter]
      exact ⟨mem_of_lookup hr, by simpa [key_of_lookup hr] using fun hk : k = id => hc hk.symm⟩
  | sweep j value =>
    refine hsame _ ?_ hnd rfl
    rw [Table.step, deleteMatching, sweepRecords_eq]
    dsimp only
    rw [List.mem_filter, hc r (mem_of_lookup hr) (key_of_lookup hr)]
    exact ⟨mem_of_lookup hr, rfl⟩
  | setIndexes indexes => exact hsame _ (mem_of_lookup hr) hnd rfl

@[simp] theorem name_step (t : Table) (c : TableCall) : (t.step c).name = t.name := by
  cases c with
  | insert counter now values =>
    rcases tableInsertRecord_cases t counter now values with ⟨e, c, heq⟩ | ⟨vs, id, c, -, -, -, -, heq⟩
    · rw [Table.step, heq]
    · rw [Table.step, heq]
      rfl
  | update now id values =>
    rcases tableUpdateRecord_cases t now id values with
      ⟨-, heq⟩ | ⟨vs, -, -, heq⟩ | ⟨vs, r, fields, -, -, -, heq⟩ | ⟨vs, r, fields, -, -, -, heq⟩
    all_goals rw [Table.step, heq]
  | delete id =>
    rcases tableDeleteRecord_cases t id with ⟨-, heq⟩ | ⟨-, heq⟩
    all_goals rw [Table.step, heq]
  | sweep j value => rfl
  | setIndexes indexes => rfl

/-- Two tables with the same name and the same columns. -/
def Table.SameSchema (t t' : Table) : Prop := t'.name = t.name ∧ t'.columns = t.columns

/-- Table calls keep the schema. -/
theorem Table.run_sameSchema (t : Table) (cs : List TableCall) :
    t.SameSchema (run Table.step t cs) := by
  have hadm : Admits Table.step (fun _ _ => True) t cs := .of_forall (fun _ _ => trivial) t cs
  refine run_invariant (P := t.SameSchema) (fun t' c ht' _ => ?_) ⟨rfl, rfl⟩ hadm
  exact ⟨(name_step t' c).trans ht'.1, (columns_step t' c).trans ht'.2⟩

/-- **Insertions keep every record.** -/
theorem Table.run_inserts_kept {t : Table} (h : t.Inv) {k : Int} {r : Record}
    (hr : lookup Record.id t.records k = some r) {cs : List TableCall}
    (hcs : ∀ c ∈ cs, ∃ counter now values, c = .insert counter now values) :
    lookup Record.id (run Table.step t cs).records k = some r := by
  have hstep : ∀ (t : Table) (c : TableCall), t.Inv ∧ lookup Record.id t.records k = some r →
      (∃ counter now values, c = .insert counter now values) →
      (t.step c).Inv ∧ lookup Record.id (t.step c).records k = some r := by
    rintro t _ ⟨hinv, hfound⟩ ⟨counter, now, values, rfl⟩
    obtain ⟨r', hr', hsame, -⟩ := Table.step_kept hinv hfound (c := .insert counter now values) trivial
    exact ⟨hinv.step _, hsame id ▸ hr'⟩
  have hadm : Admits Table.step (fun _ c => ∃ counter now values, c = .insert counter now values)
      t cs := .of_forall_mem (fun c hc _ => hcs c hc) t
  exact (run_invariant (P := fun t : Table => t.Inv ∧ lookup Record.id t.records k = some r)
    hstep ⟨h, hr⟩ hadm).2

/-! ### The database -/

/-- The call does not remove the record with id `k` of table `i`. -/
def Store.Keeps (i : Nat) (k : Int) (s : Store) : Call → Prop
  | .data _ (.deleteRecord tableName id) => ∀ t, s.Names tableName i t → id ≠ k
  | .data _ (.deleteRecordsByField tableName fieldName value) =>
    ∀ t j v, s.SweepStarts tableName fieldName value i t j v →
      ∀ r ∈ t.records, r.id = k → recordMatches t j v r = false
  | .tableDelete i' id => i' = i → id ≠ k
  | _ => True

/-- The call is an update of id `k` in table `i`. -/
def Store.UpdatesId (i : Nat) (k : Int) (s : Store) : Call → Prop
  | .data _ (.updateRecord tableName id _) => id = k ∧ ∃ t, s.Names tableName i t
  | .tableUpdate i' _ id _ => i' = i ∧ id = k
  | _ => False

/-- One, if the call is an update of id `k` in table `i` that succeeds. -/
def Store.updates (i : Nat) (k : Int) (s : Store) : Call → Nat
  | .data now (.updateRecord tableName id values) =>
    if tableName.bind (dbGetTable s.db) = some i ∧ id = k ∧
      (dbUpdateRecord s now tableName id values).1 = .success then 1 else 0
  | .tableUpdate i' now id values =>
    if i' = i ∧ id = k ∧ (s.updateIn i' now id values).1 = .success then 1 else 0
  | _ => 0

/-- How many updates of id `k` in table `i` succeed in a run. -/
def Store.countUpdates (i : Nat) (k : Int) : Store → List Call → Nat
  | _, [] => 0
  | s, c :: cs => s.updates i k c + countUpdates i k (s.step c) cs

/-- `db_update_record` returns what `table_update_record` returns. -/
theorem dbUpdateRecord_code {s : Store} {tableName : Option CString} {i : Nat} {t : Table}
    (hn : s.Names tableName i t) (now id : Int) (values : Option (List Field)) :
    (dbUpdateRecord s now tableName id values).1 = (tableUpdateRecord t now id values).1 := by
  obtain ⟨name, rfl, hi⟩ := hn.named
  cases values with
  | none => rfl
  | some vs =>
    have hbody : ∀ s' : Store, s'.db.tables[i]? = some t →
        (s'.updateIn i now id (some vs)).1 = (tableUpdateRecord t now id (some vs)).1 := by
      intro s' hs'
      rw [Store.updateIn, hs']
    rw [dbUpdateRecord, hi]
    dsimp only
    rw [withLocalTransaction]
    cases ha : s.db.transactionActive with
    | true => exact hbody s hn.found
    | false =>
      have hbegin : (dbBeginTransaction s.db now).1 = .success ∧
          (dbBeginTransaction s.db now).2.tables = s.db.tables := by
        simp [dbBeginTransaction, ha]
      generalize dbBeginTransaction s.db now = begun at hbegin
      obtain ⟨code, db⟩ := begun
      obtain ⟨rfl, htables⟩ := hbegin
      have hupdate := hbody { s with db } (htables ▸ hn.found)
      rw [if_neg Bool.false_ne_true]
      dsimp only
      split_ifs <;> exact hupdate

/-- A call that makes no calls on a table leaves it alone. -/
theorem Store.step_other {s : Store} {i : Nat} {t : Table} (ht : s.db.tables[i]? = some t) {c : Call}
    (h : ∀ t cs, ¬s.Makes c i t cs) : (s.step c).db.tables[i]? = some t := by
  have hlt := (List.getElem?_eq_some_iff.mp ht).1
  by_cases hmakes : ∃ j t cs, s.Makes c j t cs
  · obtain ⟨j, t', cs, hm⟩ := hmakes
    have hne : j ≠ i := fun hj => h t' cs (hj ▸ hm)
    rw [Store.step_of_makes hm, List.getElem?_set_ne hne, ht]
  · rcases Store.step_of_not_makes fun j t' cs hm => hmakes ⟨j, t', cs, hm⟩ with
      heq | ⟨-, t', -, -, heq⟩
    · rw [heq, ht]
    · rw [heq, List.getElem?_append_left hlt, ht]

/-- **The table that a call changes**, and a record in it that the call does not remove. -/
theorem Store.Makes.run_kept {s : Store} {c : Call} {i : Nat} {t : Table} {cs : List TableCall}
    (hm : s.Makes c i t cs) (h : t.Inv) {k : Int} {r : Record}
    (hr : lookup Record.id t.records k = some r) (hc : s.Keeps i k c) :
    ∃ r', lookup Record.id (run Table.step t cs).records k = some r' ∧
      (¬s.UpdatesId i k c → r' = r) ∧ r'.version = intWrap (r.version + s.updates i k c) := by
  cases hm with
  | insertRecord | tableInsert =>
    obtain ⟨r', hr', hsame, hversion⟩ := Table.step_kept h hr (c := .insert _ _ _) trivial
    exact ⟨r', hr', fun _ => hsame id, hversion⟩
  | updateRecord hn =>
    rename_i now id tableName values
    obtain ⟨r', hr', hsame, hversion⟩ := Table.step_kept h hr (c := .update now id values) trivial
    refine ⟨r', hr', fun hno => hsame fun hid => hno ⟨hid, t, hn⟩, ?_⟩
    -- the code that the table call returns is the one of `db_update_record`
    obtain ⟨name, hname, hi⟩ := hn.named
    have hplace : tableName.bind (dbGetTable s.db) = some i := by rw [hname, Option.bind_some, hi]
    rw [hversion, TableCall.updates, Store.updates, dbUpdateRecord_code hn]
    simp only [hplace, true_and]
  | deleteRecord hn =>
    obtain ⟨r', hr', hsame, hversion⟩ := Table.step_kept h hr (c := .delete _) (hc t hn)
    exact ⟨r', hr', fun _ => hsame id, hversion⟩
  | batchInsertRecords =>
    refine ⟨r, Table.run_inserts_kept h hr fun c hc => (mem_insertCalls hc).1, fun _ => rfl, ?_⟩
    show r.version = intWrap (r.version + (0 : Nat))
    rw [Nat.cast_zero, Int.add_zero, intWrap_eq_self (h.version_isInt r (mem_of_lookup hr))]
  | deleteRecordsByField hst =>
    obtain ⟨r', hr', hsame, hversion⟩ := Table.step_kept h hr (c := .sweep _ _) (hc t _ _ hst)
    exact ⟨r', hr', fun _ => hsame id, hversion⟩
  | tableUpdate ht =>
    rename_i now id values
    obtain ⟨r', hr', hsame, hversion⟩ := Table.step_kept h hr (c := .update now id values) trivial
    refine ⟨r', hr', fun hno => hsame fun hid => hno ⟨rfl, hid⟩, ?_⟩
    rw [hversion, TableCall.updates, Store.updates, Store.updateIn, ht]
    simp only [true_and]
  | tableDelete =>
    obtain ⟨r', hr', hsame, hversion⟩ := Table.step_kept h hr (c := .delete _) (hc rfl)
    exact ⟨r', hr', fun _ => hsame id, hversion⟩
  | createIndex | dropIndex =>
    obtain ⟨r', hr', hsame, hversion⟩ := Table.step_kept h hr (c := .setIndexes _) trivial
    exact ⟨r', hr', fun _ => hsame id, hversion⟩

/-- A call that makes no calls on a table updates none of its records. -/
theorem Store.not_updatesId {s : Store} {c : Call} {i : Nat} {t : Table} (k : Int)
    (ht : s.db.tables[i]? = some t) (h : ∀ t cs, ¬s.Makes c i t cs) :
    ¬s.UpdatesId i k c ∧ s.updates i k c = 0 := by
  cases c with
  | data now c =>
    cases c with
    | updateRecord tableName id values =>
      refine ⟨fun ⟨_, t, hn⟩ => h t _ (.updateRecord hn), if_neg fun ⟨hplace, _⟩ => ?_⟩
      obtain ⟨name, rfl, hi⟩ := Option.bind_eq_some_iff.mp hplace
      exact h t _ (.updateRecord ⟨⟨name, rfl, hi⟩, ht⟩)
    | _ => exact ⟨not_false, rfl⟩
  | tableUpdate i' now id values =>
    refine ⟨fun ⟨hi, _⟩ => ?_, if_neg fun ⟨hi, _⟩ => ?_⟩
    all_goals
      subst hi
      exact h t _ (.tableUpdate ht)
  | _ => exact ⟨not_false, rfl⟩

/-- **A call and one record** that it does not remove. -/
theorem Store.step_kept {s : Store} (h : s.Reachable) {i : Nat} {t : Table}
    (ht : s.db.tables[i]? = some t) {k : Int} {r : Record}
    (hr : lookup Record.id t.records k = some r) {c : Call} (hc : s.Keeps i k c) :
    ∃ t' r', (s.step c).db.tables[i]? = some t' ∧ lookup Record.id t'.records k = some r' ∧
      (¬s.UpdatesId i k c → r' = r) ∧ r'.version = intWrap (r.version + s.updates i k c) := by
  have hinv := (h.table ht).inv
  by_cases hmakes : ∃ t cs, s.Makes c i t cs
  · obtain ⟨t₁, cs, hm⟩ := hmakes
    obtain rfl : t₁ = t := Option.some.inj (hm.found.symm.trans ht)
    obtain ⟨r', hr', hkept⟩ := hm.run_kept hinv hr hc
    refine ⟨run Table.step t₁ cs, r', ?_, hr', hkept⟩
    rw [Store.step_of_makes hm]
    exact List.getElem?_set_self (List.getElem?_eq_some_iff.mp ht).1
  · have hno : ∀ t cs, ¬s.Makes c i t cs := fun t cs hm => hmakes ⟨t, cs, hm⟩
    obtain ⟨-, hzero⟩ := Store.not_updatesId k ht hno
    refine ⟨t, r, Store.step_other ht hno, hr, fun _ => rfl, ?_⟩
    rw [hzero, Nat.cast_zero, Int.add_zero,
      intWrap_eq_self (hinv.version_isInt r (mem_of_lookup hr))]

/-! ### Runs -/

/-- **The schema never changes**: whatever is called, a table keeps its place, its name and its
columns. -/
theorem schema_kept {s : Store} {i : Nat} {t : Table} (ht : s.db.tables[i]? = some t)
    (calls : List Call) :
    ∃ t', (run Store.step s calls).db.tables[i]? = some t' ∧ t.SameSchema t' := by
  have hstep : ∀ (s : Store) (c : Call), (∃ t', s.db.tables[i]? = some t' ∧ t.SameSchema t') →
      ∃ t', (s.step c).db.tables[i]? = some t' ∧ t.SameSchema t' := by
    rintro s c ⟨t₁, ht₁, hname, hcolumns⟩
    by_cases hmakes : ∃ t cs, s.Makes c i t cs
    · obtain ⟨t₂, cs, hm⟩ := hmakes
      obtain rfl : t₂ = t₁ := Option.some.inj (hm.found.symm.trans ht₁)
      obtain ⟨hname', hcolumns'⟩ := t₂.run_sameSchema cs
      refine ⟨run Table.step t₂ cs, ?_, hname'.trans hname, hcolumns'.trans hcolumns⟩
      rw [Store.step_of_makes hm]
      exact List.getElem?_set_self (List.getElem?_eq_some_iff.mp ht₁).1
    · exact ⟨t₁, Store.step_other ht₁ fun t cs hm => hmakes ⟨t, cs, hm⟩, hname, hcolumns⟩
  have hadm : Admits Store.step (fun _ _ => True) s calls := .of_forall (fun _ _ => trivial) s calls
  exact run_invariant (P := fun s : Store => ∃ t', s.db.tables[i]? = some t' ∧ t.SameSchema t')
    (fun s c hs _ => hstep s c hs) ⟨t, ht, rfl, rfl⟩ hadm

/-- The call neither updates nor removes the record with id `k` of table `i`. -/
def Store.Spares (i : Nat) (k : Int) (s : Store) (c : Call) : Prop :=
  s.Keeps i k c ∧ ¬s.UpdatesId i k c

/-- **A record stays as it is** while no call updates or removes it, whatever else is called on its
table and on others, and its table keeps its schema. -/
theorem record_kept {s : Store} (h : s.Reachable) {i : Nat} {t : Table}
    (ht : s.db.tables[i]? = some t) {k : Int} {r : Record} (hr : tableFindRecord t k = some r)
    {calls : List Call} (hcalls : Admits Store.step (Store.Spares i k) s calls) :
    ∃ t', (run Store.step s calls).db.tables[i]? = some t' ∧ t.SameSchema t' ∧
      tableFindRecord t' k = some r := by
  rw [tableFindRecord_eq] at hr
  have hkept : ∃ t', (run Store.step s calls).db.tables[i]? = some t' ∧
      lookup Record.id t'.records k = some r := by
    induction calls generalizing s t with
    | nil => exact ⟨t, ht, hr⟩
    | cons c calls ih =>
      obtain ⟨t', r', ht', hr', hsame, -⟩ := Store.step_kept h ht hr hcalls.1.1
      rw [hsame hcalls.1.2] at hr'
      exact ih (.next h trivial) ht' hr' hcalls.2
  obtain ⟨t', ht', hr'⟩ := hkept
  obtain ⟨t'', ht'', hschema⟩ := schema_kept ht calls
  obtain rfl : t'' = t' := Option.some.inj (ht''.symm.trans ht')
  exact ⟨t'', ht', hschema, by rwa [tableFindRecord_eq]⟩

/-- A table with two records. -/
def pairStore : Store :=
  run Store.step ⟨dbCreate, 1000⟩ [.addTable (some (cstr "t")) (some [(some (cstr "id"), .int)]),
    .tableInsert 0 0 (some [.ofInt 5]), .tableInsert 0 0 (some [.ofInt 6])]

theorem pairStore_reachable : pairStore.Reachable := by
  have hinit : Store.Init ⟨dbCreate, 1000⟩ := rfl
  exact Reach.run (.start hinit) (Admits.of_forall (fun _ _ => trivial) _ _)

theorem record_kept_pair :
    ∃ t', (run Store.step pairStore
        [.tableUpdate 0 1 6 (some [.ofInt 7]), .tableDelete 0 6]).db.tables[0]? = some t' ∧
      pairStore.db.tables[0].SameSchema t' ∧
      tableFindRecord t' 5 = tableFindRecord pairStore.db.tables[0] 5 :=
  record_kept pairStore_reachable rfl rfl
    ⟨⟨trivial, fun hupdate => absurd hupdate.2 (by decide)⟩, ⟨fun _ => by decide, not_false⟩, trivial⟩

/-- **The version of a record counts its successful updates**, as an `int`, in every run in which it
is not removed. -/
theorem version_counts_updates {s : Store} (h : s.Reachable) {i : Nat} {t : Table}
    (ht : s.db.tables[i]? = some t) {k : Int} {r : Record} (hr : tableFindRecord t k = some r)
    {calls : List Call} (hcalls : Admits Store.step (Store.Keeps i k) s calls) :
    ∃ t' r', (run Store.step s calls).db.tables[i]? = some t' ∧ tableFindRecord t' k = some r' ∧
      r'.version = intWrap (r.version + s.countUpdates i k calls) := by
  simp only [tableFindRecord_eq] at hr ⊢
  induction calls generalizing s t r with
  | nil =>
    refine ⟨t, r, ht, hr, ?_⟩
    rw [Store.countUpdates, Nat.cast_zero, Int.add_zero,
      intWrap_eq_self ((h.table ht).inv.version_isInt r (mem_of_lookup hr))]
  | cons c calls ih =>
    obtain ⟨t₁, r₁, ht₁, hr₁, -, hversion₁⟩ := Store.step_kept h ht hr hcalls.1
    obtain ⟨t', r', ht', hr', hversion'⟩ := ih (.next h trivial) ht₁ hcalls.2 hr₁
    refine ⟨t', r', ht', hr', ?_⟩
    rw [hversion', hversion₁, Store.countUpdates, intWrap_add, Nat.cast_add, Int.add_assoc]

theorem version_counts_updates_pair :
    ∃ t' r', (run Store.step pairStore [.tableUpdate 0 1 5 (some [.ofInt 5]),
        .tableUpdate 0 1 5 none]).db.tables[0]? = some t' ∧ tableFindRecord t' 5 = some r' ∧
      r'.version = 2 := by
  have hfound : (tableFindRecord pairStore.db.tables[0] 5).map Record.version = some 1 := by decide
  obtain ⟨r, hr, hone⟩ := Option.map_eq_some_iff.mp hfound
  have hkeeps : Admits Store.step (Store.Keeps 0 5) pairStore
      [.tableUpdate 0 1 5 (some [.ofInt 5]), .tableUpdate 0 1 5 none] := ⟨trivial, trivial, trivial⟩
  obtain ⟨t', r', ht', hr', hversion⟩ :=
    version_counts_updates pairStore_reachable (i := 0) rfl hr hkeeps
  rw [hone] at hversion
  exact ⟨t', r', ht', hr', hversion.trans (by decide)⟩

end Luminix
