import Luminix.Equiv.Transaction

/-!
# What a rollback restores

`db_rollback_transaction` resets two counters and no record.  The records after it are the ones the
run before it left behind, so it restores the state of the begin exactly when no call in between
changed anything.  `Table.Quiet` and `Store.Quiet` say, of the arguments of a call and the state it
is made in, when that is so; `rollback_restores_iff` lifts this to whole runs.
-/

namespace Luminix

open CLib KeyedList Machine

/-! ### Contents -/

/-- The type tag and the value of a field. -/
def Field.contents (f : Field) : FieldType × FieldValue := (f.type, f.value)

/-- The id, the fields and the version of a record. -/
def Record.contents (r : Record) : Int × List (FieldType × FieldValue) × Int :=
  (r.id, r.fields.map Field.contents, r.version)

/-- The records of every table, in order. -/
def Store.contents (s : Store) : List (List (Int × List (FieldType × FieldValue) × Int)) :=
  s.db.tables.map fun t => t.records.map Record.contents

/-! ### Calls that change nothing -/

/-- The update is broken off at a key that belongs to another record, and what it wrote before that
was there already. -/
def BreaksOffUnchanged (t : Table) (id : Int) : List Column → List Field → List Field → Prop
  | [], _, _ => False
  | c :: cs, values, olds =>
    keyTaken t id c (values.headD .zero) = true ∨
      (assignField (olds.headD .zero) (values.headD .zero)).contents = (olds.headD .zero).contents ∧
        BreaksOffUnchanged t id cs values.tail olds.tail

/-- The call changes no record of the table: its insert is refused, its record is absent, its update
breaks off before it writes anything new, or it matches nothing. -/
def Table.Quiet (t : Table) : TableCall → Prop
  | .insert counter _ values => ¬insertAccepted t counter values
  | .update _ id values => ∀ vs, values = some vs → ∀ r, lookup Record.id t.records id = some r →
    BreaksOffUnchanged t id t.columns vs r.fields
  | .delete id => lookup Record.id t.records id = none
  | .sweep j value => ∀ r ∈ t.records, recordMatches t j value r = false
  | .setIndexes _ => True

/-- The call changes no record of any table.  Only the first row of a batch matters: the rows before
a refused one stay. -/
def Store.Quiet (s : Store) : Call → Prop
  | .data now (.insertRecord tableName values) =>
    ∀ i t, s.Names tableName i t → t.Quiet (.insert s.globalCounter now values)
  | .data now (.updateRecord tableName id values) =>
    ∀ i t, s.Names tableName i t → t.Quiet (.update now id values)
  | .data _ (.deleteRecord tableName id) => ∀ i t, s.Names tableName i t → t.Quiet (.delete id)
  | .data now (.batchInsertRecords tableName rows) =>
    ∀ i t rs, s.BatchStarts tableName rows i t rs →
      ∀ row ∈ rs.head?, t.Quiet (.insert s.globalCounter now row)
  | .data _ (.deleteRecordsByField tableName fieldName value) =>
    ∀ i t j v, s.SweepStarts tableName fieldName value i t j v → t.Quiet (.sweep j v)
  | .tableInsert i now values =>
    ∀ t, s.db.tables[i]? = some t → t.Quiet (.insert s.globalCounter now values)
  | .tableUpdate i now id values => ∀ t, s.db.tables[i]? = some t → t.Quiet (.update now id values)
  | .tableDelete i id => ∀ t, s.db.tables[i]? = some t → t.Quiet (.delete id)
  | _ => True

/-- The calls between a begin and its rollback: record operations, and further begins and commits.
-/
def Call.InTransaction : Call → Prop
  | .rollbackTransaction | .addTable .. | .createTable .. | .createIndex .. | .dropIndex .. => False
  | _ => True

/-! ### One table -/

/-- The update loop breaks off with everything as it was. -/
theorem breaksOffUnchanged_iff (t : Table) (id : Int) (cs : List Column) (values olds : List Field)
    (hlen : cs.length = olds.length) :
    BreaksOffUnchanged t id cs values olds ↔
      (updateFields t id cs values olds).1 = .duplicateKey ∧
      (updateFields t id cs values olds).2.map Field.contents = olds.map Field.contents := by
  induction cs generalizing values olds with
  | nil => simp [BreaksOffUnchanged, updateFields]
  | cons c cs ih =>
    cases olds with
    | nil => simp at hlen
    | cons old olds =>
      have htail := ih values.tail olds (by simpa using hlen)
      rw [BreaksOffUnchanged, updateFields]
      split_ifs with hkey
      · exact ⟨fun _ => ⟨rfl, rfl⟩, fun _ => .inl hkey⟩
      · simp only [hkey, Bool.false_eq_true, false_or, List.headD_cons, List.tail_cons, htail,
          List.map_cons, List.cons.injEq]
        tauto

/-- An update that finds its record. -/
theorem Table.quiet_update_iff {t : Table} {id : Int} {r : Record}
    (hl : lookup Record.id t.records id = some r) (now : Int) (vs : List Field) :
    t.Quiet (.update now id (some vs)) ↔ BreaksOffUnchanged t id t.columns vs r.fields := by
  constructor
  · intro hq
    exact hq vs rfl r hl
  · rintro hoff vs' hvs r' hr'
    obtain rfl := Option.some.inj hvs
    obtain rfl := Option.some.inj (hl.symm.trans hr')
    exact hoff

/-- **A table call leaves the records as they were exactly if it is quiet.** -/
theorem Table.step_contents_iff {t : Table} (h : t.Inv) (c : TableCall) :
    (t.step c).records.map Record.contents = t.records.map Record.contents ↔ t.Quiet c := by
  cases c with
  | insert counter now values =>
    have hok := tableInsertRecord_isOk_iff t counter now values
    rcases tableInsertRecord_cases t counter now values with
      ⟨e, c, heq⟩ | ⟨vs, id, c, -, -, -, -, heq⟩
    · rw [heq] at hok
      rw [Table.step, heq]
      exact ⟨fun _ => mt hok.mpr Bool.false_ne_true, fun _ => rfl⟩
    · rw [heq] at hok
      rw [Table.step, heq]
      refine ⟨fun hmap => ?_, fun hq => absurd (hok.mp rfl) hq⟩
      -- the list has one record more
      have hlen := congrArg List.length hmap
      simp [linkRecord] at hlen
  | update now id values =>
    rcases tableUpdateRecord_cases t now id values with
      ⟨rfl, heq⟩ | ⟨vs, rfl, hl, heq⟩ | ⟨vs, r, fields, rfl, hl, hf, heq⟩ |
      ⟨vs, r, fields, rfl, hl, hf, heq⟩
    · rw [Table.step, heq]
      exact ⟨fun _ vs hvs => absurd hvs (by simp), fun _ => rfl⟩
    · rw [Table.step, heq]
      refine ⟨fun _ vs _ r hr => ?_, fun _ => rfl⟩
      rw [hl] at hr
      contradiction
    all_goals
      have hlen := (h.fields_length r (mem_of_lookup hl)).1
      have hoff := breaksOffUnchanged_iff t id t.columns vs r.fields hlen.symm
      rw [Table.step, heq, Table.quiet_update_iff hl, hoff, hf, map_modify_eq_iff hl]
    · -- Broken off: only the fields can differ.
      simp [Record.contents]
    · -- Finished: the version is another one.
      have hver := intWrap_add_one_ne r.version
      simp [Record.contents, updatedRecord, hver]
  | delete id =>
    rcases tableDeleteRecord_cases t id with ⟨hl, heq⟩ | ⟨hl, heq⟩
    · rw [Table.step, heq]
      exact ⟨fun _ => hl, fun _ => rfl⟩
    · rw [Table.step, heq]
      refine ⟨fun hmap => ?_, fun hq => absurd hq hl⟩
      have hlen := congrArg List.length hmap
      have herase := length_erase hl
      simp only [List.length_map] at hlen
      omega
  | sweep j value =>
    rw [Table.step, deleteMatching, sweepRecords_eq]
    constructor
    · intro hmap r hr
      have hlen := congrArg List.length hmap
      rw [List.length_map, List.length_map, List.length_filter_eq_length_iff] at hlen
      simpa using hlen r hr
    · intro hq
      dsimp only
      rw [List.filter_eq_self.mpr fun r hr => by simpa using hq r hr]
  | setIndexes indexes => exact ⟨fun _ => trivial, fun _ => rfl⟩

/-! ### The store -/

/-- A call that makes table calls is quiet exactly if they change no record. -/
theorem Store.Makes.quiet_iff {s : Store} (h : s.Reachable) {c : Call} {i : Nat} {t : Table}
    {cs : List TableCall} (hm : s.Makes c i t cs) (hc : c.InTransaction) :
    (run Table.step t cs).records.map Record.contents = t.records.map Record.contents ↔
      s.Quiet c := by
  have hinv := (h.table hm.found).inv
  cases hm with
  | insertRecord hn | updateRecord hn | deleteRecord hn =>
    rw [run_cons, run_nil, Table.step_contents_iff hinv]
    constructor
    · intro hq i' t' hn'
      obtain ⟨rfl, rfl⟩ := hn.unique hn'
      exact hq
    · exact fun hq => hq i t hn
  | batchInsertRecords hst =>
    have hlength : ∀ t t' : Table, t'.records.map Record.contents = t.records.map Record.contents →
        t'.records.length = t.records.length := by
      intro t t' heq
      simpa using congrArg List.length heq
    rw [run_insertCalls_eq_iff hlength]
    constructor
    · intro hq i' t' rs' hst'
      obtain ⟨rfl, rfl, rfl⟩ := hst.unique hst'
      exact hq
    · exact fun hq => hq i t _ hst
  | deleteRecordsByField hst =>
    rw [run_cons, run_nil, Table.step_contents_iff hinv]
    constructor
    · intro hq i' t' j' v' hst'
      obtain ⟨-, rfl, rfl, rfl⟩ := hst.unique hst'
      exact hq
    · exact fun hq => hq i t _ _ hst
  | tableInsert ht | tableUpdate ht | tableDelete ht =>
    rw [run_cons, run_nil, Table.step_contents_iff hinv]
    constructor
    · intro hq t' ht'
      obtain rfl := Option.some.inj (ht.symm.trans ht')
      exact hq
    · exact fun hq => hq t ht
  | createIndex | dropIndex => exact hc.elim

/-- So is one that makes none. -/
theorem Store.quiet_of_not_makes {s : Store} {c : Call} (h : ∀ i t cs, ¬s.Makes c i t cs) :
    s.Quiet c := by
  cases c with
  | data now c =>
    cases c with
    | insertRecord tableName values => exact fun i t hn => absurd (.insertRecord hn) (h i t _)
    | updateRecord tableName id values => exact fun i t hn => absurd (.updateRecord hn) (h i t _)
    | deleteRecord tableName id => exact fun i t hn => absurd (.deleteRecord hn) (h i t _)
    | batchInsertRecords tableName rows =>
      exact fun i t rs hst => absurd (.batchInsertRecords hst) (h i t _)
    | deleteRecordsByField tableName fieldName value =>
      exact fun i t j v hst => absurd (.deleteRecordsByField hst) (h i t _)
  | tableInsert i now values => exact fun t ht => absurd (.tableInsert ht) (h i t _)
  | tableUpdate i now id values => exact fun t ht => absurd (.tableUpdate ht) (h i t _)
  | tableDelete i id => exact fun t ht => absurd (.tableDelete ht) (h i t _)
  | _ => trivial

/-- **A call inside a transaction leaves the records as they were exactly if it is quiet.** -/
theorem Store.step_contents_iff {s : Store} (h : s.Reachable) {c : Call} (hc : c.InTransaction) :
    (s.step c).contents = s.contents ↔ s.Quiet c := by
  by_cases hmakes : ∃ i t cs, s.Makes c i t cs
  · obtain ⟨i, t, cs, hm⟩ := hmakes
    rw [Store.contents, Store.contents, step_of_makes hm, map_set_iff hm.found]
    exact hm.quiet_iff h hc
  · have hno : ∀ i t cs, ¬s.Makes c i t cs := fun i t cs hm => hmakes ⟨i, t, cs, hm⟩
    refine iff_of_true ?_ (quiet_of_not_makes hno)
    rcases step_of_not_makes hno with heq | ⟨hadds, -⟩
    · rw [Store.contents, Store.contents, heq]
    · cases c <;> first | exact hc.elim | exact hadds.elim

/-! ### Runs -/

/-- **Rollback restores the records of the begin exactly if no call in between changed any.**  After
every prefix of the calls a rollback gives back the records of the begin, if and only if each call
is quiet in the state it is made in. -/
theorem rollback_restores_iff {s : Store} (h : s.Reachable) (now : Int) {calls : List Call}
    (hcalls : ∀ c ∈ calls, c.InTransaction) :
    (∀ pre, pre <+: calls →
      (run Store.step s (.beginTransaction now :: pre ++ [.rollbackTransaction])).contents =
        s.contents) ↔
    Admits Store.step Store.Quiet (s.step (.beginTransaction now)) calls := by
  have hrollback : ∀ s : Store, (s.step .rollbackTransaction).contents = s.contents := fun s => by
    rw [Store.contents, Store.contents, Store.step, dbRollbackTransaction_tables]
  have hbegin : (s.step (.beginTransaction now)).contents = s.contents := by
    rw [Store.contents, Store.contents, Store.step, dbBeginTransaction_tables]
  have hreach : (s.step (.beginTransaction now)).Reachable := .next h trivial
  have hiff : (∀ pre, pre <+: calls →
      (run Store.step (s.step (.beginTransaction now)) pre).Reachable ∧
        (run Store.step (s.step (.beginTransaction now)) pre).contents = s.contents) ↔
      Admits Store.step Store.Quiet (s.step (.beginTransaction now)) calls := by
    refine forall_prefix_iff_admits (P := fun s' : Store => s'.Reachable ∧ s'.contents = s.contents) ?_
      ⟨hreach, hbegin⟩
    rintro s' c hmem ⟨hr, hs'⟩
    have hr' : (s'.step c).Reachable := .next hr trivial
    rw [← hs', and_iff_right hr']
    exact Store.step_contents_iff hr (hcalls c hmem)
  rw [← hiff]
  refine forall_congr' fun pre => forall_congr' fun _ => ?_
  have hpre : (run Store.step (s.step (.beginTransaction now)) pre).Reachable :=
    Reach.run hreach (Admits.of_forall (fun _ _ => trivial) _ _)
  rw [List.cons_append, run_cons, run_append, run_cons, run_nil, hrollback, and_iff_right hpre]

/-- A transaction is open, and two records have been inserted. -/
def keptStore : Store := run Store.step openStore
  [.data 0 (.insertRecord (some (cstr "t")) (some [.ofInt 5])),
    .data 0 (.insertRecord (some (cstr "t")) (some [.ofInt 6]))]

/-- An insert and an update with a key that is taken, and a delete that finds no record. -/
def quietCalls : List Call :=
  [.data 0 (.insertRecord (some (cstr "t")) (some [.ofInt 5])),
    .data 0 (.updateRecord (some (cstr "t")) 5 (some [.ofInt 6])),
    .data 0 (.deleteRecord (some (cstr "t")) 9)]

theorem rollback_restores_iff_quiet :
    (run Store.step keptStore
      (.beginTransaction 0 :: quietCalls ++ [.rollbackTransaction])).contents =
        keptStore.contents := by
  have hreach : keptStore.Reachable :=
    Reach.run openStore_reachable (Admits.of_forall (fun _ _ => trivial) _ _)
  have hin : ∀ c ∈ quietCalls, c.InTransaction := by simp [quietCalls, Call.InTransaction]
  -- each call leaves the records as they are
  have hsteps : ∀ pre ∈ quietCalls.inits, ∀ c ∈ quietCalls,
      ((run Store.step (keptStore.step (.beginTransaction 0)) pre).step c).contents =
        (run Store.step (keptStore.step (.beginTransaction 0)) pre).contents := by
    decide +kernel
  have hquiet : Admits Store.step Store.Quiet (keptStore.step (.beginTransaction 0)) quietCalls := by
    refine admits_iff_forall_prefix.mpr fun pre c hpre => ?_
    have hpre' : pre <+: quietCalls := (List.prefix_append pre [c]).trans hpre
    have hmem : c ∈ quietCalls := hpre.subset (by simp)
    have hrun : Store.Reachable (run Store.step (keptStore.step (.beginTransaction 0)) pre) :=
      Reach.run (.next hreach trivial) (Admits.of_forall (fun _ _ => trivial) _ _)
    exact (Store.step_contents_iff hrun (hin c hmem)).mp
      (hsteps pre ((List.mem_inits _ _).mpr hpre') c hmem)
  exact (rollback_restores_iff hreach 0 hin).mpr hquiet _ (List.prefix_refl _)

/-- An inserted record is still there after the rollback. -/
theorem rollback_keeps_insert :
    ¬∀ s : Store, s.Reachable → s.db.transactionActive = false → ∀ now (ops : List DataCall),
      (run Store.step s (.beginTransaction now :: ops.map (.data now) ++
        [.rollbackTransaction])).contents = s.contents := by
  intro h
  have hreach : (openStore.step .commitTransaction).Reachable := .next openStore_reachable trivial
  have hkept := h _ hreach (by decide) 0 [.insertRecord (some (cstr "t")) (some [.ofInt 5])]
  exact absurd hkept (by decide)

end Luminix
