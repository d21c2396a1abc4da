import Luminix.Equiv.Fields
import Luminix.Equiv.Transaction
import Mathlib.Data.List.Find

/-!
# Search and deletion by a field

The three functions that compare a column with a value.  `db_find_all_records_by_field` and
`db_delete_records_by_field` read both sides as the type of the column, so one frees what the other
finds (`deleteRecordsByField_removes_found`).  `db_find_record_by_field` goes by the tag of the
stored value; it finds the first record of the array as long as no update has stored a value under
another tag (`lookups_agree`).
-/

namespace Luminix

open CLib KeyedList Machine

/-! ### What the searches find -/

/-- No index ever finds a record. -/
theorem findByFieldIndex_eq_none (t : Table) (tableName fieldName : CString) (j : Nat)
    (value : List UInt8) : findByFieldIndex t tableName fieldName j value = none := by
  unfold findByFieldIndex
  split
  · rfl
  · dsimp only
    split_ifs <;> rfl

/-- The table of that name, and the place of the column. -/
def searchPlace (db : Database) (tableName fieldName : CString) : Option (Table × Nat) :=
  ((dbGetTable db tableName).bind fun i => db.tables[i]?).bind fun t =>
    (columnIndex t.columns fieldName).map fun j => (t, j)

theorem dbFindRecordByField_eq (db : Database) (tableName fieldName : CString)
    (value : List UInt8) :
    dbFindRecordByField db (some tableName) (some fieldName) (some value) =
      (searchPlace db tableName fieldName).bind fun x =>
        x.1.records.find? (fieldFound x.2 value) := by
  unfold dbFindRecordByField searchPlace
  dsimp only
  cases (dbGetTable db tableName).bind fun i => db.tables[i]? with
  | none => rfl
  | some t =>
    rw [Option.bind_some]
    dsimp only
    cases hj : columnIndex t.columns fieldName with
    | none => rfl
    | some j =>
      dsimp only
      rw [findByFieldIndex_eq_none]
      rfl

theorem mem_of_searchPlace {db : Database} {tableName fieldName : CString} {t : Table} {j : Nat}
    (h : searchPlace db tableName fieldName = some (t, j)) : t ∈ db.tables := by
  unfold searchPlace at h
  obtain ⟨t', ht', hmap⟩ := Option.bind_eq_some_iff.mp h
  obtain ⟨i, -, hi⟩ := Option.bind_eq_some_iff.mp ht'
  obtain ⟨k, -, heq⟩ := Option.map_eq_some_iff.mp hmap
  obtain rfl : t' = t := congrArg Prod.fst heq
  exact List.mem_of_getElem? hi

/-- The search loop is a filter, and it counts what it collects. -/
theorem collectRecords_eq (matched : Record → Bool) (l : List Record) :
    collectRecords matched l = (l.filter matched, ((l.filter matched).length : Int)) := by
  induction l with
  | nil => rfl
  | cons r l ih =>
    rw [collectRecords, ih]
    by_cases h : matched r = true
    · simp [h]
    · simp [h]

/-- The array of `db_find_all_records_by_field`, empty where it is null. -/
def foundRecords (db : Database) (tableName fieldName : Option CString)
    (value : Option (List UInt8)) : List Record :=
  (dbFindAllRecordsByField db tableName fieldName value).1.getD []

/-- The array and its length, from the place that is searched. -/
theorem dbFindAllRecordsByField_of_place {db : Database} {tableName fieldName : CString} {t : Table}
    {j : Nat} (h : searchPlace db tableName fieldName = some (t, j)) (value : List UInt8) :
    dbFindAllRecordsByField db (some tableName) (some fieldName) (some value) =
      if t.records.filter (recordMatches t j value) = [] then (none, some 0)
      else (some (t.records.filter (recordMatches t j value)),
        some ((t.records.filter (recordMatches t j value)).length : Int)) := by
  unfold searchPlace at h
  obtain ⟨t', ht', hmap⟩ := Option.bind_eq_some_iff.mp h
  obtain ⟨j', hj', heq⟩ := Option.map_eq_some_iff.mp hmap
  obtain ⟨rfl, rfl⟩ := Prod.mk.inj heq
  unfold dbFindAllRecordsByField
  dsimp only
  rw [ht']
  dsimp only
  rw [hj']
  dsimp only
  rw [collectRecords_eq]
  dsimp only
  by_cases hnil : t'.records.filter (recordMatches t' j' value) = []
  · rw [if_pos hnil, hnil]
    rfl
  · have hpos : 0 < (t'.records.filter (recordMatches t' j' value)).length :=
      List.length_pos_iff.mpr hnil
    rw [if_neg hnil, if_pos (by omega)]

theorem foundRecords_of_place {db : Database} {tableName fieldName : CString} {t : Table} {j : Nat}
    (h : searchPlace db tableName fieldName = some (t, j)) (value : List UInt8) :
    foundRecords db (some tableName) (some fieldName) (some value) =
      t.records.filter (recordMatches t j value) := by
  rw [foundRecords, dbFindAllRecordsByField_of_place h]
  split_ifs with hnil
  · exact hnil.symm
  · rfl

/-! ### Deletion -/

/-- The place that a delete sweeps is the one that the searches look at. -/
theorem Store.SweepStarts.searchPlace_eq {s : Store} {tableName fieldName : CString}
    {value : Option (List UInt8)} {i j : Nat} {t : Table} {v : List UInt8}
    (h : s.SweepStarts (some tableName) (some fieldName) value i t j v) :
    searchPlace s.db tableName fieldName = some (t, j) := by
  rw [searchPlace, h.toNames.getTable_eq, Option.bind_some, h.found, Option.bind_some,
    h.columnIndex_eq]
  rfl

/-- A table rewritten under its name is found at its place. -/
theorem searchPlace_set {db db' : Database} {tableName fieldName : CString} {i j : Nat}
    {t t' : Table} (hget : dbGetTable db tableName = some i) (ht : db.tables[i]? = some t)
    (hj : columnIndex t.columns fieldName = some j) (hdb : db'.tables = db.tables.set i t')
    (hname : t'.name = t.name) (hcols : t'.columns = t.columns) :
    searchPlace db' tableName fieldName = some (t', j) := by
  have hnames : db'.tables.map Table.name = db.tables.map Table.name := by
    rw [hdb]
    exact (map_set_iff ht).mpr hname
  have hlt : i < db.tables.length := (List.getElem?_eq_some_iff.mp ht).1
  have hget' : db'.tables[i]? = some t' := by
    rw [hdb]
    exact List.getElem?_set_self hlt
  rw [searchPlace, dbGetTable_eq, hnames, ← dbGetTable_eq, hget, Option.bind_some, hget',
    Option.bind_some, hcols, hj]
  rfl

/-- **A delete by field removes exactly what the search finds.**  On success the table keeps the
other records as they were and in their order, the count is the number of those removed, and a
search behind it finds none; a delete that fails changes nothing. -/
theorem deleteRecordsByField_removes_found (s : Store) (now : Int)
    (tableName fieldName : Option CString) (value : Option (List UInt8)) :
    let found := foundRecords s.db tableName fieldName value
    (∀ count s', dbDeleteRecordsByField s now tableName fieldName value = (.ok count, s') →
      ∃ i t t', s.Names tableName i t ∧ s'.db.tables = s.db.tables.set i t' ∧
        found.Sublist t.records ∧ t'.records = t.records.filter (· ∉ found) ∧
        count = found.length ∧ t'.recordCount = t.recordCount - found.length ∧
        dbFindAllRecordsByField s'.db tableName fieldName value = (none, some 0)) ∧
    ∀ e s', dbDeleteRecordsByField s now tableName fieldName value = (.error e, s') → s' = s := by
  intro found
  rcases dbDeleteRecordsByField_cases s now tableName fieldName value with
    ⟨-, e, heq⟩ | ⟨i, t, j, v, db, hst, -, htables, heq⟩
  · refine ⟨fun count s' h => ?_, fun e' s' h => ?_⟩
    · rw [heq] at h
      cases (Prod.mk.inj h).1
    · rw [heq] at h
      exact (Prod.mk.inj h).2.symm
  · refine ⟨fun count s' h => ?_, fun e' s' h => ?_⟩
    · obtain ⟨name, rfl, hi⟩ := hst.named
      obtain ⟨field, rfl, hj⟩ := hst.column
      obtain rfl := hst.value_eq
      have hfound : found = t.records.filter (recordMatches t j v) :=
        foundRecords_of_place hst.searchPlace_eq v
      have hset : s'.db.tables = s.db.tables.set i (t.step (.sweep j v)) := by
        have hmakes : s.Makes (.data now (.deleteRecordsByField _ _ _)) i t [.sweep j v] :=
          .deleteRecordsByField hst
        have hstep := Store.step_of_makes hmakes
        rw [Store.step, Store.dataStep, h] at hstep
        exact hstep
      have hcount : count = t.records.countP (recordMatches t j v) := by
        rw [heq] at h
        exact (Except.ok.inj (Prod.mk.inj h).1).symm
      have hkept : (t.step (.sweep j v)).records =
          t.records.filter fun r => !recordMatches t j v r := by
        rw [Table.step, deleteMatching, sweepRecords_eq]
      refine ⟨i, t, t.step (.sweep j v), hst.toNames, hset, ?_, ?_, ?_, ?_, ?_⟩
      · rw [hfound]
        exact List.filter_sublist
      · rw [hkept, hfound]
        apply List.filter_congr
        intro r hr
        simp [hr]
      · rw [hcount, hfound, List.countP_eq_length_filter]
      · rw [Table.step, deleteMatching, sweepRecords_eq, hfound, List.countP_eq_length_filter]
      · -- nothing that is left matches
        have hplace := searchPlace_set hi hst.found hj hset rfl (columns_step t _)
        rw [dbFindAllRecordsByField_of_place hplace, if_pos]
        rw [hkept, List.filter_filter, List.filter_eq_nil_iff]
        intro r _
        have hsame : recordMatches (t.step (.sweep j v)) j v r = recordMatches t j v r := rfl
        rw [hsame]
        cases recordMatches t j v r <;> decide
    · rw [heq] at h
      cases (Prod.mk.inj h).1

/-! ### The first match -/

/-- The types whose values are compared by `==` or `strcmp`. -/
def FieldType.Exact (type : FieldType) : Prop := type = .int ∨ type = .string ∨ type = .bool

instance (type : FieldType) : Decidable type.Exact := inferInstanceAs (Decidable (_ ∨ _ ∨ _))

/-- Every value of an `INT`, `STRING` or `BOOL` column has the tag of its column. -/
def Table.Tagged (t : Table) : Prop :=
  ∀ r ∈ t.records, ∀ x ∈ t.columns.zipIdx, x.1.type.Exact → (r.field x.2).type = x.1.type

/-- An update that finds its record writes no other tag than that of the column into an `INT`,
`STRING` or `BOOL` column. -/
def Table.KeepsTags (t : Table) : TableCall → Prop :=
  t.OnStore (fun _ _ => True) fun id vs _ => ∀ x ∈ t.columns.zipIdx, x.1.type.Exact →
    writesField t id t.columns vs x.2 = true →
      (fieldAt vs x.2).type = .unknown ∨ (fieldAt vs x.2).type = x.1.type

instance (t : Table) (c : TableCall) : Decidable (t.KeepsTags c) :=
  inferInstanceAs (Decidable (t.OnStore _ _ c))

/-- The same of a call of the interface. -/
def Store.KeepsTags (s : Store) : Call → Prop
  | .data now (.updateRecord tableName id values) =>
    ∀ i t, s.Names tableName i t → t.KeepsTags (.update now id values)
  | .tableUpdate i now id values => ∀ t ∈ s.db.tables[i]?, t.KeepsTags (.update now id values)
  | _ => True

/-- Entering a record, the tags of the others kept. -/
theorem Table.Enters.tagged_iff {t t' : Table} {n : Record} (he : t.Enters t' n) (h : t.Tagged) :
    t'.Tagged ↔ ∀ x ∈ t.columns.zipIdx, x.1.type.Exact → (n.field x.2).type = x.1.type := by
  unfold Table.Tagged
  rw [he.columns_eq]
  constructor
  · exact fun h' => h' n ((he.mem_iff n).mpr (.inl rfl))
  · intro hn r hr
    rcases (he.mem_iff r).mp hr with rfl | ⟨hr, -⟩
    · exact hn
    · exact h r hr

/-- **A call keeps the tags exactly if it writes no other one.** -/
theorem step_tagged_iff {t : Table} (ht : t.Inv) (h : t.Tagged) (c : TableCall) :
    (t.step c).Tagged ↔ t.KeepsTags c := by
  refine onStore_iff (P := fun c => (t.step c).Tagged) ?_ ?_ ?_ c
  · intro counter now vs hacc
    refine ((enters_insert hacc now).tagged_iff h).trans ⟨fun _ => trivial, fun _ x hx _ => ?_⟩
    rw [field_newRecord (List.mem_zipIdx_iff_getElem?.mp hx)]
    rfl
  · intro now id vs r hl
    obtain ⟨r', -, he, hfields⟩ := enters_update ht hl now vs
    rw [he.tagged_iff h]
    refine forall₂_congr fun x hx => forall_congr' fun hexact => ?_
    have hold : (r.field x.2).type = x.1.type := h r (mem_of_lookup hl) x hx hexact
    have htype : (assignField (r.field x.2) (fieldAt vs x.2)).type =
        if (fieldAt vs x.2).type ≠ .unknown then (fieldAt vs x.2).type
        else (r.field x.2).type := rfl
    rw [hfields x.2 (lt_of_mem_zipIdx hx)]
    by_cases hw : writesField t id t.columns vs x.2 = true
    · rw [if_pos hw, htype, hold]
      by_cases hv : (fieldAt vs x.2).type = .unknown
      · simp [hv]
      · simp [hv, hw]
    · rw [if_neg hw]
      exact ⟨fun _ hw' => absurd hw' hw, fun _ => hold⟩
  · intro c hinsert hupdate r hr
    rw [columns_step]
    exact h r ((step_records_sublist hinsert hupdate).subset hr)

/-- The table calls of such a call keep the tags. -/
theorem Store.KeepsTags.admits {s : Store} {c : Call} (h : s.KeepsTags c) {i : Nat} {t : Table}
    {cs : List TableCall} (hm : s.Makes c i t cs) : Admits Table.step Table.KeepsTags t cs := by
  have hinsert : ∀ (t : Table) counter now values, t.KeepsTags (.insert counter now values) := by
    intro t counter now values
    cases values with
    | none => trivial
    | some vs => exact fun _ => trivial
  cases hm with
  | updateRecord hn => exact ⟨h i t hn, trivial⟩
  | tableUpdate ht => exact ⟨h t ht, trivial⟩
  | insertRecord => exact ⟨hinsert t _ _ _, trivial⟩
  | tableInsert => exact ⟨hinsert t _ _ _, trivial⟩
  | batchInsertRecords =>
    refine Admits.of_forall_mem (fun c hc t => ?_) t
    obtain ⟨counter, now, values, rfl⟩ := (mem_insertCalls hc).1
    exact hinsert t counter now values
  | deleteRecord | tableDelete | deleteRecordsByField | createIndex | dropIndex =>
    exact ⟨trivial, trivial⟩

/-- Where the tags are those of the columns the two searches agree on every record. -/
theorem fieldFound_eq_recordMatches {t : Table} (h : t.Tagged) {j : Nat} {c : Column}
    (hc : t.columns[j]? = some c) (hexact : c.type.Exact) (value : List UInt8) {r : Record}
    (hr : r ∈ t.records) : fieldFound j value r = recordMatches t j value r := by
  have htag : (r.field j).type = c.type :=
    h r hr (c, j) (List.mem_zipIdx_iff_getElem?.mpr hc) hexact
  have hcol : (t.columns[j]?.map (·.type)).getD .unknown = c.type := by
    rw [hc]
    rfl
  show fieldMatches (r.field j).type value (r.field j) =
    fieldMatches ((t.columns[j]?.map (·.type)).getD .unknown) value (r.field j)
  rw [htag, hcol]

/-- **The two searches agree** on the `INT`, `STRING` and `BOOL` columns: the one finds the first
record of the other's array, and none exactly if the array is empty. -/
def Database.LookupsAgree (db : Database) : Prop :=
  ∀ tableName fieldName value t j c, searchPlace db tableName fieldName = some (t, j) →
    t.columns[j]? = some c → c.type.Exact →
    let one := dbFindRecordByField db (some tableName) (some fieldName) (some value)
    let all := dbFindAllRecordsByField db (some tableName) (some fieldName) (some value)
    one = all.1.bind List.head? ∧ (one = none ↔ all = (none, some 0))

theorem lookupsAgree_of_tagged {db : Database} (h : ∀ t ∈ db.tables, t.Tagged) :
    db.LookupsAgree := by
  intro tableName fieldName value t j c hplace hc hexact one all
  have ht : t ∈ db.tables := mem_of_searchPlace hplace
  have hone : one = (t.records.filter (recordMatches t j value)).head? := by
    show dbFindRecordByField db (some tableName) (some fieldName) (some value) = _
    rw [dbFindRecordByField_eq, hplace, Option.bind_some, List.head?_filter]
    exact List.find?_congr fun r hr => fieldFound_eq_recordMatches (h t ht) hc hexact value hr
  have hall : all = _ := dbFindAllRecordsByField_of_place hplace value
  rw [hone, hall]
  by_cases hnil : t.records.filter (recordMatches t j value) = []
  · rw [if_pos hnil, hnil]
    simp
  · rw [if_neg hnil]
    refine ⟨rfl, ?_⟩
    rw [List.head?_eq_none_iff]
    exact ⟨fun h => absurd h hnil, fun h => absurd (Prod.mk.inj h).1 (by simp)⟩

/-- **The searches agree in every state** that is reached while no update writes another tag than
that of the column into an `INT`, `STRING` or `BOOL` column. -/
theorem lookups_agree {s : Store} (h : Reach Store.Init Store.step Store.KeepsTags s) :
    s.db.LookupsAgree := by
  have hfresh : ∀ t : Table, t.Fresh → t.indexes = [] → t.Inv ∧ t.Tagged := fun t ht _ =>
    ⟨ht.inv, fun r hr => absurd hr (by simp [ht.1])⟩
  have hall : ∀ (i : Nat), ∀ t ∈ s.db.tables[i]?, t.Inv ∧ t.Tagged := by
    refine Reach.invariant (P := fun s : Store => ∀ (i : Nat), ∀ t ∈ s.db.tables[i]?,
      t.Inv ∧ t.Tagged) ?_ ?_ h
    · rintro s rfl i t ht
      simp [dbCreate] at ht
    · intro s c hs hc i
      refine (Store.step_forall_iff hfresh (hs i) c).mpr fun t cs hm => ?_
      have hstep : ∀ (t : Table) (c : TableCall), t.Inv ∧ t.Tagged → t.KeepsTags c →
          (t.step c).Inv ∧ (t.step c).Tagged :=
        fun t c ht hc => ⟨ht.1.step c, (step_tagged_iff ht.1 ht.2 c).mpr hc⟩
      exact run_invariant hstep (hs i t hm.found) (hc.admits hm)
  apply lookupsAgree_of_tagged
  intro t ht
  obtain ⟨i, hi⟩ := List.mem_iff_getElem?.mp ht
  exact (hall i t hi).2

/-- An update that keeps the type of the key. -/
theorem lookups_agree_typed :
    (run Store.step openStore [.tableInsert 0 0 (some [.ofInt 5]),
      .tableUpdate 0 0 5 (some [.ofInt 5])]).db.LookupsAgree := by
  have hinit : Store.Init ⟨dbCreate, 1000⟩ := rfl
  have hopen : Reach Store.Init Store.step Store.KeepsTags openStore :=
    Reach.run (.start hinit) ⟨trivial, trivial, trivial⟩
  have hkeeps : Admits Store.step Store.KeepsTags openStore
      [.tableInsert 0 0 (some [.ofInt 5]), .tableUpdate 0 0 5 (some [.ofInt 5])] := by
    refine ⟨trivial, ?_, trivial⟩
    show ∀ t ∈ (openStore.step (.tableInsert 0 0 (some [.ofInt 5]))).db.tables[0]?,
      t.KeepsTags (.update 0 5 (some [.ofInt 5]))
    decide
  exact lookups_agree (Reach.run hopen hkeeps)

/-- The store after an update to NULL. -/
def nulledStore : Store := run Store.step openStore
  [.tableInsert 0 0 (some [.ofInt 5]), .tableUpdate 0 0 5 (some [⟨default, .null, .zero⟩])]

/-- By the value 0 one search finds the record of a NULL, and the other does not. -/
theorem lookups_disagree : ¬∀ s : Store, s.Reachable → s.db.LookupsAgree := by
  intro h
  have hreach : nulledStore.Reachable :=
    Reach.run openStore_reachable (Admits.of_forall (fun _ _ => trivial) _ _)
  have hplace : (searchPlace nulledStore.db (cstr "t") (cstr "id")).isSome = true := by decide
  obtain ⟨⟨t, j⟩, ht⟩ := Option.isSome_iff_exists.mp hplace
  have hcol : ∀ x ∈ searchPlace nulledStore.db (cstr "t") (cstr "id"),
      x.1.columns[x.2]? = some ⟨cstr "id", .int, defaultConstraint 0⟩ := by decide
  have hone : dbFindRecordByField nulledStore.db (some (cstr "t")) (some (cstr "id"))
      (some (intBytes 0)) = none := by decide
  have hall : dbFindAllRecordsByField nulledStore.db (some (cstr "t")) (some (cstr "id"))
      (some (intBytes 0)) ≠ (none, some 0) := by decide
  have hagree := h nulledStore hreach _ _ (intBytes 0) t j _ ht (hcol (t, j) ht) (by decide)
  exact hall (hagree.2.mp hone)

end Luminix
