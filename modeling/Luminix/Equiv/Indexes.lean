import Luminix.Equiv.Store

/-!
# The indexes of a table

`create_simple_index` cuts the name of the column at 255 bytes, and `find_index_in_manager` and
`remove_index_from_manager` compare the whole name.  While the names fit, the indexes of a table are
a list keyed by the names; an index on a column with a longer name is not found again, neither to
refuse a second one nor to drop it (`index_promises_iff`).
-/

namespace Luminix

open CLib KeyedList Machine

/-- The table and the column an index is for. -/
def Index.key (index : Index) : CString × CString := (index.tableName, index.fieldName)

/-- **What a call promises**: no two indexes of a table are for the same column, there are at most
`MAX_INDEXES_PER_TABLE`, and an index that was just created can be dropped, which leaves the tables
as they were before. -/
structure Store.KeepsIndexes (s : Store) (c : Call) : Prop where
  distinct : ∀ t ∈ (s.step c).db.tables, (t.indexes.map Index.key).Nodup
  length_le : ∀ t ∈ (s.step c).db.tables, t.indexes.length ≤ maxIndexesPerTable
  restored : ∀ name field type, c = .createIndex (some name) (some field) type →
    (dbCreateIndex s.db (some name) (some field) type).1 = .success →
    (dbDropIndex (s.step c).db (some name) (some field)).1 = .success ∧
    (dbDropIndex (s.step c).db (some name) (some field)).2.tables = s.db.tables

/-- The name of the column fits into the buffer of an index, if the table has the column and room
for one more index. -/
def Store.ShortIndexName (s : Store) : Call → Prop
  | .createIndex tableName (some fieldName) _ =>
    ∀ i t, s.Names tableName i t → (columnIndex t.columns fieldName).isSome →
      t.indexes.length < maxIndexesPerTable → fieldName.length < maxFieldLen
  | _ => True

/-! ### The indexes of one table -/

theorem findIndexInManager_eq (indexes : List Index) (tableName fieldName : CString) :
    findIndexInManager indexes tableName fieldName =
      lookup Index.key indexes (tableName, fieldName) := by
  unfold findIndexInManager lookup
  congr 1
  funext index
  rw [← Bool.decide_and]
  exact decide_eq_decide.mpr Prod.mk_inj.symm

theorem removeIndex_eq (indexes : List Index) (tableName fieldName : CString) :
    (indexes.eraseP fun index => index.tableName = tableName && index.fieldName = fieldName) =
      erase Index.key indexes (tableName, fieldName) := by
  unfold erase
  congr 1
  funext index
  rw [← Bool.decide_and]
  exact decide_eq_decide.mpr Prod.mk_inj.symm

/-- The indexes of a table as calls with names that fit leave them. -/
structure SoundIndexes (indexes : List Index) : Prop where
  distinct : (indexes.map Index.key).Nodup
  length_le : indexes.length ≤ maxIndexesPerTable
  short : ∀ index ∈ indexes, index.fieldName.length < maxFieldLen

theorem SoundIndexes.nil : SoundIndexes [] := ⟨List.nodup_nil, Nat.zero_le _, by simp⟩

/-- The column exists, the table has room for one more index, and none is found for the column. -/
def Table.AddsIndex (t : Table) (tableName fieldName : CString) : Prop :=
  (columnIndex t.columns fieldName).isSome ∧ t.indexes.length < maxIndexesPerTable ∧
    lookup Index.key t.indexes (tableName, fieldName) = none

/-- **The results of creating an index**: refused, or one index more. -/
theorem Table.createIndex_cases (t : Table) (tableName fieldName : CString) (type : IndexType) :
    (¬t.AddsIndex tableName fieldName ∧ (t.createIndex tableName fieldName type).1 ≠ .success ∧
      (t.createIndex tableName fieldName type).2 = t.indexes) ∨
    (t.AddsIndex tableName fieldName ∧ t.createIndex tableName fieldName type =
      (.success, t.indexes ++ [createSimpleIndex tableName fieldName type])) := by
  unfold Table.createIndex Table.AddsIndex
  rw [findIndexInManager_eq]
  split_ifs with hcol hfound hfull
  · exact .inl ⟨fun h => by simp [hcol] at h, by simp, rfl⟩
  · exact .inl ⟨fun h => by simp [h.2.2] at hfound, by simp, rfl⟩
  · exact .inl ⟨fun h => absurd h.2.1 (by omega), by simp, rfl⟩
  · refine .inr ⟨⟨Option.isSome_iff_ne_none.mpr hcol, by omega, ?_⟩, rfl⟩
    simpa using hfound

/-- The key of an index whose names fit. -/
theorem key_createSimpleIndex {tableName fieldName : CString}
    (htable : tableName.length < maxTableName) (hfield : fieldName.length < maxFieldLen)
    (type : IndexType) :
    (createSimpleIndex tableName fieldName type).key = (tableName, fieldName) := by
  show (tableName.truncate (maxTableName - 1), fieldName.truncate (maxFieldLen - 1)) = _
  rw [CString.truncate_eq_self (by omega), CString.truncate_eq_self (by omega)]

/-- An index whose names fit keeps the indexes sound. -/
theorem SoundIndexes.concat {t : Table} (h : SoundIndexes t.indexes) {tableName fieldName : CString}
    (hadds : t.AddsIndex tableName fieldName) (htable : tableName.length < maxTableName)
    (hfield : fieldName.length < maxFieldLen) (type : IndexType) :
    SoundIndexes (t.indexes ++ [createSimpleIndex tableName fieldName type]) := by
  obtain ⟨-, hroom, hnew⟩ := hadds
  have hkey := key_createSimpleIndex htable hfield type
  refine ⟨?_, ?_, fun index hindex => ?_⟩
  · rw [List.map_append, List.map_singleton, hkey, List.nodup_append]
    refine ⟨h.distinct, List.nodup_singleton _, fun a ha b hb => ?_⟩
    obtain ⟨index, hindex, rfl⟩ := List.mem_map.mp ha
    obtain rfl := List.mem_singleton.mp hb
    exact lookup_eq_none_iff.mp hnew index hindex
  · rw [List.length_append, List.length_singleton]
    omega
  · rcases List.mem_append.mp hindex with hold | hnew'
    · exact h.short index hold
    · obtain rfl := List.mem_singleton.mp hnew'
      have hcut := CString.length_truncate_le (maxFieldLen - 1) fieldName
      exact Nat.lt_of_le_of_lt hcut (by decide)

/-- Dropping an index keeps them sound. -/
theorem SoundIndexes.dropIndex {t : Table} (h : SoundIndexes t.indexes)
    (tableName fieldName : CString) : SoundIndexes (t.dropIndex tableName fieldName).2 := by
  unfold Table.dropIndex
  split_ifs
  · rw [removeIndex_eq]
    have hsub : (erase Index.key t.indexes (tableName, fieldName)).Sublist t.indexes :=
      erase_sublist
    exact ⟨h.distinct.sublist (hsub.map _), hsub.length_le.trans h.length_le,
      fun index hindex => h.short index (hsub.subset hindex)⟩
  · exact h

/-- **An index that was just created is dropped again** exactly if the name of the column fits. -/
theorem drop_createIndex_iff {t : Table} (h : SoundIndexes t.indexes)
    {tableName fieldName : CString} (hadds : t.AddsIndex tableName fieldName)
    (htable : tableName.length < maxTableName) (type : IndexType) :
    Table.dropIndex
        { t with indexes := t.indexes ++ [createSimpleIndex tableName fieldName type] }
        tableName fieldName = (.success, t.indexes) ↔
      fieldName.length < maxFieldLen := by
  unfold Table.dropIndex
  dsimp only
  rw [findIndexInManager_eq, removeIndex_eq]
  constructor
  · intro hdrop
    by_contra hlong
    -- no index has a name as long as that
    have hnone : lookup Index.key (t.indexes ++ [createSimpleIndex tableName fieldName type])
        (tableName, fieldName) = none := by
      refine lookup_eq_none_iff.mpr fun index hindex hkey => hlong ?_
      obtain ⟨-, hname⟩ := Prod.mk_inj.mp hkey
      rw [← hname]
      rcases List.mem_append.mp hindex with hold | hnew
      · exact h.short index hold
      · obtain rfl := List.mem_singleton.mp hnew
        have hcut := CString.length_truncate_le (maxFieldLen - 1) fieldName
        exact Nat.lt_of_le_of_lt hcut (by decide)
    rw [hnone, if_neg (by simp)] at hdrop
    cases hdrop
  · intro hshort
    have hkey := key_createSimpleIndex htable hshort type
    have hfound : lookup Index.key (t.indexes ++ [createSimpleIndex tableName fieldName type])
        (tableName, fieldName) ≠ none := by
      rw [lookup_ne_none_iff, List.map_append, List.map_singleton, hkey]
      simp
    rw [if_pos (Option.isSome_iff_ne_none.mpr hfound), erase_concat hadds.2.2 hkey]

/-! ### One call -/

/-- A table call other than creating or dropping an index leaves the indexes alone. -/
theorem Table.step_indexes {t : Table} {c : TableCall} (hc : ∀ indexes, c ≠ .setIndexes indexes) :
    (t.step c).indexes = t.indexes := by
  cases c with
  | insert counter now values =>
    rcases tableInsertRecord_cases t counter now values with
      ⟨e, k, heq⟩ | ⟨vs, id, k, -, -, -, -, heq⟩
    · rw [Table.step, heq]
    · rw [Table.step, heq]
      exact updateIndexesForRecord_eq t _ _
  | update now id values =>
    rcases tableUpdateRecord_cases t now id values with
      ⟨-, heq⟩ | ⟨vs, -, -, heq⟩ | ⟨vs, r, fields, -, -, -, heq⟩ | ⟨vs, r, fields, -, -, -, heq⟩
    all_goals rw [Table.step, heq]
  | delete id =>
    rcases tableDeleteRecord_cases t id with ⟨-, heq⟩ | ⟨-, heq⟩
    all_goals rw [Table.step, heq]
  | sweep j v => rfl
  | setIndexes indexes => exact absurd rfl (hc indexes)

/-- So do any number of them. -/
theorem Table.run_indexes {cs : List TableCall} (hcs : ∀ c ∈ cs, ∀ indexes, c ≠ .setIndexes indexes)
    (t : Table) : (run Table.step t cs).indexes = t.indexes := by
  induction cs generalizing t with
  | nil => rfl
  | cons c cs ih =>
    obtain ⟨hc, hcs⟩ := List.forall_mem_cons.mp hcs
    rw [run_cons, ih hcs, Table.step_indexes hc]

/-- The table has the name it was found by. -/
theorem Store.Names.name_eq {s : Store} {name : CString} {i : Nat} {t : Table}
    (h : s.Names (some name) i t) : t.name = name := by
  obtain ⟨hlt, hname, -⟩ := List.findIdx?_eq_some_iff_getElem.mp h.getTable_eq
  obtain ⟨-, rfl⟩ := List.getElem?_eq_some_iff.mp h.found
  exact of_decide_eq_true hname

/-- The table is still found after its indexes have changed. -/
theorem Store.Names.setIndexes {s s' : Store} {name : CString} {i : Nat} {t : Table}
    (h : s.Names (some name) i t) {indexes : List Index}
    (hs' : s'.db.tables = s.db.tables.set i { t with indexes }) :
    s'.Names (some name) i { t with indexes } := by
  have hlt : i < s.db.tables.length := (List.getElem?_eq_some_iff.mp h.found).1
  refine ⟨⟨name, rfl, ?_⟩, ?_⟩
  · have hnames : (s.db.tables.set i { t with indexes }).map Table.name =
        s.db.tables.map Table.name := (map_set_iff h.found).mpr rfl
    rw [dbGetTable_eq, hs', hnames, ← dbGetTable_eq, h.getTable_eq]
  · rw [hs', List.getElem?_set_self hlt]

/-- All tables have sound indexes. -/
def Store.SoundIndexes (s : Store) : Prop :=
  ∀ (i : Nat), ∀ t ∈ s.db.tables[i]?, Luminix.SoundIndexes t.indexes

/-- **A call keeps the indexes sound**, if the name of the column fits. -/
theorem Store.SoundIndexes.step {s : Store} (hs : s.SoundIndexes) {c : Call}
    (hc : s.ShortIndexName c) : (s.step c).SoundIndexes := by
  intro i
  refine (Store.step_forall_iff ?_ (hs i) c).mpr fun t cs hm => ?_
  · intro t _ hnil
    rw [hnil]
    exact .nil
  · have ht := hs i t hm.found
    cases hm with
    | @createIndex name field type _ _ hn =>
      show Luminix.SoundIndexes (t.createIndex name field type).2
      rcases t.createIndex_cases name field type with ⟨-, -, heq⟩ | ⟨hadds, heq⟩
      · rwa [heq]
      · rw [heq]
        exact ht.concat hadds (hn.name_eq ▸ t.name_lt) (hc i t hn hadds.1 hadds.2.1) type
    | dropIndex => exact ht.dropIndex _ _
    | batchInsertRecords =>
      rw [Table.run_indexes]
      · exact ht
      · intro c hc
        obtain ⟨counter, now, values, rfl⟩ := (mem_insertCalls hc).1
        simp
    | insertRecord | updateRecord | deleteRecord | deleteRecordsByField | tableInsert | tableUpdate
    | tableDelete =>
      rw [Table.run_indexes (by simp)]
      exact ht

/-- A new index can be dropped again exactly if the name of its column fits. -/
theorem restored_iff {s : Store} (hs : s.SoundIndexes) {name field : CString} {i : Nat} {t : Table}
    (hn : s.Names (some name) i t) (hadds : t.AddsIndex name field) (type : IndexType) :
    let db := (s.step (.createIndex (some name) (some field) type)).db
    ((dbDropIndex db (some name) (some field)).1 = .success ∧
      (dbDropIndex db (some name) (some field)).2.tables = s.db.tables) ↔
      field.length < maxFieldLen := by
  dsimp only
  have hsound := hs i t hn.found
  have htable : name.length < maxTableName := hn.name_eq ▸ t.name_lt
  rcases t.createIndex_cases name field type with ⟨hno, -⟩ | ⟨-, hcreate⟩
  · exact absurd hadds hno
  · have htables := (dbCreateIndex_of_names hn field type).2
    rw [hcreate] at htables
    have hn' : (s.step (.createIndex (some name) (some field) type)).Names (some name) i
        { t with indexes := t.indexes ++ [createSimpleIndex name field type] } :=
      hn.setIndexes htables
    obtain ⟨hcode, hdrop⟩ := dbDropIndex_of_names hn' field
    have hset : (s.step (.createIndex (some name) (some field) type)).db.tables =
        s.db.tables.set i
          { t with indexes := t.indexes ++ [createSimpleIndex name field type] } := htables
    rw [hcode, hdrop, hset, List.set_set, ← drop_createIndex_iff hsound hadds htable type]
    constructor
    · rintro ⟨hok, hback⟩
      have hindexes := congrArg (List.map Table.indexes) hback
      exact Prod.ext hok ((map_set_iff hn.found).mp hindexes)
    · intro heq
      rw [heq]
      exact ⟨rfl, set_found hn.found⟩

/-- **A call keeps its promises exactly if the name of the column fits.** -/
theorem keepsIndexes_iff {s : Store} (hs : s.SoundIndexes) (c : Call) :
    s.KeepsIndexes c ↔ s.ShortIndexName c := by
  constructor
  · intro hkeeps
    cases c with
    | createIndex tableName fieldName type =>
      cases fieldName with
      | none => trivial
      | some field =>
        intro i t hn hcol hroom
        obtain ⟨name, rfl, -⟩ := hn.named
        by_cases hnew : lookup Index.key t.indexes (name, field) = none
        · have hadds : t.AddsIndex name field := ⟨hcol, hroom, hnew⟩
          refine (restored_iff hs hn hadds type).mp (hkeeps.restored name field type rfl ?_)
          rw [(dbCreateIndex_of_names hn field type).1]
          rcases t.createIndex_cases name field type with ⟨hno, -⟩ | ⟨-, heq⟩
          · exact absurd hadds hno
          · rw [heq]
        · -- the index that is found has the name, so it fits
          obtain ⟨index, hindex, hkey⟩ := List.mem_map.mp (lookup_ne_none_iff.mp hnew)
          rw [← (Prod.mk_inj.mp hkey).2]
          exact (hs i t hn.found).short index hindex
    | _ => trivial
  · intro hshort
    have hsound := hs.step hshort
    have hall : ∀ t ∈ (s.step c).db.tables, Luminix.SoundIndexes t.indexes := by
      intro t ht
      obtain ⟨i, hi⟩ := List.mem_iff_getElem?.mp ht
      exact hsound i t hi
    refine ⟨fun t ht => (hall t ht).distinct, fun t ht => (hall t ht).length_le, ?_⟩
    rintro name field type rfl hok
    obtain ⟨i, t, hn⟩ : ∃ i t, s.Names (some name) i t := by
      by_contra hno
      have hnone : dbGetTable s.db name = none :=
        dbGetTable_eq_none fun i t hn => hno ⟨i, t, hn⟩
      rw [dbCreateIndex, hnone] at hok
      cases hok
    rw [(dbCreateIndex_of_names hn field type).1] at hok
    rcases t.createIndex_cases name field type with ⟨-, hfail, -⟩ | ⟨hadds, -⟩
    · exact absurd hok hfail
    · exact (restored_iff hs hn hadds type).mpr (hshort i t hn hadds.1 hadds.2.1)

/-! ### Sequences of calls -/

/-- **Indexes keep their promises throughout a sequence of calls** on a database without indexes
exactly if the names of the columns they are created for fit. -/
theorem index_promises_iff {s : Store} (hs : ∀ t ∈ s.db.tables, t.indexes = [])
    (calls : List Call) :
    Admits Store.step Store.KeepsIndexes s calls ↔
      Admits Store.step Store.ShortIndexName s calls := by
  have hsound : s.SoundIndexes := by
    intro i t ht
    rw [hs t (List.mem_of_getElem? ht)]
    exact .nil
  exact admits_iff_of_invariant (P := Store.SoundIndexes) (fun _ c h => keepsIndexes_iff h c)
    (fun _ _ h hc => h.step hc) hsound calls

/-- A database with the table `t`, whose only column has the name `name`. -/
def oneColumn (name : CString) : Store where
  db := (dbAddTable dbCreate (some (cstr "t")) (some [(some name, .int)])).2
  globalCounter := 1000

/-- An index on `id` is created and dropped. -/
theorem index_promises_iff_id :
    Admits Store.step Store.KeepsIndexes (oneColumn (cstr "id"))
      [.createIndex (some (cstr "t")) (some (cstr "id")) .btree,
        .dropIndex (some (cstr "t")) (some (cstr "id"))] := by
  refine (index_promises_iff (by decide) _).mpr ⟨fun i t _ _ _ => ?_, trivial, trivial⟩
  decide

/-- A column whose name has 256 letters gets two indexes. -/
theorem index_created_twice :
    ¬∀ (name : CString) (calls : List Call),
      Admits Store.step Store.KeepsIndexes (oneColumn name) calls := by
  intro h
  let name := CString.ofBytes (List.replicate 256 97)
  obtain ⟨-, hkeeps, -⟩ := h name
    [.createIndex (some (cstr "t")) (some name) .btree,
      .createIndex (some (cstr "t")) (some name) .btree]
  exact absurd hkeeps.distinct (by decide +kernel)

end Luminix
