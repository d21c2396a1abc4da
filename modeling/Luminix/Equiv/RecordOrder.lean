import Luminix.Equiv.FieldSearch
import Luminix.Equiv.RoundTrip

/-!
# The order of the records

A new record becomes the head of the list, and a table is loaded record by record in the order it
was saved in.  The list of a clean table is therefore reversed by a save and a load
(`order_reversed`), and a search by a field, which stops at the first match, finds what was the last
one before.
-/

namespace Luminix

open CLib KeyedList Machine

variable {p : Platform}

/-! ### Search by a field -/

/-- A search looks at nothing but the values of the records. -/
theorem fieldFound_congr {r r' : Record} (h : r'.values = r.values) (j : Nat)
    (value : List UInt8) : fieldFound j value r' = fieldFound j value r := by
  have hget : (r'.fields[j]?).map Field.content = (r.fields[j]?).map Field.content := by
    rw [← List.getElem?_map, ← List.getElem?_map]
    exact congrArg (·[j]?) h
  unfold fieldFound
  rw [List.getD_eq_getElem?_getD, List.getD_eq_getElem?_getD]
  cases hf : r.fields[j]? with
  | none =>
    rw [hf, Option.map_none, Option.map_eq_none_iff] at hget
    rw [hget]
  | some f =>
    rw [hf, Option.map_some, Option.map_eq_some_iff] at hget
    obtain ⟨f', hf', hcontent⟩ := hget
    rw [hf']
    show fieldMatches f'.type value f' = fieldMatches f.type value f
    unfold Field.content at hcontent
    cases hty : f.type <;> cases hty' : f'.type <;> rw [hty, hty'] at hcontent <;>
      simp_all [fieldMatches]

/-- The last record that a search by a field could find. -/
def lastFoundByField (db : Database) (tableName fieldName : CString) (value : List UInt8) :
    Option Record :=
  (searchPlace db tableName fieldName).bind fun x => x.1.records.reverse.find? (fieldFound x.2 value)

/-! ### After a save and a load -/

/-- The records of a clean table come back as they were, in reverse order. -/
theorem records_loadedTable_of_clean {t : Table} (ht : t.Clean) : (loadedTable p t).records =
    t.records.reverse.map (loadedRecord p (freshTable t) t.columns) := by
  have hint : t.IntIds := fun r hr => (ht.records r hr).isInt
  have hall : t.records.filter (·.id ≠ -1) = t.records :=
    List.filter_eq_self.mpr fun r hr => by simpa using (ht.records r hr).id_ne
  rw [records_loadedTable ht.ids_nodup hint, hall, List.map_reverse]

/-- The ids in the list, from its head on. -/
def Table.ids (t : Table) : List Int := t.records.map Record.id

theorem ids_loadedTable {t : Table} (ht : t.Clean) : (loadedTable p t).ids = t.ids.reverse := by
  rw [Table.ids, Table.ids, records_loadedTable_of_clean ht, List.map_map, ← List.map_reverse]
  apply List.map_congr_left
  intro r hr
  exact id_loadedRecord _ _ (ht.records r (List.mem_reverse.mp hr)).isInt

/-- A renaming that keeps what is looked at finds the renamed record. -/
theorem find?_map_of_eq {α β : Type} {f : α → α} {g : α → β} {P : α → Bool} {l : List α}
    (h : ∀ a ∈ l, P (f a) = P a ∧ g (f a) = g a) :
    ((l.map f).find? P).map g = (l.find? P).map g := by
  induction l with
  | nil => rfl
  | cons a l ih =>
    obtain ⟨hP, hg⟩ := h a List.mem_cons_self
    rw [List.map_cons, List.find?_cons, List.find?_cons, hP]
    cases P a with
    | true => exact congrArg some hg
    | false => exact ih fun b hb => h b (List.mem_cons_of_mem a hb)

/-- A search in the loaded table finds the record that was the last match. -/
theorem find_records_loadedTable {t : Table} (ht : t.Clean) (j : Nat) (value : List UInt8) :
    ((loadedTable p t).records.find? (fieldFound j value)).map (fun r => (r.id, r.values)) =
      (t.records.reverse.find? (fieldFound j value)).map fun r => (r.id, r.values) := by
  rw [records_loadedTable_of_clean ht]
  refine find?_map_of_eq fun r hr => ?_
  have hr := List.mem_reverse.mp hr
  have hvalues := values_loadedRecord (p := p) ht hr
  have hid := id_loadedRecord (p := p) (freshTable t) t.columns (ht.records r hr).isInt
  exact ⟨fieldFound_congr hvalues j value, Prod.ext hid hvalues⟩

/-- The place that is searched only depends on the names. -/
theorem searchPlace_map {db db' : Database} {f : Table → Table}
    (htables : db'.tables = db.tables.map f) (hname : ∀ t ∈ db.tables, (f t).name = t.name)
    (hcols : ∀ t ∈ db.tables, (f t).columns.map Column.name = t.columns.map Column.name)
    (tableName fieldName : CString) : searchPlace db' tableName fieldName =
      (searchPlace db tableName fieldName).map fun x => (f x.1, x.2) := by
  have hnames : db'.tables.map Table.name = db.tables.map Table.name := by
    rw [htables, List.map_map]
    exact List.map_congr_left hname
  have hget : dbGetTable db' tableName = dbGetTable db tableName := by
    rw [dbGetTable_eq, dbGetTable_eq, hnames]
  have hindex : ∀ cs : List Column, columnIndex cs fieldName =
      (cs.map Column.name).findIdx? fun n => n = fieldName := by
    intro cs
    rw [List.findIdx?_map]
    rfl
  unfold searchPlace
  rw [hget, htables]
  cases dbGetTable db tableName with
  | none => rfl
  | some i =>
    rw [Option.bind_some, Option.bind_some, List.getElem?_map]
    cases ht : db.tables[i]? with
    | none => rfl
    | some t =>
      rw [Option.map_some, Option.bind_some, Option.bind_some, hindex, hindex,
        hcols t (List.mem_of_getElem? ht), Option.map_map]
      rfl

theorem lastFoundByField_withNewConstraints (db : Database) (tableName fieldName : CString)
    (value : List UInt8) : lastFoundByField db.withNewConstraints tableName fieldName value =
      lastFoundByField db tableName fieldName value := by
  have htables : db.withNewConstraints.tables = db.tables.map Table.withNewConstraints := rfl
  unfold lastFoundByField
  rw [searchPlace_map htables (fun t _ => rfl) fun t _ => t.names_withNewConstraints]
  cases searchPlace db tableName fieldName <;> rfl

/-- A search in a loaded database finds the last match of the saved one. -/
theorem dbFindRecordByField_loaded {db db' : Database} (h : db.Clean)
    (htables : db'.tables = db.tables.map (loadedTable p)) (tableName fieldName : CString)
    (value : List UInt8) :
    (dbFindRecordByField db' (some tableName) (some fieldName) (some value)).map
        (fun r => (r.id, r.values)) =
      (lastFoundByField db tableName fieldName value).map fun r => (r.id, r.values) := by
  have hsame : ∀ t ∈ db.tables, SameTable t (loadedTable p t) :=
    fun t ht => sameTable_loadedTable (h.tables t ht)
  rw [dbFindRecordByField_eq, lastFoundByField, searchPlace_map htables
    (fun t ht => (hsame t ht).name) fun t ht => congrArg _ (hsame t ht).columns]
  cases hplace : searchPlace db tableName fieldName with
  | none => rfl
  | some x =>
    obtain ⟨t, j⟩ := x
    have ht : t ∈ db.tables := mem_of_searchPlace hplace
    rw [Option.map_some, Option.bind_some, Option.bind_some]
    exact find_records_loadedTable (h.tables t ht) j value

/-- **A save and a load reverse the order of the records**, and a search finds the last match of
before.  The constraints of the columns do not matter. -/
theorem order_reversed (hp : p.Faithful) {db : Database} (h : db.withNewConstraints.Clean)
    (counter : Int) :
    ∃ s, dbLoadFromFile p counter (dbSaveToFile p db).2 = some (some s) ∧
      s.db.tables.map Table.ids = db.tables.map (fun t => t.ids.reverse) ∧
      ∀ tableName fieldName value,
        (dbFindRecordByField s.db (some tableName) (some fieldName) (some value)).map
            (fun r => (r.id, r.values)) =
          (lastFoundByField db tableName fieldName value).map fun r => (r.id, r.values) := by
  obtain ⟨s, hload, htables⟩ := load_clean hp h counter
  have hkeys : db.HasKeys := Database.hasKeys_withNewConstraints.mp h.plainNames.hasKeys
  have htimes : db.TimesConvert p := Database.timesConvert_withNewConstraints.mp h.timesConvert
  rw [load_save_withNewConstraints hp counter hkeys htimes] at hload
  refine ⟨s, hload, ?_, fun tableName fieldName value => ?_⟩
  · have hids : s.db.tables.map Table.ids =
        db.withNewConstraints.tables.map fun t => t.ids.reverse := by
      rw [htables, List.map_map]
      exact List.map_congr_left fun t ht => ids_loadedTable (h.tables t ht)
    rw [hids]
    exact List.map_map
  · rw [dbFindRecordByField_loaded h htables, lastFoundByField_withNewConstraints]

theorem order_reversed_people : ∃ s,
    dbLoadFromFile .epoch 1000 (dbSaveToFile .epoch peopleStore.db).2 = some (some s) ∧
      s.db.tables.map Table.ids = peopleStore.db.tables.map (fun t => t.ids.reverse) ∧
      ∀ tableName fieldName value,
        (dbFindRecordByField s.db (some tableName) (some fieldName) (some value)).map
            (fun r => (r.id, r.values)) =
          (lastFoundByField peopleStore.db tableName fieldName value).map fun r => (r.id, r.values) :=
  order_reversed Platform.epoch_faithful
    (by decide : peopleStore.db.withNewConstraints.Clean) 1000

/-- Two records change places. -/
theorem order_not_kept :
    ¬∀ db : Database, db.Clean → ∀ p : Platform, p.Faithful → ∀ counter,
      ∃ s, dbLoadFromFile p counter (dbSaveToFile p db).2 = some (some s) ∧
        s.db.tables.map Table.ids = db.tables.map Table.ids := by
  intro h
  have hclean : peopleStore.db.Clean := by decide
  obtain ⟨s, hload, hids⟩ := h _ hclean _ Platform.epoch_faithful 1000
  obtain ⟨s', hload', htables⟩ := load_clean Platform.epoch_faithful hclean 1000
  obtain rfl : s' = s := Option.some.inj (Option.some.inj (hload'.symm.trans hload))
  have hreversed : s'.db.tables.map Table.ids = peopleStore.db.tables.map fun t => t.ids.reverse := by
    rw [htables, List.map_map]
    exact List.map_congr_left fun t ht => ids_loadedTable (hclean.tables t ht)
  rw [hids] at hreversed
  exact absurd hreversed (by decide)

end Luminix
