import Luminix.Equiv.Records

/-!
# The round trip

What is saved comes back for the databases that are `Clean`: plain and distinct names, columns of
the types `INT`, `BOOL` and `STRING` with the constraints of a new table, the record id as the value
of the first column, and strings that need no escape.  The tables are the same maps from ids to
values (`load_save_clean`); their lists of records are reversed.
-/

namespace Luminix

open CLib KeyedList Machine

variable {p : Platform}

/-! ### Clean databases -/

/-- The values of a record. -/
def Record.values (r : Record) : List Content := r.fields.map Field.content

/-- A record with its id in the first column, tags as the columns have them, and plain strings. -/
structure Record.Clean (columns : List Column) (r : Record) : Prop where
  isInt : IsInt r.id
  id_ne : r.id ≠ -1
  types : r.fields.map Field.type = columns.map Column.type
  key : (fieldAt r.fields 0).value.intValue = r.id
  strings : ∀ f ∈ r.fields, f.type = .string →
    Plain f.value.stringValue.bytes ∧ f.value.stringValue.length < maxFieldLen

/-- A table whose first column is an `INT` with the id, and whose other columns are basic. -/
structure Table.Clean (t : Table) : Prop where
  plain : t.PlainNames
  names_nodup : (t.columns.map Column.name).Nodup
  types : ∀ c ∈ t.columns, c.type = .int ∨ c.type = .bool ∨ c.type = .string
  constraints : ∀ x ∈ t.columns.zipIdx, x.1.constraint = defaultConstraint x.2
  key : t.columns.head?.map Column.type = some .int
  ids_nodup : (t.records.map Record.id).Nodup
  count_le : (t.records.length : Int) ≤ maxRecordsPerTable
  records : ∀ r ∈ t.records, r.Clean t.columns

instance (columns : List Column) (r : Record) : Decidable (r.Clean columns) :=
  decidable_of_iff (IsInt r.id ∧ r.id ≠ -1 ∧ r.fields.map Field.type = columns.map Column.type ∧
    (fieldAt r.fields 0).value.intValue = r.id ∧ ∀ f ∈ r.fields, f.type = .string →
      Plain f.value.stringValue.bytes ∧ f.value.stringValue.length < maxFieldLen)
    ⟨fun h => ⟨h.1, h.2.1, h.2.2.1, h.2.2.2.1, h.2.2.2.2⟩,
      fun h => ⟨h.isInt, h.id_ne, h.types, h.key, h.strings⟩⟩

instance (t : Table) : Decidable t.Clean :=
  decidable_of_iff (t.PlainNames ∧ (t.columns.map Column.name).Nodup ∧
    (∀ c ∈ t.columns, c.type = .int ∨ c.type = .bool ∨ c.type = .string) ∧
    (∀ x ∈ t.columns.zipIdx, x.1.constraint = defaultConstraint x.2) ∧
    t.columns.head?.map Column.type = some .int ∧ (t.records.map Record.id).Nodup ∧
    (t.records.length : Int) ≤ maxRecordsPerTable ∧ ∀ r ∈ t.records, r.Clean t.columns)
    ⟨fun h => ⟨h.1, h.2.1, h.2.2.1, h.2.2.2.1, h.2.2.2.2.1, h.2.2.2.2.2.1, h.2.2.2.2.2.2.1,
      h.2.2.2.2.2.2.2⟩, fun h => ⟨h.plain, h.names_nodup, h.types, h.constraints, h.key, h.ids_nodup,
      h.count_le, h.records⟩⟩

/-- All tables are clean, and their names differ. -/
structure Database.Clean (db : Database) : Prop where
  distinct : (db.tables.map Table.name).Nodup
  tables : ∀ t ∈ db.tables, t.Clean

instance (db : Database) : Decidable db.Clean :=
  decidable_of_iff ((db.tables.map Table.name).Nodup ∧ ∀ t ∈ db.tables, t.Clean)
    ⟨fun h => ⟨h.1, h.2⟩, fun h => ⟨h.distinct, h.tables⟩⟩

section Tagged

variable {columns : List Column} {fields : List Field}
  (h : fields.map Field.type = columns.map Column.type)

include h

theorem length_eq_of_tags : fields.length = columns.length := by
  simpa using congrArg List.length h

/-- The type tag of a value is the type of its column. -/
theorem type_eq_of_tags {j : Nat} {c : Column} {f : Field} (hc : columns[j]? = some c)
    (hf : fields[j]? = some f) : f.type = c.type := by
  have htypes : (fields.map Field.type)[j]? = (columns.map Column.type)[j]? := by rw [h]
  rw [List.getElem?_map, List.getElem?_map, hc, hf] at htypes
  exact Option.some.inj htypes

/-- The type tag of any value is the type of some column. -/
theorem exists_type_of_tags {f : Field} (hf : f ∈ fields) : ∃ c ∈ columns, c.type = f.type :=
  List.mem_map.mp (h ▸ List.mem_map_of_mem hf)

end Tagged

theorem Record.Clean.length_eq {columns : List Column} {r : Record} (h : r.Clean columns) :
    r.fields.length = columns.length :=
  length_eq_of_tags h.types

theorem Database.Clean.plainNames {db : Database} (h : db.Clean) : db.PlainNames :=
  fun t ht => (h.tables t ht).plain

theorem Database.Clean.reloadable {db : Database} (h : db.Clean) : db.Reloadable := by
  have hlen : ∀ t ∈ db.tables, ∀ r ∈ t.records, r.fields.length = t.columns.length :=
    fun t ht r hr => ((h.tables t ht).records r hr).length_eq
  refine (reloadable_iff_of_plain h.plainNames hlen).mpr ⟨h.distinct, fun t ht r hr f hf => ?_⟩
  -- No value has a floating-point tag.
  obtain ⟨c, hc, hcf⟩ := exists_type_of_tags ((h.tables t ht).records r hr).types hf
  rcases (h.tables t ht).types c hc with hty | hty | hty <;> rw [hcf] at hty <;>
    exact ⟨fun hf => by simp [hf] at hty, fun hf => by simp [hf] at hty⟩

/-- A clean table holds no times. -/
theorem Table.Clean.timesConvert {t : Table} (h : t.Clean) {r : Record} (hr : r ∈ t.records) :
    r.TimesConvert p t.columns := by
  intro x hx htime
  rw [fieldPairs_eq_zip (h.records r hr).length_eq] at hx
  obtain ⟨c, hc, hcf⟩ := exists_type_of_tags (h.records r hr).types (List.of_mem_zip hx).2
  rw [htime] at hcf
  rcases h.types c hc with hty | hty | hty <;> simp [hty] at hcf

theorem Database.Clean.timesConvert {db : Database} (h : db.Clean) : db.TimesConvert p :=
  fun t ht _ hr => (h.tables t ht).timesConvert hr

/-! ### The columns -/

/-- With distinct names every column is the first of its name. -/
theorem columnIndex_of_nodup {cs : List Column} (hnd : (cs.map Column.name).Nodup) {i : Nat}
    {c : Column} (hc : cs[i]? = some c) : columnIndex cs c.name = some i := by
  obtain ⟨hlt, rfl⟩ := List.getElem?_eq_some_iff.mp hc
  refine List.findIdx?_eq_some_iff_getElem.mpr ⟨hlt, by simp, fun j hj heq => ?_⟩
  have hname : (cs.map Column.name)[j]? = (cs.map Column.name)[i]? := by
    rw [List.getElem?_map, List.getElem?_map, List.getElem?_eq_getElem (hj.trans hlt),
      List.getElem?_eq_getElem hlt]
    exact congrArg some (of_decide_eq_true heq)
  have hji : j = i := (List.getElem?_inj (by rw [List.length_map]; omega) hnd).mp hname
  omega

/-- Basic columns with default constraints are read as they were written. -/
theorem newColumns_eq_self {cs : List Column} {i : Nat}
    (hnames : ∀ c ∈ cs, Plain c.name.bytes)
    (htypes : ∀ c ∈ cs, c.type = .int ∨ c.type = .bool ∨ c.type = .string)
    (hcons : ∀ x ∈ cs.zipIdx i, x.1.constraint = defaultConstraint x.2) :
    newColumns i (cs.map fun c => (escaped c.name,
      stringToFieldType (escaped (fieldTypeToString c.type)))) = cs := by
  induction cs generalizing i with
  | nil => rfl
  | cons c cs ih =>
    rw [List.zipIdx_cons, List.forall_mem_cons] at hcons
    have htype : stringToFieldType (escaped (fieldTypeToString c.type)) = c.type := by
      apply (stringToFieldType_fieldTypeToString_iff c.type).mpr
      rcases htypes c List.mem_cons_self with h | h | h <;> simp [h]
    rw [List.map_cons, newColumns, escaped_of_plain (hnames c List.mem_cons_self), htype,
      ← hcons.1, ih (fun d hd => hnames d (List.mem_cons_of_mem c hd))
        (fun d hd => htypes d (List.mem_cons_of_mem c hd)) hcons.2]

theorem Table.Clean.columns_freshTable {t : Table} (h : t.Clean) :
    (freshTable t).columns = t.columns :=
  newColumns_eq_self h.plain.columns h.types h.constraints

/-! ### The records -/

/-- **The values of a clean record come back.** -/
theorem values_loadedRecord {t : Table} (ht : t.Clean) {r : Record} (hr : r ∈ t.records) :
    (loadedRecord p (freshTable t) t.columns r).values = r.values := by
  have hclean := ht.records r hr
  have hcols := ht.columns_freshTable
  have hnew := isNewColumns_freshTable t
  refine List.ext_getElem? fun j => ?_
  rw [Record.values, Record.values, List.getElem?_map, List.getElem?_map]
  cases hc : t.columns[j]? with
  | none =>
    have hlen : t.columns.length ≤ j := List.getElem?_eq_none_iff.mp hc
    have hold : r.fields[j]? = none := by
      rw [List.getElem?_eq_none_iff, hclean.length_eq]
      exact hlen
    have hloaded : (loadedRecord p (freshTable t) t.columns r).fields[j]? = none := by
      show (copyFields (freshTable t).columns _)[j]? = none
      rw [getElem?_copyFields, hcols, hc]
      rfl
    rw [hold, hloaded]
  | some c =>
    obtain ⟨hlt, -⟩ := List.getElem?_eq_some_iff.mp hc
    obtain ⟨f, hf⟩ : ∃ f, r.fields[j]? = some f :=
      ⟨_, List.getElem?_eq_getElem (hclean.length_eq ▸ hlt)⟩
    have htype := type_eq_of_tags hclean.types hc hf
    have hc' : (freshTable t).columns[j]? = some c := hcols ▸ hc
    have hindex : ∀ i d, t.columns[i]? = some d →
        (columnIndex (freshTable t).columns d.name = some j ↔ i = j) := by
      intro i d hd
      rw [hcols, columnIndex_of_nodup ht.names_nodup hd]
      exact Option.some_inj
    have hv := getElem?_loadedValues (p := p) hc' hc hf hclean.length_eq hindex
    have hmem : f ∈ r.fields := List.mem_of_getElem? hf
    rw [hf]
    cases j with
    | zero =>
      -- The id that is written over the first value is the value.
      have hint : c.type = .int := by
        have hhead := ht.key
        rw [List.head?_eq_getElem?, hc] at hhead
        exact Option.some.inj hhead
      have hkey : f.value.intValue = r.id := by
        rw [← hclean.key, fieldAt_of_getElem? hf]
      rw [head_loadedRecord hnew hc' hclean.isInt hv, Option.map_some, Option.map_some]
      simp only [Field.content, htype, hint, FieldValue.intValue_setInt _ hclean.isInt, hkey]
    | succ j =>
      rw [tail_loadedRecord hnew hc' hv, Option.map_some, Option.map_some]
      refine congrArg some (content_storedField htype (ht.types c (List.mem_of_getElem? hc))
        (fun hstring => hclean.strings f hmem (htype.trans hstring)) ?_ _)
      exact quotable_of_plain (ht.plain.columns c (List.mem_of_getElem? hc))

/-! ### The whole database -/

/-- Two tables with the same name, the same columns and the same values under every id. -/
structure SameTable (t t' : Table) : Prop where
  name : t'.name = t.name
  columns : t'.columns = t.columns
  find : ∀ id, (tableFindRecord t' id).map Record.values =
    (tableFindRecord t id).map Record.values

theorem sameTable_loadedTable {t : Table} (ht : t.Clean) : SameTable t (loadedTable p t) where
  name := by rw [name_loadedTable, ht.plain.loadedName_eq]
  columns := by
    rw [columns_loadedTable]
    exact ht.columns_freshTable
  find id := by
    have hint : t.IntIds := fun r hr => (ht.records r hr).isInt
    rw [find_loadedTable ht.ids_nodup hint, tableFindRecord_eq]
    cases hl : lookup Record.id t.records id with
    | none => split_ifs <;> rfl
    | some r =>
      have hr := mem_of_lookup hl
      obtain rfl := key_of_lookup hl
      rw [if_neg (ht.records r hr).id_ne, Option.map_some, Option.map_some, Option.map_some,
        values_loadedRecord ht hr]

theorem load_clean (hp : p.Faithful) {db : Database} (h : db.Clean) (counter : Int) :
    ∃ s, dbLoadFromFile p counter (dbSaveToFile p db).2 = some (some s) ∧
      s.db.tables = db.tables.map (loadedTable p) := by
  have hroom : ∀ t ∈ db.tables, (t.records.length : Int) ≤ maxRecordsPerTable :=
    fun t ht => (h.tables t ht).count_le
  obtain ⟨s, hs, htables, -⟩ : ∃ s, reload p counter db = some s ∧
      s.db.tables = db.tables.map (loadedTable p) ∧ s.globalCounter = counter :=
    reload_eq hroom h.reloadable
  refine ⟨s, ?_, htables⟩
  rw [load_save hp counter h.plainNames.hasKeys h.timesConvert, hs]

/-- **A clean database comes back from the file it is saved to.** -/
theorem load_save_clean (hp : p.Faithful) {db : Database} (h : db.Clean) (counter : Int) :
    ∃ s, dbLoadFromFile p counter (dbSaveToFile p db).2 = some (some s) ∧
      List.Forall₂ SameTable db.tables s.db.tables := by
  obtain ⟨s, hload, htables⟩ := load_clean hp h counter
  refine ⟨s, hload, ?_⟩
  rw [htables, List.forall₂_map_right_iff]
  exact List.forall₂_same.mpr fun t ht => sameTable_loadedTable (h.tables t ht)

/-- A table with a key and a name, and two records. -/
def peopleStore : Store :=
  run Store.step ⟨dbCreate, 1000⟩
    [.addTable (some (cstr "people")) (some [(some (cstr "id"), .int), (some (cstr "name"), .string)]),
      .tableInsert 0 0 (some [.ofInt 7, ⟨default, .string, FieldValue.zero.setString (cstr "Ada")⟩]),
      .tableInsert 0 0 (some [.ofInt 3, ⟨default, .string, FieldValue.zero.setString (cstr "Alan")⟩])]

theorem load_save_clean_people : ∃ s,
    dbLoadFromFile .epoch 1000 (dbSaveToFile .epoch peopleStore.db).2 = some (some s) ∧
      List.Forall₂ SameTable peopleStore.db.tables s.db.tables :=
  load_save_clean Platform.epoch_faithful (by decide : peopleStore.db.Clean) 1000

end Luminix
