import Luminix.Equiv.Reopen

/-!
# Schemas

With plain names a schema comes back as far as the reader looks at it: the names of the columns, and
the types that `string_to_field_type` knows.  It does not know `DOUBLE`, and the list of constraints
is skipped, so that every column gets the flags of a new table (`schema_survives_iff`).
-/

namespace Luminix

open CLib Machine

/-! ### Plain names -/

/-- The names of the table and of its columns need no escape, and the table has one. -/
structure Table.PlainNames (t : Table) : Prop where
  named : 0 < t.name.length
  name : Plain t.name.bytes
  columns : ∀ c ∈ t.columns, Plain c.name.bytes

instance (t : Table) : Decidable t.PlainNames :=
  decidable_of_iff (0 < t.name.length ∧ Plain t.name.bytes ∧ ∀ c ∈ t.columns, Plain c.name.bytes)
    ⟨fun h => ⟨h.1, h.2.1, h.2.2⟩, fun h => ⟨h.named, h.name, h.columns⟩⟩

/-- This holds of every table. -/
def Database.PlainNames (db : Database) : Prop := ∀ t ∈ db.tables, t.PlainNames

instance (db : Database) : Decidable db.PlainNames :=
  inferInstanceAs (Decidable (∀ t ∈ db.tables, t.PlainNames))

theorem Database.PlainNames.hasKeys {db : Database} (h : db.PlainNames) : db.HasKeys :=
  fun t ht _ c hc => .inl (quotable_of_plain ((h t ht).columns c hc))

/-- A plain name is loaded as it was. -/
theorem Table.PlainNames.loadedName_eq {t : Table} (h : t.PlainNames) : loadedName t = t.name := by
  have hlt := t.name_lt
  rw [loadedName, escaped_of_plain h.name]
  exact CString.truncate_eq_self (by omega)

theorem fieldPairs_eq_zip {cs : List Column} {fs : List Field} (h : fs.length = cs.length) :
    fieldPairs cs fs = cs.zip fs := by
  induction cs generalizing fs with
  | nil => rfl
  | cons c cs ih =>
    obtain ⟨f, fs, rfl⟩ := List.exists_cons_of_length_eq_add_one h
    rw [fieldPairs, List.tail_cons, ih (Nat.succ.inj h)]
    rfl

/-- With plain column names a record is readable if its values are printable. -/
theorem readable_iff_of_plain {cs : List Column} {r : Record}
    (hcs : ∀ c ∈ cs, Plain c.name.bytes) (hlen : r.fields.length = cs.length) :
    r.Readable cs ↔ ∀ f ∈ r.fields, f.Printable := by
  unfold Record.Readable
  rw [fieldPairs_eq_zip hlen]
  constructor
  · intro h f hf
    obtain ⟨i, hi, rfl⟩ := List.mem_iff_getElem.mp hf
    have hmem : (cs.get ⟨i, hlen ▸ hi⟩, r.fields[i]) ∈ cs.zip r.fields :=
      List.mem_iff_getElem.mpr ⟨i, by simpa [hlen] using hi, List.getElem_zip⟩
    exact (h _ hmem).2
  · rintro h ⟨c, f⟩ hx
    obtain ⟨hc, hf⟩ := List.of_mem_zip hx
    exact ⟨quotable_of_plain (hcs c hc), h f hf⟩

/-- The stored values are printable. -/
def Database.Printable (db : Database) : Prop :=
  ∀ t ∈ db.tables, ∀ r ∈ t.records, ∀ f ∈ r.fields, f.Printable

instance (db : Database) : Decidable db.Printable :=
  inferInstanceAs (Decidable (∀ t ∈ db.tables, ∀ r ∈ t.records, ∀ f ∈ r.fields, f.Printable))

theorem reloadable_iff_of_plain {db : Database} (hnames : db.PlainNames)
    (hlen : ∀ t ∈ db.tables, ∀ r ∈ t.records, r.fields.length = t.columns.length) :
    db.Reloadable ↔ (db.tables.map Table.name).Nodup ∧ db.Printable := by
  have hname : db.tables.map loadedName = db.tables.map Table.name :=
    List.map_congr_left fun t ht => (hnames t ht).loadedName_eq
  have hread : ∀ t ∈ db.tables, ∀ r ∈ t.records,
      (r.Readable t.columns ↔ ∀ f ∈ r.fields, f.Printable) :=
    fun t ht r hr => readable_iff_of_plain (hnames t ht).columns (hlen t ht r hr)
  constructor
  · intro h
    exact ⟨hname ▸ h.distinct, fun t ht r hr => (hread t ht r hr).mp (h.readable t ht r hr)⟩
  · rintro ⟨hdistinct, hprint⟩
    exact ⟨fun t ht => (hnames t ht).named, hname ▸ hdistinct,
      fun t ht r hr => (hread t ht r hr).mpr (hprint t ht r hr)⟩

/-- Every record that calls lead to is full. -/
theorem Store.Reachable.fields_length {s : Store} (hs : s.Reachable) :
    ∀ t ∈ s.db.tables, ∀ r ∈ t.records, r.fields.length = t.columns.length := by
  intro t ht r hr
  obtain ⟨i, hi⟩ := List.mem_iff_getElem?.mp ht
  exact ((hs.table hi).inv.fields_length r hr).1

/-! ### What a schema says -/

/-- The name, the type and the flags `primary_key`, `unique` and `nullable` of a column. -/
def Column.schema (c : Column) : CString × FieldType × Bool × Bool × Bool :=
  (c.name, c.type, c.constraint.primaryKey, c.constraint.unique, c.constraint.nullable)

/-- The name of a table and its columns. -/
def Table.schema (t : Table) : CString × List (CString × FieldType × Bool × Bool × Bool) :=
  (t.name, t.columns.map Column.schema)

/-- The tables in their order. -/
def Database.schema (db : Database) :
    List (CString × List (CString × FieldType × Bool × Bool × Bool)) :=
  db.tables.map Table.schema

/-- The column at place `i` has a type that is read again, and the flags of a new table. -/
structure Column.IsStandard (c : Column) (i : Nat) : Prop where
  type_ne_double : c.type ≠ .double
  type_ne_null : c.type ≠ .null
  primaryKey_eq : c.constraint.primaryKey = (i == 0)
  unique_eq : c.constraint.unique = false
  nullable_eq : c.constraint.nullable = true

instance (c : Column) (i : Nat) : Decidable (c.IsStandard i) :=
  decidable_of_iff (c.type ≠ .double ∧ c.type ≠ .null ∧ c.constraint.primaryKey = (i == 0) ∧
    c.constraint.unique = false ∧ c.constraint.nullable = true)
    ⟨fun h => ⟨h.1, h.2.1, h.2.2.1, h.2.2.2.1, h.2.2.2.2⟩, fun h => ⟨h.type_ne_double, h.type_ne_null,
      h.primaryKey_eq, h.unique_eq, h.nullable_eq⟩⟩

/-- Every column is standard. -/
def Table.IsStandard (t : Table) : Prop := ∀ x ∈ t.columns.zipIdx, x.1.IsStandard x.2

instance (t : Table) : Decidable t.IsStandard :=
  inferInstanceAs (Decidable (∀ x ∈ t.columns.zipIdx, x.1.IsStandard x.2))

/-- The types that are read again from what they are written as. -/
theorem stringToFieldType_fieldTypeToString_iff (type : FieldType) :
    stringToFieldType (escaped (fieldTypeToString type)) = type ↔ type ≠ .double ∧ type ≠ .null := by
  have hplain : Plain (fieldTypeToString type).bytes := by cases type <;> decide
  rw [escaped_of_plain hplain]
  cases type <;> decide

theorem column_schema_eq_iff {c : Column} (hc : Plain c.name.bytes) (i : Nat) :
    Column.schema ⟨escaped c.name, stringToFieldType (escaped (fieldTypeToString c.type)),
      defaultConstraint i⟩ = c.schema ↔ c.IsStandard i := by
  rw [escaped_of_plain hc]
  simp only [Column.schema, defaultConstraint, Prod.mk.injEq, true_and,
    stringToFieldType_fieldTypeToString_iff]
  constructor
  · rintro ⟨⟨hdouble, hnull⟩, hkey, hunique, hnullable⟩
    exact ⟨hdouble, hnull, hkey.symm, hunique.symm, hnullable.symm⟩
  · intro h
    exact ⟨⟨h.type_ne_double, h.type_ne_null⟩, h.primaryKey_eq.symm, h.unique_eq.symm,
      h.nullable_eq.symm⟩

/-- Columns that are numbered from `i` on. -/
theorem columns_schema_eq_iff {cs : List Column} (hcs : ∀ c ∈ cs, Plain c.name.bytes) (i : Nat) :
    (newColumns i (cs.map fun c => (escaped c.name,
      stringToFieldType (escaped (fieldTypeToString c.type))))).map Column.schema =
        cs.map Column.schema ↔ ∀ x ∈ cs.zipIdx i, x.1.IsStandard x.2 := by
  induction cs generalizing i with
  | nil => exact ⟨fun _ => nofun, fun _ => rfl⟩
  | cons c cs ih =>
    rw [List.map_cons, newColumns, List.map_cons, List.map_cons, List.cons.injEq, List.zipIdx_cons,
      List.forall_mem_cons]
    exact and_congr (column_schema_eq_iff (hcs c List.mem_cons_self) i)
      (ih (fun d hd => hcs d (List.mem_cons_of_mem c hd)) (i + 1))

theorem table_schema_eq_iff (p : Platform) {t : Table} (h : t.PlainNames) :
    (loadedTable p t).schema = t.schema ↔ t.IsStandard := by
  simp only [Table.schema, name_loadedTable, h.loadedName_eq, columns_loadedTable, Prod.mk.injEq,
    true_and]
  exact columns_schema_eq_iff h.columns 0

/-- A database that is loaded again has its schema exactly if all its columns are standard. -/
theorem reload_schema_iff {p : Platform} (hp : p.Faithful) {s : Store} (hs : s.Reachable)
    (hnames : s.db.PlainNames) (counter : Int) (h : s.db.Reloadable) (htimes : s.db.TimesConvert p) :
    (∃ s', dbLoadFromFile p counter (dbSaveToFile p s.db).2 = some (some s') ∧
      s'.db.schema = s.db.schema) ↔ ∀ t ∈ s.db.tables, t.IsStandard := by
  obtain ⟨s', hs', htables, -⟩ : ∃ s', reload p counter s.db = some s' ∧
      s'.db.tables = s.db.tables.map (loadedTable p) ∧ s'.globalCounter = counter :=
    reload_eq hs.room h
  have hschema : s'.db.schema = s.db.schema ↔ ∀ t ∈ s.db.tables, t.IsStandard := by
    rw [Database.schema, Database.schema, htables, List.map_map, List.map_inj_left]
    exact forall₂_congr fun t ht => table_schema_eq_iff p (hnames t ht)
  rw [load_save hp counter hnames.hasKeys htimes, hs', ← hschema]
  constructor
  · rintro ⟨s'', heq, h⟩
    obtain rfl := Option.some.inj (Option.some.inj heq)
    exact h
  · intro h
    exact ⟨s', rfl, h⟩

/-! ### The constraints -/

/-- The table with the constraints that a new one has. -/
def Table.withNewConstraints (t : Table) : Table :=
  { t with
    columns := newColumns 0 (t.columns.map fun c => (c.name, c.type))
    columns_pos := by simpa using t.columns_pos
    columns_le := by simpa using t.columns_le }

/-- The database with the constraints that new tables have. -/
def Database.withNewConstraints (db : Database) : Database :=
  { db with
    tables := db.tables.map Table.withNewConstraints
    tables_le := by simpa using db.tables_le }

theorem map_newColumns {α : Type} (g : CString → FieldType → α) (cs : List Column) (i : Nat) :
    (newColumns i (cs.map fun c => (c.name, c.type))).map (fun c => g c.name c.type) =
      cs.map fun c => g c.name c.type := by
  induction cs generalizing i with
  | nil => rfl
  | cons c cs ih =>
    rw [List.map_cons, newColumns, List.map_cons, ih, List.map_cons]

theorem Table.names_withNewConstraints (t : Table) :
    t.withNewConstraints.columns.map Column.name = t.columns.map Column.name :=
  map_newColumns (fun name _ => name) t.columns 0

theorem Database.hasKeys_withNewConstraints {db : Database} :
    db.withNewConstraints.HasKeys ↔ db.HasKeys := by
  have hkeys : ∀ t : Table, (∀ c ∈ t.withNewConstraints.columns, IsKey c.name) ↔
      ∀ c ∈ t.columns, IsKey c.name := by
    intro t
    rw [← List.forall_mem_map (P := IsKey), t.names_withNewConstraints]
    exact List.forall_mem_map
  unfold HasKeys withNewConstraints
  rw [List.forall_mem_map]
  exact forall₂_congr fun t _ => imp_congr_right fun _ => hkeys t

/-- The times do not change. -/
theorem Database.timesConvert_withNewConstraints {p : Platform} {db : Database} :
    db.withNewConstraints.TimesConvert p ↔ db.TimesConvert p := by
  have hpairs : ∀ (cs cs' : List Column) (fs : List Field), cs'.length = cs.length →
      (fieldPairs cs' fs).map Prod.snd = (fieldPairs cs fs).map Prod.snd := by
    intro cs
    induction cs with
    | nil =>
      intro cs' fs hlen
      rw [List.eq_nil_of_length_eq_zero hlen]
    | cons c cs ih =>
      intro cs' fs hlen
      obtain ⟨c', cs', rfl⟩ := List.exists_cons_of_length_eq_add_one hlen
      rw [fieldPairs, fieldPairs, List.map_cons, List.map_cons, ih cs' fs.tail (Nat.succ.inj hlen)]
  have hrecord : ∀ (t : Table) (r : Record),
      r.TimesConvert p t.withNewConstraints.columns ↔ r.TimesConvert p t.columns := by
    intro t r
    have hlen : t.withNewConstraints.columns.length = t.columns.length := by
      rw [← List.length_map (f := Column.name), t.names_withNewConstraints, List.length_map]
    unfold Record.TimesConvert
    rw [← List.forall_mem_map (f := Prod.snd) (P := Field.TimeConverts p),
      hpairs t.columns _ r.fields hlen, List.forall_mem_map]
  unfold TimesConvert withNewConstraints
  rw [List.forall_mem_map]
  exact forall₂_congr fun t _ => forall₂_congr fun r _ => hrecord t r

/-- The columns of the saved table only say under which names the values were written. -/
theorem loadedFields_congr (p : Platform) (columns : List Column) {saved saved' : List Column}
    (h : saved'.map Column.name = saved.map Column.name) (fields values : List Field) :
    loadedFields p columns (fieldPairs saved' fields) values =
      loadedFields p columns (fieldPairs saved fields) values := by
  induction saved generalizing saved' fields values with
  | nil =>
    obtain rfl := List.map_eq_nil_iff.mp h
    rfl
  | cons c cs ih =>
    obtain ⟨c', cs', rfl, hname, hnames⟩ := List.map_eq_cons_iff.mp h
    have hrest := ih hnames fields.tail
    unfold loadedFields fieldToken at hrest ⊢
    rw [fieldPairs, fieldPairs, List.foldlM_cons, List.foldlM_cons]
    dsimp only
    rw [hname]
    exact congrArg _ (funext hrest)

theorem loadTable_withNewConstraints (p : Platform) (s : Store) (t : Table) :
    loadTable p s t.withNewConstraints = loadTable p s t := by
  have hcolumns : loadedColumns t.withNewConstraints = loadedColumns t :=
    map_newColumns (fun name type => (some (escaped name),
      stringToFieldType (escaped (fieldTypeToString type)))) t.columns 0
  have hschema : ∀ db, loadSchema db t.withNewConstraints = loadSchema db t := by
    intro db
    unfold loadSchema
    rw [hcolumns]
    rfl
  have hrecord : ∀ i columns,
      loadRecord p i columns t.withNewConstraints.columns = loadRecord p i columns t.columns := by
    intro i columns
    funext s r
    unfold loadRecord
    rw [loadedFields_congr p columns t.names_withNewConstraints]
  unfold loadTable
  simp only [hschema, hrecord]
  rfl

/-- **No constraint is read from a file**: it does not matter which ones were saved. -/
theorem load_save_withNewConstraints {p : Platform} (hp : p.Faithful) (counter : Int) {db : Database}
    (hdb : db.HasKeys) (htimes : db.TimesConvert p) :
    dbLoadFromFile p counter (dbSaveToFile p db.withNewConstraints).2 =
      dbLoadFromFile p counter (dbSaveToFile p db).2 := by
  rw [load_save hp counter hdb htimes,
    load_save hp counter (Database.hasKeys_withNewConstraints.mpr hdb)
      (Database.timesConvert_withNewConstraints.mpr htimes)]
  apply congrArg some
  show (db.tables.map Table.withNewConstraints).foldlM (loadTable p) _ = _
  rw [List.foldlM_map]
  simp only [loadTable_withNewConstraints]
  rfl

/-! ### The exact condition -/

/-- **When a schema comes back**: the names of the tables differ, every stored value is printable
and every stored time can be written, and the columns are standard. -/
structure Database.KeepsSchema (p : Platform) (db : Database) : Prop where
  distinct : (db.tables.map Table.name).Nodup
  printable : db.Printable
  times : db.TimesConvert p
  standard : ∀ t ∈ db.tables, t.IsStandard

theorem schema_survives_iff {p : Platform} (hp : p.Faithful) {s : Store} (hs : s.Reachable)
    (hnames : s.db.PlainNames) (counter : Int) :
    (∃ s', dbLoadFromFile p counter (dbSaveToFile p s.db).2 = some (some s') ∧
      s'.db.schema = s.db.schema) ↔ s.db.KeepsSchema p := by
  have hreloadable := reloadable_iff_of_plain hnames hs.fields_length
  constructor
  · rintro ⟨s', hload, hschema⟩
    obtain ⟨hready, htimes⟩ := (opens_iff hp hs hnames.hasKeys counter).mp ⟨s', hload⟩
    obtain ⟨hdistinct, hprint⟩ := hreloadable.mp hready
    exact ⟨hdistinct, hprint, htimes,
      (reload_schema_iff hp hs hnames counter hready htimes).mp ⟨s', hload, hschema⟩⟩
  · intro h
    have hready := hreloadable.mpr ⟨h.distinct, h.printable⟩
    exact (reload_schema_iff hp hs hnames counter hready h.times).mpr h.standard

/-- A table with a column for a time, and one record of a time. -/
def datedStore (time : Int) : Store :=
  run Store.step ⟨dbCreate, 1000⟩
    [.addTable (some (cstr "t")) (some [(some (cstr "id"), .int), (some (cstr "at"), .datetime)]),
      .tableInsert 0 0 (some [.ofInt 1, ⟨default, .datetime, FieldValue.zero.setTime time⟩])]

theorem datedStore_reachable (time : Int) : (datedStore time).Reachable := by
  have hinit : Store.Init ⟨dbCreate, 1000⟩ := rfl
  exact Reach.run (.start hinit) (Admits.of_forall (fun _ _ => trivial) _ _)

/-- A leap day. -/
theorem schema_survives_iff_datetime : ∃ s', dbLoadFromFile .epoch 1000
    (dbSaveToFile .epoch (datedStore 951782400).db).2 = some (some s') ∧
      s'.db.schema = (datedStore 951782400).db.schema := by
  have hnames : (datedStore 951782400).db.PlainNames := by decide
  have hkeeps : (datedStore 951782400).db.KeepsSchema .epoch :=
    ⟨by decide, by decide, by decide, by decide⟩
  exact (schema_survives_iff Platform.epoch_faithful (datedStore_reachable _) hnames 1000).mpr hkeeps

/-- The time 2 to the power of 62 ends the program. -/
example : ¬(datedStore 4611686018427387904).db.TimesConvert .epoch := by decide +kernel

/-- A table with one column of this type. -/
def typedColumnStore (type : FieldType) : Store :=
  run Store.step ⟨dbCreate, 1000⟩ [.addTable (some (cstr "t")) (some [(some (cstr "x"), type)])]

theorem typedColumnStore_reachable (type : FieldType) : (typedColumnStore type).Reachable := by
  have hinit : Store.Init ⟨dbCreate, 1000⟩ := rfl
  exact Reach.run (.start hinit) (Admits.of_forall (fun _ _ => trivial) _ _)

/-- A column of type `DOUBLE` comes back with an unknown type. -/
theorem schema_lost :
    ¬∀ s : Store, s.Reachable → s.db.PlainNames →
      (∀ t ∈ s.db.tables, ∀ c ∈ t.columns, c.type ≠ .null ∧ c.type ≠ .unknown) →
      ∀ p : Platform, p.Faithful → ∀ counter, ∃ s',
        dbLoadFromFile p counter (dbSaveToFile p s.db).2 = some (some s') ∧
          s'.db.schema = s.db.schema := by
  intro h
  have hreach := typedColumnStore_reachable .double
  have hnames : (typedColumnStore .double).db.PlainNames := by decide
  have hload := h _ hreach hnames (by decide) _ Platform.epoch_faithful 1000
  have hready : (typedColumnStore .double).db.Reloadable := by decide
  have hstandard :=
    (reload_schema_iff Platform.epoch_faithful hreach hnames 1000 hready (by decide)).mp hload
  exact absurd hstandard (by decide)

end Luminix
