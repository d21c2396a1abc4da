import Luminix.Equiv.RecordOrder

/-!
# Saving and loading again and again

A file is written in one environment and read in another one, at another time.  The loader does not
look at how times are written, so the file of a clean database comes back in every environment
(`load_clean_later`): the loaded database is clean again, and it looks like the saved one
(`Table.view`) with the rows of each table reversed.
-/

namespace Luminix

open CLib KeyedList Machine TokenReader

/-! ### Two environments -/

section

variable (q : Platform) (text : Int → List UInt8)

theorem recordMember_dateTimeText :
    recordMember { q with dateTimeText := text } = recordMember q := rfl

theorem insertDraft_dateTimeText :
    insertDraft { q with dateTimeText := text } = insertDraft q := rfl

theorem recordElement_dateTimeText :
    recordElement { q with dateTimeText := text } = recordElement q := by
  funext i columns s l
  rw [recordElement, recordElement, recordMember_dateTimeText, insertDraft_dateTimeText]

theorem tableRecords_dateTimeText :
    jsonParseTableRecords { q with dateTimeText := text } = jsonParseTableRecords q := by
  funext i s l
  rw [jsonParseTableRecords, jsonParseTableRecords, recordElement_dateTimeText]

theorem siblingMember_dateTimeText :
    siblingMember { q with dateTimeText := text } = siblingMember q := by
  funext i key s l
  rw [siblingMember, siblingMember, tableRecords_dateTimeText]

theorem siblingLoop_dateTimeText :
    siblingLoop { q with dateTimeText := text } = siblingLoop q := by
  funext i fuel s l
  induction fuel generalizing s l with
  | zero => rfl
  | succ fuel ih => simp only [siblingLoop, siblingMember_dateTimeText, ih]

theorem parseTable_dateTimeText : parseTable { q with dateTimeText := text } = parseTable q := by
  funext s l
  simp only [parseTable, siblingMember_dateTimeText, siblingLoop_dateTimeText]

theorem tablesLoop_dateTimeText : tablesLoop { q with dateTimeText := text } = tablesLoop q := by
  funext fuel started s l
  induction fuel generalizing started s l with
  | zero => rfl
  | succ fuel ih => simp only [tablesLoop, parseTable_dateTimeText, ih]

theorem topMember_dateTimeText : topMember { q with dateTimeText := text } = topMember q := by
  funext key s l
  simp only [topMember, tablesLoop_dateTimeText]

/-- The loader does not look at how times are written. -/
theorem dbLoadFromFile_dateTimeText :
    dbLoadFromFile { q with dateTimeText := text } = dbLoadFromFile q := by
  funext counter file
  simp only [dbLoadFromFile, loadContent, topMember_dateTimeText]

end

/-- The environment `q`, in which times are written as in `p`. -/
def Platform.withTimesOf (q p : Platform) : Platform := { q with dateTimeText := p.dateTimeText }

theorem Platform.Faithful.withTimesOf {p q : Platform} (hq : q.Faithful) (hp : p.Faithful) :
    (q.withTimesOf p).Faithful where
  malloc_eq := hq.malloc_eq
  dateTimeText_eq := hp.dateTimeText_eq
  opensForWriting_eq := hq.opensForWriting_eq
  fwrite_eq := hq.fwrite_eq

/-- The members of a file that `p` has written, as `q` reads them. -/
def filePartsLater (p q : Platform) (db : Database) : List (Part Store) :=
  [.of (cstr "metadata") (.objectStart :: metadataTokens p db) some,
    .of (cstr "tables") (.arrayStart :: arrayTail (db.tables.map (tableTokens (q.withTimesOf p))))
      fun s => db.tables.foldlM (loadTable (q.withTimesOf p)) s]

theorem readBy_filePartsLater (p q : Platform) (db : Database) :
    ∀ m ∈ filePartsLater p q db, m.ReadBy (topMember (q.withTimesOf p)) := by
  have hmetadata := readBy_fileParts p db _ List.mem_cons_self
  have htables := readBy_fileParts (q.withTimesOf p) db _ (List.mem_cons_of_mem _ List.mem_cons_self)
  rw [filePartsLater, List.forall_mem_cons, List.forall_mem_singleton]
  refine ⟨?_, htables⟩
  rcases hmetadata with ⟨hcolon, hparses⟩ | ⟨hnone, -⟩
  · refine .inl ⟨hcolon, fun s => ?_⟩
    -- The metadata are read without a look at the environment.
    have hsame : topMember (q.withTimesOf p) (cstr "metadata") s =
        topMember p (cstr "metadata") s := by
      funext l
      rw [topMember, topMember, if_pos rfl, if_pos rfl]
    have hmember : Parses (topMember p (cstr "metadata") s) (.objectStart :: metadataTokens p db)
        (some s) := hparses s
    exact hsame.symm ▸ hmember
  · cases hnone

/-- **Saving and loading later** is `reload`. -/
theorem load_save_later {p q : Platform} (hp : p.Faithful) (hq : q.Faithful) (counter : Int)
    {db : Database} (hdb : db.HasKeys) (htimes : db.TimesConvert p) :
    dbLoadFromFile q counter (dbSaveToFile p db).2 =
      some (reload (q.withTimesOf p) counter db) := by
  obtain ⟨text, hsave, hreads⟩ := dbSaveToFile_reads hp hdb htimes
  obtain ⟨l, h1, h⟩ := Reads.head hreads nofun
  have hfile : Settles [] [] (runParts (filePartsLater p q db) ⟨dbCreate, counter⟩)
      (parseMembers (topMember (q.withTimesOf p)) (l.length + 1) ⟨dbCreate, counter⟩ l) := by
    apply parses_members (steady_topMember _) _ (readBy_filePartsLater p q db) _ (Nat.lt_succ_self _)
    rw [List.append_nil]
    exact h
  have hrun : runParts (filePartsLater p q db) ⟨dbCreate, counter⟩ =
      reload (q.withTimesOf p) counter db := by
    simp only [filePartsLater, Part.of, runParts_cons, runParts_nil, Option.bind_some]
    exact Option.bind_fun_some _
  have hlen := length_parseToken_lt h1 (by simp) (by simp)
  -- loading does not print times, so it may as well run with those of the saving platform
  have hload : dbLoadFromFile q = dbLoadFromFile (q.withTimesOf p) :=
    (dbLoadFromFile_dateTimeText q p.dateTimeText).symm
  rw [hsave, hload, dbLoadFromFile, if_neg (by omega), if_pos (hq.withTimesOf hp |>.malloc_eq _),
    loadContent, h1]
  dsimp only
  rw [hrun] at hfile
  generalize parseMembers (topMember (q.withTimesOf p)) (l.length + 1) ⟨dbCreate, counter⟩ l = res
    at hfile
  generalize reload (q.withTimesOf p) counter db = loaded at hfile
  cases hfile with
  | done => rfl
  | failed => rfl

/-! ### Clean records stay clean -/

/-- The type that a value has been read with. -/
def Content.type : Content → FieldType
  | .int _ => .int
  | .string _ => .string
  | .float _ => .float
  | .double _ => .double
  | .bool _ => .bool
  | .datetime _ => .datetime
  | .null => .null
  | .bytes type _ => type

@[simp] theorem Field.type_content (f : Field) : f.content.type = f.type := by
  unfold Field.content
  cases h : f.type <;> rfl

theorem Record.map_type_values (r : Record) : r.values.map Content.type = r.fields.map Field.type := by
  rw [Record.values, List.map_map]
  exact List.map_congr_left fun f _ => f.type_content

/-- Being clean is about the id and the values. -/
theorem Record.Clean.of_values {columns : List Column} {r r' : Record} (h : r.Clean columns)
    (hkey : columns.head?.map Column.type = some .int) (hid : r'.id = r.id)
    (hvalues : r'.values = r.values) : r'.Clean columns where
  isInt := hid ▸ h.isInt
  id_ne := hid ▸ h.id_ne
  types := by rw [← r'.map_type_values, hvalues, r.map_type_values, h.types]
  key := by
    obtain ⟨c, hc, hint⟩ := Option.map_eq_some_iff.mp hkey
    rw [List.head?_eq_getElem?] at hc
    obtain ⟨hlt, -⟩ := List.getElem?_eq_some_iff.mp hc
    obtain ⟨f, hf⟩ : ∃ f, r.fields[0]? = some f :=
      ⟨_, List.getElem?_eq_getElem (h.length_eq ▸ hlt)⟩
    have hfirst : (r'.fields[0]?).map Field.content = some f.content := by
      have hget : r'.values[0]? = r.values[0]? := by rw [hvalues]
      rw [Record.values, Record.values, List.getElem?_map, List.getElem?_map, hf] at hget
      exact hget
    obtain ⟨f', hf', hcontent⟩ := Option.map_eq_some_iff.mp hfirst
    have htype : f.type = .int := (type_eq_of_tags h.types hc hf).trans hint
    have htype' : f'.type = .int := by
      rw [← f'.type_content, hcontent, f.type_content, htype]
    -- both first fields are integers with the same content
    have hvalue := h.key
    rw [fieldAt_of_getElem? hf] at hvalue
    rw [fieldAt_of_getElem? hf', hid, ← hvalue]
    unfold Field.content at hcontent
    rw [htype, htype'] at hcontent
    exact Content.int.inj hcontent
  strings := by
    intro f' hf' hstring
    have hmem : f'.content ∈ r.values := hvalues ▸ List.mem_map_of_mem hf'
    obtain ⟨f, hf, hcontent⟩ := List.mem_map.mp hmem
    have htype : f.type = .string := by
      rw [← f.type_content, hcontent, f'.type_content, hstring]
    have hplain := h.strings f hf htype
    unfold Field.content at hcontent
    rw [htype, hstring] at hcontent
    rwa [Content.string.inj hcontent] at hplain

section

variable {p : Platform} {t : Table} (ht : t.Clean)

include ht

theorem Table.Clean.columns_loadedTable : (loadedTable p t).columns = t.columns :=
  (sameTable_loadedTable ht).columns

theorem Table.Clean.name_loadedTable : (loadedTable p t).name = t.name :=
  (sameTable_loadedTable ht).name

/-- **A clean table is loaded as a clean table.** -/
theorem Table.Clean.loadedTable : (loadedTable p t).Clean := by
  have hcolumns := ht.columns_loadedTable (p := p)
  have hname := ht.name_loadedTable (p := p)
  have hids : (Luminix.loadedTable p t).records.map Record.id = (t.records.map Record.id).reverse :=
    ids_loadedTable ht
  have hlen : (Luminix.loadedTable p t).records.length = t.records.length := by
    simpa using congrArg List.length hids
  refine
    { plain := ⟨hname ▸ ht.plain.named, hname ▸ ht.plain.name, hcolumns ▸ ht.plain.columns⟩
      names_nodup := hcolumns ▸ ht.names_nodup
      types := hcolumns ▸ ht.types
      constraints := hcolumns ▸ ht.constraints
      key := hcolumns ▸ ht.key
      ids_nodup := hids ▸ List.nodup_reverse.mpr ht.ids_nodup
      count_le := hlen ▸ ht.count_le
      records := fun r' hr' => ?_ }
  rw [records_loadedTable_of_clean ht] at hr'
  obtain ⟨r, hr, rfl⟩ := List.mem_map.mp hr'
  have hr := List.mem_reverse.mp hr
  have hclean := ht.records r hr
  rw [hcolumns]
  exact hclean.of_values ht.key (id_loadedRecord _ _ hclean.isInt) (values_loadedRecord ht hr)

end

/-! ### What a table looks like -/

/-- A table from outside: its name, its columns, and the ids and values of its rows in order. -/
structure TableView where
  name : CString
  columns : List Column
  rows : List (Int × List Content)
  deriving DecidableEq

/-- The last row first. -/
def TableView.reversed (v : TableView) : TableView := { v with rows := v.rows.reverse }

theorem TableView.reversed_involutive : Function.Involutive TableView.reversed := fun v => by
  rw [reversed, reversed, List.reverse_reverse]

/-- What the table looks like. -/
def Table.view (t : Table) : TableView :=
  ⟨t.name, t.columns, t.records.map fun r => (r.id, r.values)⟩

/-- What the tables look like. -/
def Database.views (db : Database) : List TableView := db.tables.map Table.view

/-- **A clean table is loaded as it is, the last row first.** -/
theorem view_loadedTable {p : Platform} {t : Table} (ht : t.Clean) :
    (loadedTable p t).view = t.view.reversed := by
  have hrows : (loadedTable p t).records.map (fun r => (r.id, r.values)) =
      (t.records.map fun r => (r.id, r.values)).reverse := by
    rw [records_loadedTable_of_clean ht, List.map_map, ← List.map_reverse]
    refine List.map_congr_left fun r hr => ?_
    have hr := List.mem_reverse.mp hr
    have hid := id_loadedRecord (p := p) (freshTable t) t.columns (ht.records r hr).isInt
    exact Prod.ext hid (values_loadedRecord ht hr)
  rw [Table.view, Table.view, TableView.reversed, ht.name_loadedTable, ht.columns_loadedTable, hrows]

/-- **A clean database comes back later**, clean again and with all rows reversed. -/
theorem load_clean_later {p q : Platform} (hp : p.Faithful) (hq : q.Faithful) {db : Database}
    (h : db.Clean) (counter : Int) :
    ∃ s, dbLoadFromFile q counter (dbSaveToFile p db).2 = some (some s) ∧ s.db.Clean ∧
      s.db.views = db.views.map TableView.reversed ∧ s.globalCounter = counter := by
  obtain ⟨s, hs, htables, hcounter⟩ : ∃ s, reload (q.withTimesOf p) counter db = some s ∧
      s.db.tables = db.tables.map (loadedTable (q.withTimesOf p)) ∧ s.globalCounter = counter :=
    reload_eq (fun t ht => (h.tables t ht).count_le) h.reloadable
  refine ⟨s, ?_, ⟨?_, ?_⟩, ?_, hcounter⟩
  · rw [load_save_later hp hq counter h.plainNames.hasKeys h.timesConvert, hs]
  · have hnames : s.db.tables.map Table.name = db.tables.map Table.name := by
      rw [htables, List.map_map]
      exact List.map_congr_left fun t ht => (h.tables t ht).name_loadedTable
    rw [hnames]
    exact h.distinct
  · rw [htables]
    exact List.forall_mem_map.mpr fun t ht => (h.tables t ht).loadedTable
  · rw [Database.views, Database.views, htables, List.map_map, List.map_map]
    exact List.map_congr_left fun t ht => view_loadedTable (h.tables t ht)

end Luminix
