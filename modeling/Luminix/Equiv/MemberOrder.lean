import Luminix.Equiv.TableCalls
import Luminix.Equiv.TableLayout

/-!
# The order of members

A table object means its name, its fields and the records behind its schema (`tableRun_eq`), and the
table that is loaded shows all three (`Shows`).  So another arrangement of the same members is
loaded as the same tables exactly if it has the same meaning (`member_order_iff`): records in front
of the schema, or beside the members of a flat one, are not read.
-/

namespace Luminix

open CLib TokenReader

/-! ### What a table object means -/

/-- The array of records that a member is. -/
def TableEntry.records? : TableEntry → Option (List (List RecordEntry))
  | .records rs => some rs
  | _ => none

/-- The record objects with an id among the members. -/
def recordObjects (ms : List TableEntry) : List (List RecordEntry) :=
  (ms.filterMap TableEntry.records?).flatten.filter fun es => recordId es ≠ -1

/-- The two table objects have the same name, the same fields and the same records. -/
structure KeepsMeaning (ms ms' : List TableEntry) : Prop where
  name : schemaName (readSchema ms') = schemaName (readSchema ms)
  fields : schemaFields (readSchema ms') = schemaFields (readSchema ms)
  records : recordObjects (behindSchema ms') = recordObjects (behindSchema ms)

variable (p : Platform)

/-- Record objects without an id do nothing. -/
theorem foldlM_insertRecord_filter (i : Nat) (columns : List Column) (rs : List (List RecordEntry))
    (s : Store) :
    (rs.filter fun es => recordId es ≠ -1).foldlM (insertRecord p i columns) s =
      rs.foldlM (insertRecord p i columns) s := by
  induction rs generalizing s with
  | nil => rfl
  | cons es rs ih =>
    rw [List.foldlM_cons]
    by_cases hid : recordId es = -1
    · have hdrop : insertRecord p i columns s es = some s := by
        unfold insertRecord insertDraft
        rw [id_recordDraft, if_pos hid]
        rfl
      rw [List.filter_cons_of_neg (by simp [hid]), hdrop]
      exact ih s
    · rw [List.filter_cons_of_pos (by simp [hid]), List.foldlM_cons]
      exact congrArg _ (funext ih)

/-- Of the members behind the schema only the record objects matter. -/
theorem foldlM_siblingRun {i : Nat} {columns : List Column} (ms : List TableEntry) {s : Store}
    {t : Table} (ht : s.db.tables[i]? = some t) (hcolumns : t.columns = columns) :
    ms.foldlM (siblingRun p i) s = (recordObjects ms).foldlM (insertRecord p i columns) s := by
  unfold recordObjects
  rw [foldlM_insertRecord_filter]
  induction ms generalizing s t with
  | nil => rfl
  | cons e ms ih =>
    rw [List.foldlM_cons]
    cases e with
    | schema es => exact ih ht hcolumns
    | entry e => exact ih ht hcolumns
    | records rs =>
      have hrecords : siblingRun p i s (.records rs) = rs.foldlM (insertRecord p i columns) s := by
        rw [siblingRun, insertRecords, ht, Option.bind_some, hcolumns]
      rw [List.filterMap_cons_some (f := TableEntry.records?) rfl, List.flatten_cons,
        List.foldlM_append, hrecords]
      cases hrun : rs.foldlM (insertRecord p i columns) s with
      | none => rfl
      | some s' =>
        -- the table still has its columns
        obtain ⟨t', loaded, htables, hloaded⟩ := exists_loaded p ht hcolumns hrun
        have hlt := (List.getElem?_eq_some_iff.mp ht).1
        have ht' : s'.db.tables[i]? = some t' := by rw [htables, List.getElem?_set_self hlt]
        exact ih ht' (hloaded.columns.trans hcolumns)

/-! ### New tables -/

theorem namedFields_eq_some {l : List (Option CString × FieldType)}
    {named : List (CString × FieldType)} (h : namedFields l = some named) :
    l = named.map fun f => (some f.1, f.2) := by
  induction l generalizing named with
  | nil =>
    obtain rfl := Option.some.inj h
    rfl
  | cons f l ih =>
    obtain ⟨_ | name, type⟩ := f
    · cases h
    · obtain ⟨named, hnamed, rfl⟩ := Option.map_eq_some_iff.mp h
      rw [List.map_cons, ← ih hnamed]

theorem fields_newColumns (i : Nat) (named : List (CString × FieldType)) :
    (newColumns i named).map (fun c => (some c.name, c.type)) =
      named.map fun f => (some f.1, f.2) := by
  induction named generalizing i with
  | nil => rfl
  | cons f named ih => rw [newColumns, List.map_cons, List.map_cons, ih]

/-- A new table shows the schema it is from. -/
theorem addSchema_eq_some {db db' : Database} {ms : List TableEntry}
    (h : addSchema db (schemaDraft ms) = some db') :
    ∃ t, db'.tables = db.tables ++ [t] ∧ t.name = schemaName (readSchema ms) ∧
      t.columns.map (fun c => (some c.name, c.type)) = schemaFields (readSchema ms) ∧
      t.records = [] := by
  have hcut : (schemaName (readSchema ms)).truncate (maxTableName - 1) =
      schemaName (readSchema ms) :=
    CString.truncate_eq_self (CString.length_truncate_le _ _)
  have hcases := dbAddTable_cases db (some (schemaDraft ms).name) (some (schemaDraft ms).fields)
  unfold addSchema at h
  split_ifs at h
  cases hadd : dbAddTable db (some (schemaDraft ms).name) (some (schemaDraft ms).fields) with
  | mk e db₁ =>
    rw [hadd] at h hcases
    rcases hcases with ⟨hne, -⟩ | ⟨n, l, named, hpos, hle, hn, hl, hnamed, -, rfl, htables⟩
    · cases e <;> first | exact absurd rfl hne | cases h
    · obtain rfl := Option.some.inj h
      obtain rfl := Option.some.inj hn
      obtain rfl := Option.some.inj hl
      refine ⟨_, htables, hcut, ?_, rfl⟩
      exact (fields_newColumns 0 named).trans (namedFields_eq_some hnamed).symm

/-- **A table object is its meaning**: the schema is added, and the records are inserted. -/
theorem tableRun_eq (s : Store) (ms : List TableEntry) :
    tableRun p s ms = (addSchema s.db (schemaDraft ms)).bind fun db =>
      (db.tables[db.tableCount - 1]?).bind fun t =>
        (recordObjects (behindSchema ms)).foldlM (insertRecord p (db.tableCount - 1) t.columns)
          { s with db } := by
  unfold tableRun
  cases hadd : addSchema s.db (schemaDraft ms) with
  | none => rfl
  | some db =>
    obtain ⟨t, htables, -⟩ := addSchema_eq_some hadd
    have hlast : db.tables[db.tableCount - 1]? = some t := by
      rw [Database.tableCount, htables]
      simp
    rw [Option.bind_some, Option.bind_some, hlast, Option.bind_some]
    exact foldlM_siblingRun p _ hlast rfl

theorem KeepsMeaning.tableRun_eq {ms ms' : List TableEntry} (h : KeepsMeaning ms ms') (s : Store) :
    tableRun p s ms' = tableRun p s ms := by
  have hdraft : schemaDraft ms' = schemaDraft ms := by
    rw [schemaDraft, schemaDraft, h.name, h.fields]
  rw [Luminix.tableRun_eq, Luminix.tableRun_eq, hdraft, h.records]

/-! ### What a table shows -/

/-- The table shows what the table object means. -/
structure Shows (ms : List TableEntry) (t : Table) : Prop where
  name : t.name = schemaName (readSchema ms)
  fields : t.columns.map (fun c => (some c.name, c.type)) = schemaFields (readSchema ms)
  records : t.records = [] ↔ recordObjects (behindSchema ms) = []

/-- A table that is loaded comes last, and shows its object. -/
theorem shows_of_tableRun {s s' : Store} {ms : List TableEntry} (h : tableRun p s ms = some s') :
    ∃ t, s'.db.tables = s.db.tables ++ [t] ∧ Shows ms t := by
  rw [tableRun_eq] at h
  obtain ⟨db, hadd, h⟩ := Option.bind_eq_some_iff.mp h
  obtain ⟨t, htables, hname, hfields, hrecords⟩ := addSchema_eq_some hadd
  have hcount : db.tableCount - 1 = s.db.tables.length := by
    rw [Database.tableCount, htables]
    simp
  have hlast : db.tables[db.tableCount - 1]? = some t := by
    rw [hcount, htables]
    simp
  rw [hlast, Option.bind_some] at h
  obtain ⟨t', loaded, hset, hloaded⟩ := exists_loaded p hlast rfl h
  refine ⟨t', ?_, hloaded.name.trans hname, ?_, ?_⟩
  · rw [hset, hcount]
    dsimp only
    rw [htables, List.set_append_right _ _ (Nat.le_refl _), Nat.sub_self]
    rfl
  · rw [hloaded.columns, hfields]
  · rw [hloaded.records, hrecords, List.append_nil, List.reverse_eq_nil_iff, List.map_eq_nil_iff]
    constructor
    · intro hnil
      -- every record object has an id, and the first one would have been linked
      refine List.eq_nil_iff_forall_not_mem.mpr fun es hes => ?_
      have hid := (List.mem_filter.mp hes).2
      exact (of_decide_eq_true hid) (hloaded.first hrecords hnil es hes)
    · intro hnil
      have hobjects := hloaded.objects
      rw [hnil] at hobjects
      exact List.map_eq_nil_iff.mp (List.sublist_nil.mp hobjects)

/-- The tables that are loaded show their objects one by one. -/
theorem shows_of_foldlM {tables : List (List TableEntry)} {s s' : Store}
    (h : tables.foldlM (tableRun p) s = some s') :
    ∃ ts, s'.db.tables = s.db.tables ++ ts ∧ List.Forall₂ Shows tables ts := by
  induction tables generalizing s with
  | nil =>
    obtain rfl := Option.some.inj h
    exact ⟨[], (List.append_nil _).symm, .nil⟩
  | cons ms tables ih =>
    rw [List.foldlM_cons] at h
    obtain ⟨s₁, hone, hrest⟩ := Option.bind_eq_some_iff.mp h
    obtain ⟨t, htables, ht⟩ := shows_of_tableRun p hone
    obtain ⟨ts, htables', hts⟩ := ih hrest
    refine ⟨t :: ts, ?_, .cons ht hts⟩
    rw [htables', htables, List.append_assoc, List.singleton_append]

/-! ### Arrangements -/

/-- The two table objects have the same members, with a schema and records among those of the first.
The second may have the members of the schema beside its other members instead. -/
def Rearranged (ms ms' : List TableEntry) : Prop :=
  ∃ es rs others, ms.Perm (.schema es :: .records rs :: others.map .entry) ∧
    (ms'.Perm (.schema es :: .records rs :: others.map .entry) ∨
      ms'.Perm (.records rs :: (es ++ others).map .entry))

theorem records?_entries (es : List SchemaEntry) :
    (es.map TableEntry.entry).filterMap TableEntry.records? = [] := by
  rw [List.filterMap_map]
  exact List.filterMap_eq_nil_iff.mpr fun e _ => rfl

theorem behindSchema_suffix (ms : List TableEntry) : behindSchema ms <:+ ms := by
  induction ms with
  | nil => exact List.suffix_refl []
  | cons e ms ih =>
    cases e with
    | schema es => exact List.suffix_cons _ ms
    | records rs => exact ih.trans (List.suffix_cons _ ms)
    | entry e => exact ih.trans (List.suffix_cons _ ms)

/-- With one array of records, that array is read or nothing. -/
theorem recordObjects_behindSchema {ms : List TableEntry} {rs : List (List RecordEntry)}
    (h : ms.filterMap TableEntry.records? = [rs]) : recordObjects (behindSchema ms) = [] ∨
      recordObjects (behindSchema ms) = rs.filter fun es => recordId es ≠ -1 := by
  have hsub := (behindSchema_suffix ms).sublist.filterMap TableEntry.records?
  rw [h] at hsub
  unfold recordObjects
  rcases List.sublist_singleton.mp hsub with hnil | hone
  · left
    rw [hnil]
    rfl
  · right
    rw [hone, List.flatten_singleton]

/-- Both arrangements have the same array of records. -/
theorem Rearranged.records {ms ms' : List TableEntry} (h : Rearranged ms ms') :
    ∃ rs, ms.filterMap TableEntry.records? = [rs] ∧ ms'.filterMap TableEntry.records? = [rs] := by
  obtain ⟨es, rs, others, hms, hms'⟩ := h
  have hnested : (TableEntry.schema es :: .records rs :: others.map .entry).filterMap
      TableEntry.records? = [rs] := by
    rw [List.filterMap_cons_none rfl, List.filterMap_cons_some (f := TableEntry.records?) rfl,
      records?_entries]
  have hflat : (TableEntry.records rs :: (es ++ others).map .entry).filterMap
      TableEntry.records? = [rs] := by
    rw [List.filterMap_cons_some (f := TableEntry.records?) rfl, records?_entries]
  refine ⟨rs, ?_, ?_⟩
  · exact List.perm_singleton.mp (hnested ▸ hms.filterMap TableEntry.records?)
  · rcases hms' with hms' | hms'
    · exact List.perm_singleton.mp (hnested ▸ hms'.filterMap TableEntry.records?)
    · exact List.perm_singleton.mp (hflat ▸ hms'.filterMap TableEntry.records?)

/-- What a table shows of both is all that they could differ in. -/
theorem Rearranged.keepsMeaning {ms ms' : List TableEntry} (h : Rearranged ms ms') {t t' : Table}
    (ht : Shows ms t) (ht' : Shows ms' t') (hname : t'.name = t.name)
    (hcolumns : t'.columns = t.columns) (hrecords : t'.records = t.records) :
    KeepsMeaning ms ms' where
  name := by rw [← ht'.name, ← ht.name, hname]
  fields := by rw [← ht'.fields, ← ht.fields, hcolumns]
  records := by
    obtain ⟨rs, hms, hms'⟩ := h.records
    have hiff : recordObjects (behindSchema ms') = [] ↔ recordObjects (behindSchema ms) = [] := by
      rw [← ht'.records, ← ht.records, hrecords]
    rcases recordObjects_behindSchema hms with h₁ | h₁ <;>
      rcases recordObjects_behindSchema hms' with h₂ | h₂
    · rw [h₁, h₂]
    · rw [hiff.mpr h₁, h₁]
    · rw [hiff.mp h₂, h₂]
    · rw [h₁, h₂]

/-! ### The law -/

/-- Texts of tables with the same meaning are read alike. -/
theorem foldlM_tableRun_eq {tables tables' : List (List TableEntry)}
    (h : List.Forall₂ KeepsMeaning tables tables') (s : Store) :
    tables'.foldlM (tableRun p) s = tables.foldlM (tableRun p) s := by
  induction h generalizing s with
  | nil => rfl
  | cons hone _ ih =>
    rw [List.foldlM_cons, List.foldlM_cons, hone.tableRun_eq]
    exact congrArg _ (funext ih)

/-- The name, the columns and the records of a table. -/
def Table.content (t : Table) : CString × List Column × List Record :=
  (t.name, t.columns, t.records)

/-- Equal tables are from objects with the same meaning. -/
theorem keepsMeaning_of_shows {tables tables' : List (List TableEntry)} {ts ts' : List Table}
    (h : List.Forall₂ Rearranged tables tables') (hts : List.Forall₂ Shows tables ts)
    (hts' : List.Forall₂ Shows tables' ts') (heq : ts'.map Table.content = ts.map Table.content) :
    List.Forall₂ KeepsMeaning tables tables' := by
  induction h generalizing ts ts' with
  | nil => exact .nil
  | cons hone _ ih =>
    cases hts with
    | cons ht hts =>
      cases hts' with
      | cons ht' hts' =>
        rw [List.map_cons, List.map_cons, List.cons.injEq] at heq
        obtain ⟨hcontent, hrest⟩ := heq
        simp only [Table.content, Prod.mk.injEq] at hcontent
        obtain ⟨hname, hcolumns, hrecords⟩ := hcontent
        exact .cons (hone.keepsMeaning ht ht' hname hcolumns hrecords) (ih hts hts' hrest)

/-- **Rearranging members is harmless exactly if the meaning is kept.**  If it is, the texts are
loaded alike; and only then the same tables are loaded as from a text that can be loaded. -/
theorem member_order_iff {p : Platform} (hp : p.Faithful) (counter : Int) {d d' : DatabaseText}
    {text text' : List UInt8} (htext : d.IsText text) (htext' : d'.IsText text')
    (h : List.Forall₂ Rearranged d.tables d'.tables) :
    (List.Forall₂ KeepsMeaning d.tables d'.tables →
      dbLoadFromFile p counter (some text') = dbLoadFromFile p counter (some text)) ∧
    ∀ s, dbLoadFromFile p counter (some text) = some (some s) →
      ((∃ s', dbLoadFromFile p counter (some text') = some (some s') ∧
          s'.db.tables.map Table.content = s.db.tables.map Table.content) ↔
        List.Forall₂ KeepsMeaning d.tables d'.tables) := by
  have hload := load_layout hp counter htext
  have hload' := load_layout hp counter htext'
  have hsame : List.Forall₂ KeepsMeaning d.tables d'.tables →
      dbLoadFromFile p counter (some text') = dbLoadFromFile p counter (some text) := by
    intro hmeaning
    rw [hload, hload', DatabaseText.run, DatabaseText.run, foldlM_tableRun_eq p hmeaning]
  refine ⟨hsame, fun s hs => ⟨?_, fun hmeaning => ⟨s, (hsame hmeaning).trans hs, rfl⟩⟩⟩
  rintro ⟨s', hs', heq⟩
  obtain ⟨ts, htables, hts⟩ := shows_of_foldlM p (Option.some.inj (hload.symm.trans hs))
  obtain ⟨ts', htables', hts'⟩ := shows_of_foldlM p (Option.some.inj (hload'.symm.trans hs'))
  -- the database that is loaded starts without tables
  have hempty : dbCreate.tables = [] := rfl
  rw [htables, htables', hempty, List.nil_append, List.nil_append] at heq
  exact keepsMeaning_of_shows h hts hts' heq

/-! ### Arrangements of one table -/

/-- The schema of a table with an `INT` key. -/
def keySchema : List SchemaEntry :=
  [.name (cstr "t"), .fields [[.name (cstr "id"), .type (cstr "INT")]]]

/-- A record with the id 5. -/
def fiveRecords : List (List RecordEntry) := [[.id (.number (cstr "5"))]]

/-- A member that is skipped. -/
def noteEntry : SchemaEntry :=
  .other ⟨cstr "note", [.null], by decide, .scalar .null⟩

/-- A database of one table. -/
def oneTable (ms : List TableEntry) : DatabaseText where
  before := []
  tables := [ms]
  after := []

def keySchemaText : List UInt8 :=
  ascii "\"schema\": \x7b\"name\": \"t\", " ++
    ascii "\"fields\": [\x7b\"name\": \"id\", \"type\": \"INT\"\x7d]\x7d"

def fiveRecordsText : List UInt8 := ascii "\"records\": [\x7b\"id\": 5\x7d]"

def noteText : List UInt8 := ascii "\"note\": null"

/-- The text of a database of one table with three members. -/
def oneTableText (a b c : List UInt8) : List UInt8 :=
  ascii "\x7b\"tables\": [\x7b" ++ a ++ ascii ", " ++ b ++ ascii ", " ++ c ++ ascii "\x7d]\x7d"

theorem isText_schemaFirst :
    (oneTable [.schema keySchema, .records fiveRecords, .entry noteEntry]).IsText
      (oneTableText keySchemaText fiveRecordsText noteText) :=
  ⟨[], reads_of_skipTokens (by decide) (by decide)⟩

/-- Behind the schema the order does not matter. -/
theorem member_order_iff_note :
    ∃ s, dbLoadFromFile .epoch 1000
        (some (oneTableText keySchemaText fiveRecordsText noteText)) = some (some s) ∧
      ∃ s', dbLoadFromFile .epoch 1000
          (some (oneTableText keySchemaText noteText fiveRecordsText)) = some (some s') ∧
        s'.db.tables.map Table.content = s.db.tables.map Table.content := by
  have htext : (oneTable [.schema keySchema, .entry noteEntry, .records fiveRecords]).IsText
      (oneTableText keySchemaText noteText fiveRecordsText) :=
    ⟨[], reads_of_skipTokens (by decide) (by decide)⟩
  have hrearranged : Rearranged [.schema keySchema, .records fiveRecords, .entry noteEntry]
      [.schema keySchema, .entry noteEntry, .records fiveRecords] :=
    ⟨keySchema, fiveRecords, [noteEntry], .refl _, .inl (.cons _ (.swap _ _ _))⟩
  have hmeaning : KeepsMeaning [.schema keySchema, .records fiveRecords, .entry noteEntry]
      [.schema keySchema, .entry noteEntry, .records fiveRecords] := ⟨rfl, rfl, rfl⟩
  have hload := load_layout Platform.epoch_faithful 1000 isText_schemaFirst
  have hsome : (oneTable [.schema keySchema, .records fiveRecords, .entry noteEntry]).run
      .epoch 1000 ≠ none := by decide
  obtain ⟨s, hs⟩ := Option.ne_none_iff_exists'.mp hsome
  rw [hs] at hload
  have hiff := (member_order_iff Platform.epoch_faithful 1000 isText_schemaFirst htext
    (.cons hrearranged .nil)).2 s hload
  exact ⟨s, hload, hiff.mpr (.cons hmeaning .nil)⟩

/-- **Records in front of the schema are lost.** -/
theorem records_in_front_lost :
    ¬∀ (p : Platform) (counter : Int) (d d' : DatabaseText) (text text' : List UInt8),
      p.Faithful → d.IsText text → d'.IsText text' → List.Forall₂ Rearranged d.tables d'.tables →
        ∀ s, dbLoadFromFile p counter (some text) = some (some s) →
          ∃ s', dbLoadFromFile p counter (some text') = some (some s') ∧
            s'.db.tables.map Table.content = s.db.tables.map Table.content := by
  intro h
  have htext : (oneTable [.records fiveRecords, .schema keySchema, .entry noteEntry]).IsText
      (oneTableText fiveRecordsText keySchemaText noteText) :=
    ⟨[], reads_of_skipTokens (by decide) (by decide)⟩
  have hrearranged : Rearranged [.schema keySchema, .records fiveRecords, .entry noteEntry]
      [.records fiveRecords, .schema keySchema, .entry noteEntry] :=
    ⟨keySchema, fiveRecords, [noteEntry], .refl _, .inl (.swap _ _ _)⟩
  have hload := load_layout Platform.epoch_faithful 1000 isText_schemaFirst
  have hload' := load_layout Platform.epoch_faithful 1000 htext
  have hsome : (oneTable [.schema keySchema, .records fiveRecords, .entry noteEntry]).run
      .epoch 1000 ≠ none := by decide
  obtain ⟨s, hs⟩ := Option.ne_none_iff_exists'.mp hsome
  obtain ⟨s', hs', heq⟩ := h .epoch 1000 _ _ _ _ Platform.epoch_faithful isText_schemaFirst htext
    (.cons hrearranged .nil) s (hload.trans (congrArg some hs))
  have hcounts := congrArg (List.map fun c => c.2.2.length) heq
  rw [List.map_map, List.map_map] at hcounts
  -- one record against none
  have hone : ((oneTable [.schema keySchema, .records fiveRecords, .entry noteEntry]).run .epoch
      1000).map (fun s => s.db.tables.map fun t => t.records.length) = some [1] := by decide
  have hnone : ((oneTable [.records fiveRecords, .schema keySchema, .entry noteEntry]).run .epoch
      1000).map (fun s => s.db.tables.map fun t => t.records.length) = some [0] := by decide
  rw [hs] at hone
  rw [Option.some.inj (hload'.symm.trans hs')] at hnone
  have hdiff : [0] ≠ [1] := by decide
  exact hdiff ((Option.some.inj hnone).symm.trans (hcounts.trans (Option.some.inj hone)))

end Luminix
