import Luminix.Equiv.Import
import Luminix.Equiv.SingleRecord

/-!
# What a load keeps

The loader and `json_to_table` change a store by adding tables and by inserting records under ids
that they have read.  What both of these keep (`LoadClosed`) is kept by every load that returns a
database, whatever bytes the file holds, and by every import, also if it fails.

So a database that is loaded is one that calls of the interface lead to (`reachable_load`), and what
holds of reachable stores holds of it.  And the counter of `generate_record_id` stays where it is
(`globalCounter_load`), since every record that is inserted brings its id: this is true of each step,
so a load that fails does not move the counter either.
-/

namespace Luminix

open CLib Machine

variable {p : Platform} {s s' : Store} {inv : Store → Prop}

/-- What is kept by adding a table, and by inserting the values of a record that has been read. -/
structure LoadClosed (p : Platform) (inv : Store → Prop) : Prop where
  addTable : ∀ {s : Store} (name : Option CString)
    (fields : Option (List (Option CString × FieldType))), inv s →
      inv { s with db := (dbAddTable s.db name fields).2 }
  insert : ∀ {s : Store} {i : Nat} {t : Table} {id : Int} {values : List Field}, inv s →
    s.db.tables[i]? = some t → IsInt id → id ≠ -1 → values.length = t.columns.length →
      inv (s.insertInto i p.now (some (setKeyField id t.columns values))).2

/-! ### Records -/

/-- A record that has been read: an `int` for its id, and a value for each column. -/
def RecordDraft.Fits (columns : List Column) (draft : RecordDraft) : Prop :=
  IsInt draft.id ∧ draft.values.length = columns.length

theorem RecordDraft.Fits.recordMember {columns : List Column} {draft draft' : RecordDraft}
    (h : draft.Fits columns) {key : CString} {l l' : List UInt8}
    (hok : recordMember p columns key draft l = .ok (draft', l')) : draft'.Fits columns := by
  unfold Luminix.recordMember at hok
  split_ifs at hok
  · split at hok
    all_goals cases hok
    · exact ⟨isInt_intWrap _, h.2⟩
    · exact h
  · split at hok
    next m _ =>
      cases hvalues : parseMembers (recordField p columns) (m.length + 1) draft.values m with
      | error e =>
        rw [hvalues] at hok
        cases hok
      | ok r =>
        rw [hvalues] at hok
        cases hok
        refine ⟨h.1, parseMembers_invariant (fun values : List Field =>
          values.length = columns.length) (fun key values l values' l' hlen hfield => ?_) h.2 hvalues⟩
        rw [recordField_eq] at hfield
        cases hfield
        rw [length_loadedField, hlen]
    · cases hok
  · cases hskip : skipValue l with
    | error e =>
      rw [hskip] at hok
      cases hok
    | ok m =>
      rw [hskip] at hok
      cases hok
      exact h

/-- The table at place `i` is there and has these columns. -/
def Store.HasColumns (s : Store) (i : Nat) (columns : List Column) : Prop :=
  ∃ t, s.db.tables[i]? = some t ∧ t.columns = columns

theorem Store.HasColumns.insertInto {i : Nat} {columns : List Column} (h : s.HasColumns i columns)
    (now : Int) (values : Option (List Field)) :
    (s.insertInto i now values).2.HasColumns i columns := by
  obtain ⟨t, ht, rfl⟩ := h
  have hlt := (List.getElem?_eq_some_iff.mp ht).1
  rw [insertInto_eq ht]
  refine ⟨_, List.getElem?_set_self hlt, ?_⟩
  exact columns_step t (.insert s.globalCounter now values)

theorem afterOuterTable_store {after : AfterTable} {l l' : List UInt8}
    (hok : afterOuterTable s l = .ok (after, s', l')) : s' = s := by
  unfold afterOuterTable at hok
  split at hok
  all_goals cases hok; try rfl

namespace LoadClosed

variable (hc : LoadClosed p inv)

include hc

theorem insertDraftKept {i : Nat} {columns : List Column} {draft : RecordDraft}
    (hdraft : draft.Fits columns) (h : inv s ∧ s.HasColumns i columns) :
    inv (insertDraftKept p i columns draft s).1 ∧
      (insertDraftKept p i columns draft s).1.HasColumns i columns := by
  unfold Luminix.insertDraftKept
  split_ifs with hne
  · exact h
  · obtain ⟨hinv, t, ht, rfl⟩ := h
    have hinsert := hc.insert hinv ht hdraft.1 hne hdraft.2
    have hcolumns := Store.HasColumns.insertInto ⟨t, ht, rfl⟩ p.now
      (some (setKeyField draft.id t.columns draft.values))
    split
    all_goals
      next heq =>
        rw [heq] at hinsert hcolumns
        exact ⟨hinsert, hcolumns⟩

theorem tableRecordsKept (h : inv s) (i : Nat) (l : List UInt8) :
    inv (jsonParseTableRecordsKept p i s l).1 := by
  unfold jsonParseTableRecordsKept
  split
  · exact h
  next t ht =>
    split
    next m _ =>
      refine (parseElementsKept_invariant (fun s' => inv s' ∧ s'.HasColumns i t.columns)
        (fun s' l' hs' => ?_) (m.length + 1) ⟨h, t, ht, rfl⟩ m).1
      unfold recordElementKept
      split
      · exact hs'
      next draft r hok =>
        have hfits := parseMembers_invariant (RecordDraft.Fits t.columns)
          (fun _ _ _ _ _ hfits hmember => hfits.recordMember hmember)
          ⟨(by decide : IsInt (-1)), List.length_map _⟩ hok
        exact hc.insertDraftKept hfits hs'
    · exact h

theorem tableRecords (h : inv s) {i : Nat} {l l' : List UInt8}
    (hok : jsonParseTableRecords p i s l = .ok (s', l')) : inv s' := by
  have hkept := hc.tableRecordsKept h i l
  rw [jsonParseTableRecords_eq, dropFailed_eq_ok] at hok
  rwa [hok] at hkept

/-! ### Schemas -/

/-- A schema adds a table, or nothing. -/
theorem tableSchemaKept (h : inv s) (l : List UInt8) :
    inv { s with db := (jsonParseTableSchemaKept s.db l).1 } := by
  unfold jsonParseTableSchemaKept
  split
  · exact h
  next draft m _ =>
    split_ifs
    · have hadd := hc.addTable (some draft.name) (some draft.fields) h
      split
      all_goals
        next heq =>
          rw [heq] at hadd
          exact hadd
    · exact h

theorem tableSchema (h : inv s) {db : Database} {l l' : List UInt8}
    (hok : jsonParseTableSchema s.db l = .ok (db, l')) : inv { s with db } := by
  have hkept := hc.tableSchemaKept h l
  rw [jsonParseTableSchema_eq, dropFailed_eq_ok] at hok
  rwa [hok] at hkept

/-! ### Tables -/

theorem siblingMember (h : inv s) {i : Nat} {key : CString}
    {l l' : List UInt8} (hok : Luminix.siblingMember p i key s l = .ok (s', l')) : inv s' := by
  unfold Luminix.siblingMember at hok
  split_ifs at hok
  · exact hc.tableRecords h hok
  · cases hskip : skipValueChecked l with
    | error e =>
      rw [hskip] at hok
      cases hok
    | ok m =>
      rw [hskip] at hok
      cases hok
      exact h

theorem siblingLoop (h : inv s) {i fuel : Nat} {l l' : List UInt8}
    (hok : Luminix.siblingLoop p i fuel s l = .ok (s', l')) : inv s' := by
  induction fuel generalizing s l with
  | zero => cases hok
  | succ fuel ih =>
    rw [Luminix.siblingLoop] at hok
    split at hok
    · cases hok
      exact h
    · split at hok
      · split at hok
        · split at hok
          next heq => exact ih (hc.siblingMember h heq) hok
          · cases hok
        · cases hok
      · cases hok
    · cases hok

theorem parseTable (h : inv s) {after : AfterTable} {l l' : List UInt8}
    (hok : Luminix.parseTable p s l = .ok (after, s', l')) : inv s' := by
  unfold Luminix.parseTable at hok
  split at hok
  · cases hok
  next db m hschema =>
    have hdb := hc.tableSchema h hschema
    dsimp only at hok
    split at hok
    · cases hok
      exact hdb
    · rwa [afterOuterTable_store hok]
    · split at hok
      · cases hok
        exact hdb
      · cases hok
        exact hdb
      · split at hok
        · split at hok
          · cases hok
          next hmember =>
            have hmember' := hc.siblingMember hdb hmember
            split at hok
            · cases hok
            next hloop =>
              rw [afterOuterTable_store hok]
              exact hc.siblingLoop hmember' hloop
        · cases hok
      · cases hok
    · cases hok

theorem tablesLoop (h : inv s) {fuel : Nat} {started : Bool}
    {l l' : List UInt8} (hok : Luminix.tablesLoop p fuel started s l = .ok (s', l')) :
    inv s' := by
  induction fuel generalizing s started l with
  | zero => cases hok
  | succ fuel ih =>
    rw [Luminix.tablesLoop] at hok
    dsimp only at hok
    split_ifs at hok
    · split at hok
      · cases hok
      next heq =>
        cases hok
        exact hc.parseTable h heq
      next heq => exact ih (hc.parseTable h heq) hok
      next heq => exact ih (hc.parseTable h heq) hok
    · split at hok
      · cases hok
        exact h
      · split at hok
        · cases hok
        next heq =>
          cases hok
          exact hc.parseTable h heq
        next heq => exact ih (hc.parseTable h heq) hok
        next heq => exact ih (hc.parseTable h heq) hok
      · cases hok

theorem topMember (h : inv s) {key : CString} {l l' : List UInt8}
    (hok : Luminix.topMember p key s l = .ok (s', l')) : inv s' := by
  have hskip : ∀ r : Except Failure (List UInt8), r.map (fun l => (s, l)) = .ok (s', l') →
      inv s' := by
    rintro (e | m) hr
    · cases hr
    · cases hr
      exact h
  unfold Luminix.topMember at hok
  split_ifs at hok
  · exact hskip _ hok
  · split at hok
    · exact hc.tablesLoop h hok
    · cases hok
  · exact hskip _ hok

/-! ### Whole texts -/

theorem load {counter : Int} (h : inv ⟨dbCreate, counter⟩) {file : Option (List UInt8)}
    (hload : dbLoadFromFile p counter file = some (some s)) : inv s := by
  cases file with
  | none => cases hload
  | some content =>
    obtain ⟨l, r, -, hok⟩ := loadContent_eq_ok (loadContent_of_load hload).2
    exact parseMembers_invariant inv (fun _ _ _ _ _ hs hok => hc.topMember hs hok) h hok

/-- An import keeps it also if it fails. -/
theorem jsonToTable (h : inv s) (text : Option CString) : inv (jsonToTable p s text).2 := by
  unfold Luminix.jsonToTable
  split
  · exact h
  next text =>
    have hschema := hc.tableSchemaKept h text.bytes
    split
    next heq =>
      rw [heq] at hschema
      exact hschema
    next db m heq =>
      rw [heq] at hschema
      unfold importRecords
      split
      · split
        · split_ifs
          · split
            next n _ =>
              have hrecords := hc.tableRecordsKept hschema (db.tableCount - 1) n
              split
              all_goals
                next hkept =>
                  rw [hkept] at hrecords
                  exact hrecords
            · exact hschema
          · exact hschema
        · exact hschema
      · exact hschema

end LoadClosed

/-! ### Reachable stores -/

theorem loadClosed_reachable : LoadClosed p Store.Reachable where
  addTable name fields h :=
    have hnext : Store.Reachable (Store.step _ (.addTable name fields)) := Reach.next h trivial
    hnext
  insert h _ _ _ _ :=
    have hnext : Store.Reachable (Store.step _ (.tableInsert _ p.now _)) := Reach.next h trivial
    hnext

/-- An empty database in a process whose counter has moved on. -/
theorem reachable_dbCreate {counter : Int} (h : IsInt counter) :
    Store.Reachable ⟨dbCreate, counter⟩ := by
  have hnext : Store.Reachable (Store.step ⟨dbCreate, 1000⟩ (.moveCounter counter)) :=
    Reach.next (.start rfl) trivial
  rwa [Store.step, intWrap_eq_self h] at hnext

/-- **Whatever is loaded is reachable**, from any bytes. -/
theorem reachable_load {counter : Int} (hcounter : IsInt counter) {file : Option (List UInt8)}
    (h : dbLoadFromFile p counter file = some (some s)) : s.Reachable :=
  loadClosed_reachable.load (reachable_dbCreate hcounter) h

/-- An import changes a store as calls do, also if it fails. -/
theorem Store.Reachable.jsonToTable (h : s.Reachable) (text : Option CString) :
    (jsonToTable p s text).2.Reachable := loadClosed_reachable.jsonToTable h text

/-! ### The counter -/

/-- The counter has this value, and every table has columns like those of a new one. -/
def Store.CountsFrom (counter : Int) (s : Store) : Prop :=
  s.globalCounter = counter ∧ ∀ t ∈ s.db.tables, IsNewColumns t.columns

theorem loadClosed_countsFrom (counter : Int) : LoadClosed p (Store.CountsFrom counter) where
  addTable := by
    intro s name fields h
    refine ⟨h.1, fun t ht => ?_⟩
    rcases dbAddTable_cases s.db name fields with
      ⟨-, htables⟩ | ⟨n, l, named, hpos, hle, -, -, -, -, -, htables⟩
    · exact h.2 t (htables ▸ ht)
    · change t ∈ (dbAddTable s.db name fields).2.tables at ht
      rw [htables, List.mem_append, List.mem_singleton] at ht
      rcases ht with ht | rfl
      · exact h.2 t ht
      · obtain ⟨x, rest, rfl⟩ := List.exists_cons_of_ne_nil (List.ne_nil_of_length_pos hpos)
        exact ⟨x, rest, rfl⟩
  insert := by
    intro s i t id values h ht hint hne hlen
    have hcols := h.2 t (List.mem_of_getElem? ht)
    refine ⟨(globalCounter_insertInto ht hcols hint hne hlen p.now).trans h.1, ?_⟩
    rw [insertInto_eq ht]
    intro t' ht'
    rcases List.mem_or_eq_of_mem_set ht' with ht' | rfl
    · exact h.2 t' ht'
    · have hsame := columns_step t
        (.insert s.globalCounter p.now (some (setKeyField id t.columns values)))
      rw [Table.step] at hsame
      rwa [hsame]

/-- **A load leaves the counter where it is.** -/
theorem globalCounter_load {counter : Int} {file : Option (List UInt8)}
    (h : dbLoadFromFile p counter file = some (some s)) : s.globalCounter = counter :=
  ((loadClosed_countsFrom counter).load ⟨rfl, fun _ ht => absurd ht List.not_mem_nil⟩ h).1

end Luminix
