import Luminix.Equiv.Document
import Luminix.Equiv.TableCalls
import Luminix.Json.Import

/-!
# What a failed import leaves behind

`json_to_table` adds the table as soon as its schema has been read, and takes nothing back.  A call
that fails leaves the database alone only if it fails in the schema (`failed_import_unchanged_iff`).
-/

namespace Luminix

open CLib

variable (p : Platform)

/-! ### The schema -/

/-- The schema is read to its end, and its table added, exactly if the text starts with one that is
admitted. -/
theorem schemaKept_ok_iff {db db' : Database} {l l' : List UInt8} :
    jsonParseTableSchemaKept db l = (db', .ok l') ↔
      ∃ ts, TableSchemaText db ts db' ∧ Spans ts l l' := by
  rw [← dropFailed_eq_ok, ← jsonParseTableSchema_eq]
  exact decides_tableSchema db l db' l'

/-- A schema that is not read to its end adds no table. -/
theorem schemaKept_error {db db' : Database} {l : List UInt8} {e : Failure}
    (h : jsonParseTableSchemaKept db l = (db', .error e)) : db'.tables = db.tables := by
  unfold jsonParseTableSchemaKept at h
  split at h
  · cases h
    rfl
  next draft m hloop =>
    split_ifs at h
    · split at h
      · cases h
      next e' db₁ hne hadd =>
        cases h
        rcases dbAddTable_cases db (some draft.name) (some draft.fields) with
          ⟨-, htables⟩ | ⟨-, -, -, -, -, -, -, -, -, hok, -⟩
        · rwa [hadd] at htables
        · rw [hadd] at hok
          exact absurd hok hne
    · cases h
      rfl

/-- A schema that is read to its end adds one. -/
theorem TableSchemaText.length {db db' : Database} {ts : List JsonToken}
    (h : TableSchemaText db ts db') : db'.tables.length = db.tables.length + 1 := by
  obtain ⟨us, draft, -, -, -, hadd⟩ := h
  rcases dbAddTable_cases db (some draft.name) (some draft.fields) with
    ⟨hne, -⟩ | ⟨n, fs, named, hpos, hle, -, -, -, -, -, htables⟩
  · rw [hadd] at hne
    exact absurd rfl hne
  · rw [hadd] at htables
    rw [htables, List.length_append]
    rfl

/-! ### The records -/

/-- What is kept by every element is kept by the loop, also if it fails. -/
theorem parseElementsKept_invariant {σ : Type}
    {element : σ → List UInt8 → σ × Except Failure (List UInt8)} (inv : σ → Prop)
    (helement : ∀ s l, inv s → inv (element s l).1) (fuel : Nat) {s : σ} (h : inv s)
    (l : List UInt8) : inv (parseElementsKept element fuel s l).1 := by
  induction fuel generalizing s l with
  | zero => exact h
  | succ fuel ih =>
    rw [parseElementsKept]
    split
    · exact h
    next m _ =>
      have hkept := helement s m h
      split
      next s' l' heq =>
        rw [heq] at hkept
        split
        · exact ih hkept _
        · exact hkept
        · exact hkept
      next s' e heq =>
        rw [heq] at hkept
        exact hkept
    · exact h

/-- An insertion changes the table in place. -/
theorem length_insertInto (s : Store) (i : Nat) (now : Int) (values : Option (List Field)) :
    (s.insertInto i now values).2.db.tables.length = s.db.tables.length := by
  unfold Store.insertInto
  split
  · rfl
  · exact List.length_set

theorem length_insertDraftKept (i : Nat) (columns : List Column) (draft : RecordDraft) (s : Store) :
    (insertDraftKept p i columns draft s).1.db.tables.length = s.db.tables.length := by
  have hlength := length_insertInto s i p.now (some (setKeyField draft.id columns draft.values))
  unfold insertDraftKept
  split_ifs
  · rfl
  · split
    all_goals
      next heq =>
        rw [heq] at hlength
        exact hlength

theorem length_tableRecordsKept (i : Nat) (s : Store) (l : List UInt8) :
    (jsonParseTableRecordsKept p i s l).1.db.tables.length = s.db.tables.length := by
  unfold jsonParseTableRecordsKept
  split
  · rfl
  next t _ =>
    split
    next m _ =>
      refine parseElementsKept_invariant (fun s' : Store => s'.db.tables.length = s.db.tables.length)
        (fun s' l' hs' => ?_) (m.length + 1) rfl m
      unfold recordElementKept
      split
      · exact hs'
      · exact (length_insertDraftKept p i t.columns _ s').trans hs'
    · rfl

/-- An array of records is loaded to its end exactly if it is one that is admitted. -/
theorem recordsKept_ok_iff {i : Nat} {s s' : Store} {l l' : List UInt8} :
    jsonParseTableRecordsKept p i s l = (s', .ok l') ↔
      ∃ us, RecordsText p i s us s' ∧ Spans us l l' := by
  rw [← dropFailed_eq_ok, ← jsonParseTableRecords_eq]
  exact decides_tableRecords p i s l s' l'

theorem length_importRecords (i : Nat) (s : Store) (l : List UInt8) :
    (importRecords p i s l).2.db.tables.length = s.db.tables.length := by
  unfold importRecords
  split
  · split
    · split_ifs
      · split
        next m _ =>
          have hlength := length_tableRecordsKept p i s m
          split
          all_goals
            next heq =>
              rw [heq] at hlength
              exact hlength
        · rfl
      · rfl
    · rfl
  · rfl

/-- A colon and an array of records that is loaded to its end. -/
def RecordsFollow (i : Nat) (s : Store) (l : List UInt8) : Prop :=
  ∃ us s' l', RecordsText p i s us s' ∧ Spans (.colon :: us) l l'

/-- What is done behind the key `records`. -/
def importArray (i : Nat) (s : Store) (l : List UInt8) : Option Nat × Store :=
  match jsonParseToken l with
  | (.colon, l) =>
    match jsonParseTableRecordsKept p i s l with
    | (s, .ok _) => (some i, s)
    | (s, .error _) => (none, s)
  | _ => (none, s)

theorem importArray_null_iff (i : Nat) (s : Store) (l : List UInt8) :
    (importArray p i s l).1 = none ↔ ¬RecordsFollow p i s l := by
  unfold importArray
  obtain ⟨c, r, hc⟩ : ∃ c r, jsonParseToken l = (c, r) := ⟨_, _, rfl⟩
  rw [RecordsFollow, hc]
  cases c
  case colon =>
    dsimp only
    split
    next s' l' hok =>
      obtain ⟨us, hus, hspan⟩ := (recordsKept_ok_iff p).mp hok
      exact iff_of_false (by simp) (not_not_intro ⟨us, s', l', hus, r, hc, hspan⟩)
    next s' e herror =>
      refine iff_of_true rfl ?_
      rintro ⟨us, s₁, l₁, hus, r', hr', hspan⟩
      rw [hc] at hr'
      cases hr'
      rw [(recordsKept_ok_iff p).mpr ⟨us, hus, hspan⟩] at herror
      cases herror
  all_goals
    refine iff_of_true rfl ?_
    rintro ⟨us, s₁, l₁, hus, r', hr', hspan⟩
    rw [hc] at hr'
    cases hr'

/-- **When the records are imported.** -/
theorem importRecords_null_iff (i : Nat) (s : Store) (l : List UInt8) :
    (importRecords p i s l).1 = none ↔
      ∃ l', Spans [.comma, .string (cstr "records")] l l' ∧ ¬RecordsFollow p i s l' := by
  obtain ⟨t, m, ht⟩ : ∃ t m, jsonParseToken l = (t, m) := ⟨_, _, rfl⟩
  obtain ⟨u, n, hu⟩ : ∃ u n, jsonParseToken m = (u, n) := ⟨_, _, rfl⟩
  have hspan (l' : List UInt8) : Spans [.comma, .string (cstr "records")] l l' ↔
      t = .comma ∧ u = .string (cstr "records") ∧ n = l' := by
    simp only [spans_cons, ht, spans_nil, Prod.mk.injEq]
    constructor
    · rintro ⟨_, ⟨rfl, rfl⟩, _, hm, rfl⟩
      rw [hu] at hm
      cases hm
      exact ⟨rfl, rfl, rfl⟩
    · rintro ⟨rfl, rfl, rfl⟩
      exact ⟨m, ⟨rfl, rfl⟩, n, hu, rfl⟩
  simp only [hspan]
  by_cases hkey : t = .comma ∧ u = .string (cstr "records")
  · obtain ⟨rfl, rfl⟩ := hkey
    have hrecords : importRecords p i s l = importArray p i s n := by
      rw [importRecords, ht]
      dsimp only
      rw [hu]
      exact if_pos rfl
    rw [hrecords, importArray_null_iff]
    constructor
    · exact fun h => ⟨n, ⟨rfl, rfl, rfl⟩, h⟩
    · rintro ⟨l', ⟨-, -, rfl⟩, h⟩
      exact h
  · have hnone : (importRecords p i s l).1 = some i := by
      rw [importRecords, ht]
      cases t
      case comma =>
        dsimp only
        rw [hu]
        cases u
        case string key =>
          have hne : key ≠ cstr "records" := fun h => hkey ⟨rfl, congrArg _ h⟩
          exact congrArg Prod.fst (if_neg hne)
        all_goals rfl
      all_goals rfl
    rw [hnone]
    constructor
    · intro h
      cases h
    · rintro ⟨l', ⟨h, h', -⟩, -⟩
      exact absurd ⟨h, h'⟩ hkey

/-! ### The import -/

/-- If the text starts with a schema that is admitted, and a comma and the key `records` follow it,
then a colon and an array of records that is loaded to its end follow, too. -/
def RecordsLoad (s : Store) (l : List UInt8) : Prop :=
  ∀ ts db m m', TableSchemaText s.db ts db → Spans ts l m →
    Spans [.comma, .string (cstr "records")] m m' →
      RecordsFollow p (db.tableCount - 1) { s with db } m'

/-- **When a failed import leaves the database alone.** -/
theorem failed_import_unchanged_iff (s : Store) (text : CString) :
    ((jsonToTable p s (some text)).1 = none →
        (jsonToTable p s (some text)).2.db.tables = s.db.tables) ↔
      RecordsLoad p s text.bytes := by
  obtain ⟨db, r, hschema⟩ : ∃ db r, jsonParseTableSchemaKept s.db text.bytes = (db, r) :=
    ⟨_, _, rfl⟩
  rw [jsonToTable, hschema]
  cases r with
  | error e =>
    -- no schema is admitted, and no table is added
    refine iff_of_true (fun _ => schemaKept_error hschema) fun ts db' m m' hts hspan _ => ?_
    have hok := schemaKept_ok_iff.mpr ⟨ts, hts, hspan⟩
    rw [hschema] at hok
    cases hok
  | ok m =>
    obtain ⟨ts, hts, hspan⟩ := schemaKept_ok_iff.mp hschema
    dsimp only
    have hlength := length_importRecords p (db.tableCount - 1) { s with db } m
    have hchanged : (importRecords p (db.tableCount - 1) { s with db } m).2.db.tables ≠
        s.db.tables := by
      intro h
      rw [h] at hlength
      have hadded := hts.length
      dsimp only at hlength
      omega
    have himports : ((importRecords p (db.tableCount - 1) { s with db } m).1 = none →
        (importRecords p (db.tableCount - 1) { s with db } m).2.db.tables = s.db.tables) ↔
        ¬(importRecords p (db.tableCount - 1) { s with db } m).1 = none :=
      ⟨fun h hnone => hchanged (h hnone), fun h hnone => absurd hnone h⟩
    rw [himports, importRecords_null_iff]
    constructor
    · intro h ts' db' n n' hts' hspan' hkey
      -- the reader is a function, so the schema is the one that was read
      have hok := schemaKept_ok_iff.mpr ⟨ts', hts', hspan'⟩
      rw [hschema] at hok
      cases hok
      by_contra hfollow
      exact h ⟨n', hkey, hfollow⟩
    · rintro h ⟨m', hkey, hfollow⟩
      exact hfollow (h ts db m m' hts hspan hkey)

/-- A table whose records are a number. -/
def numberForRecords : CString :=
  cstr "\x7b\"schema\": \x7b\"name\": \"t\", \"fields\": [\x7b\"name\": \"id\"\x7d]\x7d, \"records\": 5\x7d"

/-- The import fails, and the table stays. -/
theorem table_left_behind : (jsonToTable .epoch ⟨dbCreate, 1000⟩ (some numberForRecords)).1 = none ∧
    (jsonToTable .epoch ⟨dbCreate, 1000⟩ (some numberForRecords)).2.db.tables.map Table.name =
      [cstr "t"] ∧
    (jsonToTable .epoch ⟨dbCreate, 1000⟩ (some numberForRecords)).2.db.tables ≠
      dbCreate.tables := by
  have hnames : (jsonToTable .epoch ⟨dbCreate, 1000⟩
      (some numberForRecords)).2.db.tables.map Table.name = [cstr "t"] := by decide
  refine ⟨by decide, hnames, fun h => ?_⟩
  rw [h] at hnames
  cases hnames

end Luminix
