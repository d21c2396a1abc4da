import Luminix.Equiv.Cycles
import Luminix.Export

/-!
# Databases that are copied from file to file

`export_to_json` and `import_from_json` load one file and save what they have loaded to another one.
`Copies` says which files hold a database, and what its tables look like; a call copies it with the
rows reversed, and whatever calls are made, the files are as `Copies` has them
(`transfers_refine`).
-/

namespace Luminix

open CLib Machine

/-! ### The calls -/

/-- A call, and the environment it is made in. -/
inductive TransferCall
  | exportToJson (p : Platform) (dbPath exportPath : CString)
  | importFromJson (p : Platform) (jsonPath dbPath : CString)

namespace TransferCall

def platform : TransferCall → Platform
  | exportToJson p _ _ | importFromJson p _ _ => p

def source : TransferCall → CString
  | exportToJson _ path _ | importFromJson _ path _ => path

def dest : TransferCall → CString
  | exportToJson _ _ path | importFromJson _ _ path => path

/-- The counter of `generate_record_id` and the files after a call. -/
def step (s : Int × Files) (t : TransferCall) : Int × Files :=
  match t with
  | exportToJson p dbPath exportPath =>
    let r := Luminix.exportToJson p s.1 s.2 dbPath exportPath
    (r.2.2, r.2.1)
  | importFromJson p jsonPath dbPath =>
    let r := Luminix.importFromJson p s.1 s.2 jsonPath dbPath
    (r.2.2, r.2.1)

theorem step_eq (s : Int × Files) (t : TransferCall) : t.step s =
    ((transferJson t.platform ⟨false, false⟩ s.1 s.2 t.source t.dest).2.2,
      (transferJson t.platform ⟨false, false⟩ s.1 s.2 t.source t.dest).2.1) := by
  cases t <;> rfl

end TransferCall

/-! ### The copies -/

/-- The files that hold a database, by what its tables look like. -/
abbrev Copies := CString → Option (List TableView)

/-- A call puts a copy of its source in the place of its destination. -/
def Copies.step (c : Copies) (t : TransferCall) : Copies :=
  Function.update c t.dest ((c t.source).map (·.map TableView.reversed))

/-- The files hold clean databases where it is said so. -/
def Copies.Holds (c : Copies) (s : Int × Files) : Prop :=
  ∀ path views, c path = some views → ∃ p db, Platform.Faithful p ∧ db.Clean ∧
    s.2 path = (dbSaveToFile p db).2 ∧ db.views = views

/-- No other file than the destination is touched. -/
theorem transferJson_files_of_ne {p : Platform} {options : JsonSaveOptions} {counter : Int}
    {files : Files} {source dest path : CString} (hne : path ≠ dest) :
    (transferJson p options counter files source dest).2.1 path = files path := by
  unfold transferJson
  split
  · exact Function.update_of_ne hne _ _
  · rfl

/-- What is loaded from a file that holds a clean database is what the destination holds then. -/
theorem transferJson_clean {p q : Platform} (hp : p.Faithful) (hq : q.Faithful) {db : Database}
    (hdb : db.Clean) (options : JsonSaveOptions) (counter : Int) {files : Files}
    {source : CString} (hfile : files source = (dbSaveToFile p db).2) (dest : CString) :
    ∃ db', db'.Clean ∧ db'.views = db.views.map TableView.reversed ∧
      (transferJson q options counter files source dest).1 = 0 ∧
      (transferJson q options counter files source dest).2.1 dest = (dbSaveToFile q db').2 := by
  obtain ⟨loaded, hload, hclean, hviews, -⟩ := load_clean_later hp hq hdb counter
  obtain ⟨text, hsave, -⟩ := dbSaveToFile_reads hq hclean.plainNames.hasKeys hclean.timesConvert
  refine ⟨loaded.db, hclean, hviews, ?_, ?_⟩
  · rw [transferJson, hfile, hload]
    dsimp only [saveOver]
    rw [hsave]
    rfl
  · rw [transferJson, hfile, hload]
    dsimp only [saveOver]
    rw [Function.update_self, hsave]
    rfl

/-- **One call** copies a database, if its source holds one. -/
theorem Copies.Holds.step {c : Copies} {s : Int × Files} (h : c.Holds s) {t : TransferCall}
    (ht : t.platform.Faithful) : (c.step t).Holds (t.step s) := by
  intro path views hviews
  rw [TransferCall.step_eq]
  -- the destination holds the copy of the source; the other files keep theirs
  by_cases hpath : path = t.dest
  · subst hpath
    have hmark : (c t.source).map (·.map TableView.reversed) = some views := by
      rwa [Copies.step, Function.update_self] at hviews
    obtain ⟨v, hv, rfl⟩ := Option.map_eq_some_iff.mp hmark
    obtain ⟨p, db, hp, hdb, hfile, rfl⟩ := h t.source v hv
    obtain ⟨db', hdb', hviews', -, hfile'⟩ :=
      transferJson_clean hp ht hdb ⟨false, false⟩ s.1 hfile t.dest
    exact ⟨t.platform, db', ht, hdb', hfile', hviews'⟩
  · have hmark : c path = some views := by
      rwa [Copies.step, Function.update_of_ne hpath] at hviews
    obtain ⟨p, db, hp, hdb, hfile, hviews'⟩ := h path views hmark
    exact ⟨p, db, hp, hdb, (transferJson_files_of_ne hpath).trans hfile, hviews'⟩

/-- One file that holds a clean database. -/
theorem holds_single {p : Platform} (hp : p.Faithful) {db : Database} (hdb : db.Clean)
    {counter : Int} {files : Files} {path : CString} (hfile : files path = (dbSaveToFile p db).2) :
    Copies.Holds (Function.update (fun _ => none) path (some db.views)) (counter, files) := by
  intro path' views hviews
  by_cases heq : path' = path
  · subst heq
    rw [Function.update_self] at hviews
    exact ⟨p, db, hp, hdb, hfile, Option.some.inj hviews⟩
  · rw [Function.update_of_ne heq] at hviews
    cases hviews

/-- **Whatever is copied from file to file**, each file that holds a copy by then comes back with
the tables that it has been given, the rows in reverse order. -/
theorem transfers_refine {c : Copies} {s : Int × Files} (h : c.Holds s) {calls : List TransferCall}
    (hcalls : ∀ t ∈ calls, t.platform.Faithful) {path : CString} {views : List TableView}
    (hpath : run Copies.step c calls path = some views) {q : Platform} (hq : q.Faithful)
    (counter : Int) : ∃ loaded,
      dbLoadFromFile q counter ((run TransferCall.step s calls).2 path) = some (some loaded) ∧
        loaded.db.Clean ∧ loaded.db.views = views.map TableView.reversed := by
  have hstep (c : Copies) (s : Int × Files) (t : TransferCall) (h : c.Holds s)
      (ht : t.platform.Faithful) : (c.step t).Holds (t.step s) := h.step ht
  obtain ⟨p, db, hp, hdb, hfile, rfl⟩ := run_related hstep h hcalls path views hpath
  obtain ⟨loaded, hload, hclean, hviews, -⟩ := load_clean_later hp hq hdb counter
  exact ⟨loaded, hfile ▸ hload, hclean, hviews⟩

/-- The people are exported from one file and imported into another one. -/
theorem transfers_refine_people : ∃ loaded,
    dbLoadFromFile .epoch 0 ((run TransferCall.step
      (0, fun _ => (dbSaveToFile .epoch peopleStore.db).2)
      [.exportToJson .epoch (cstr "a") (cstr "b"), .importFromJson .epoch (cstr "b") (cstr "c")]).2
        (cstr "c")) = some (some loaded) ∧ loaded.db.Clean ∧
      loaded.db.views = peopleStore.db.views.map TableView.reversed := by
  have hclean : peopleStore.db.Clean := by decide
  generalize peopleStore.db = db at hclean ⊢
  -- the text of the file does not matter here, and is not computed
  generalize hfile : (dbSaveToFile .epoch db).2 = file
  have hholds := @holds_single .epoch Platform.epoch_faithful db hclean 0 (fun _ => file)
    (cstr "a") hfile.symm
  refine transfers_refine hholds ?_ ?_ Platform.epoch_faithful 0
  · intro t ht
    rcases List.mem_pair.mp ht with rfl | rfl <;> exact Platform.epoch_faithful
  · simp [Copies.step, TransferCall.source, TransferCall.dest,
      TableView.reversed_involutive.comp_self]

end Luminix
