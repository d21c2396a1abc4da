import Luminix.Equiv.Load

/-!
# Opening a saved database again

A database that calls lead to can be loaded from the file it was saved to exactly if it is
`Reloadable` and its times can be written.  Nothing that creates tables or enters records checks
this: names may be empty, a column name with a quote in it is written as it is in front of every
value, and a time may be any number.
-/

namespace Luminix

open CLib Machine

/-- A table that calls lead to has room for its records in a new one. -/
theorem Store.Reachable.room {s : Store} (hs : s.Reachable) :
    ∀ t ∈ s.db.tables, (t.records.length : Int) ≤ maxRecordsPerTable := by
  intro t ht
  obtain ⟨i, hi⟩ := List.mem_iff_getElem?.mp ht
  have hinv := (hs.table hi).inv
  rw [← hinv.count_eq]
  exact hinv.count_le

/-- If the records can be read, it is known how every column name is read. -/
theorem Database.Reloadable.hasKeys {db : Database} (h : db.Reloadable) : db.HasKeys := by
  intro t ht hne c hc
  obtain ⟨r, hr⟩ := List.exists_mem_of_ne_nil _ hne
  have hmem : ∀ {cs : List Column} (fs : List Field), c ∈ cs →
      ∃ x ∈ fieldPairs cs fs, x.1 = c := by
    intro cs
    induction cs with
    | nil => exact fun _ hc => absurd hc List.not_mem_nil
    | cons d cs ih =>
      intro fs hc
      rcases List.mem_cons.mp hc with rfl | hc
      · exact ⟨_, List.mem_cons_self, rfl⟩
      · obtain ⟨x, hx, hxc⟩ := ih fs.tail hc
        exact ⟨x, List.mem_cons_of_mem _ hx, hxc⟩
  obtain ⟨x, hx, rfl⟩ := hmem r.fields hc
  exact .inl (h.readable t ht r hr x hx).1

/-- What a load of the saved database comes to. -/
theorem opens_iff {p : Platform} (hp : p.Faithful) {s : Store} (hs : s.Reachable)
    (hkeys : s.db.HasKeys) (counter : Int) :
    (∃ s', dbLoadFromFile p counter (dbSaveToFile p s.db).2 = some (some s')) ↔
      s.db.Reloadable ∧ s.db.TimesConvert p := by
  constructor
  · rintro ⟨s', hs'⟩
    have htimes := timesConvert_of_load_save hs'
    refine ⟨?_, htimes⟩
    by_contra hnot
    rw [load_save hp counter hkeys htimes, reload_eq_none hs.room hnot] at hs'
    cases hs'
  · rintro ⟨h, htimes⟩
    obtain ⟨s', hs', -⟩ := reload_eq hs.room h
    exact ⟨s', (load_save hp counter hkeys htimes).trans (congrArg some hs')⟩

/-- **When a saved database can be opened again**: always if it is `Reloadable` and its times can be
written, and only then as long as it is known how its column names are read as keys. -/
theorem reopens_iff {p : Platform} (hp : p.Faithful) {s : Store} (hs : s.Reachable) (counter : Int) :
    (s.db.Reloadable → s.db.TimesConvert p →
      ∃ s', dbLoadFromFile p counter (dbSaveToFile p s.db).2 = some (some s')) ∧
    (s.db.HasKeys →
      (∃ s', dbLoadFromFile p counter (dbSaveToFile p s.db).2 = some (some s')) →
        s.db.Reloadable ∧ s.db.TimesConvert p) :=
  ⟨fun h htimes => (opens_iff hp hs h.hasKeys counter).mpr ⟨h, htimes⟩,
    fun hkeys => (opens_iff hp hs hkeys counter).mp⟩

/-- A table with a column of this name, and one record. -/
def namedColumnStore (name : CString) : Store :=
  run Store.step ⟨dbCreate, 1000⟩
    [.addTable (some (cstr "t")) (some [(some name, .int)]), .tableInsert 0 0 (some [.ofInt 1])]

theorem namedColumnStore_reachable (name : CString) : (namedColumnStore name).Reachable := by
  have hinit : Store.Init ⟨dbCreate, 1000⟩ := rfl
  exact Reach.run (.start hinit) (Admits.of_forall (fun _ _ => trivial) _ _)

theorem reopens_iff_plain : ∃ s', dbLoadFromFile .epoch 1000
    (dbSaveToFile .epoch (namedColumnStore (cstr "id")).db).2 = some (some s') := by
  have hreload : (namedColumnStore (cstr "id")).db.Reloadable := by decide
  exact (reopens_iff Platform.epoch_faithful (namedColumnStore_reachable _) 1000).1 hreload (by decide)

/-- Every column is of type `INT`, `BOOL` or `STRING`. -/
def Database.BasicColumns (db : Database) : Prop :=
  ∀ t ∈ db.tables, ∀ c ∈ t.columns, c.type = .int ∨ c.type = .bool ∨ c.type = .string

instance (db : Database) : Decidable db.BasicColumns :=
  inferInstanceAs (Decidable (∀ t ∈ db.tables, ∀ c ∈ t.columns, _))

/-- A quote in a column name ends the key early. -/
theorem reopens_refused :
    ¬∀ s : Store, s.Reachable → s.db.BasicColumns → ∀ p : Platform, p.Faithful → ∀ counter,
      ∃ s', dbLoadFromFile p counter (dbSaveToFile p s.db).2 = some (some s') := by
  intro h
  have hreach := namedColumnStore_reachable (cstr "a\"b")
  have hload := h _ hreach (by decide) _ Platform.epoch_faithful 1000
  have hnot : ¬(namedColumnStore (cstr "a\"b")).db.Reloadable := by decide
  exact hnot ((opens_iff Platform.epoch_faithful hreach (by decide) 1000).mp hload).1

end Luminix
