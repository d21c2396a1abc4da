import Luminix.Equiv.Store

/-!
# Table names

`db_add_table` compares the whole name with the names that are stored, and then stores what fits
into the buffer.  With names of at most 63 bytes this keeps the names distinct and every table
findable.  A longer name is cut: it is not found again, and can be added a second time
(`table_names_iff`).
-/

namespace Luminix

open CLib Machine

/-- The arguments of a call of `db_add_table`. -/
structure AddCall where
  name : Option CString
  fields : Option (List (Option CString × FieldType))
  deriving DecidableEq

/-- A database, and the names under which tables were added to it. -/
structure AddHistory where
  db : Database
  added : List CString

/-- The result of the call. -/
def AddCall.result (c : AddCall) (db : Database) : ErrorCode × Database := dbAddTable db c.name c.fields

/-- A call, after which its name counts as added if it succeeded. -/
def AddHistory.step (s : AddHistory) (c : AddCall) : AddHistory where
  db := (c.result s.db).2
  added := if (c.result s.db).1 = .success then c.name.toList ++ s.added else s.added

/-- The columns can be those of a table. -/
def ValidFields (fields : Option (List (Option CString × FieldType))) : Prop :=
  ∀ l ∈ fields, 0 < l.length ∧ l.length ≤ maxFieldsPerTable

/-- **What a call promises**: the names stay distinct, the number of tables stays within the array
and `MAX_TABLES`, the new table is found under the name that was passed, and a name that was added
before is refused. -/
structure AddHistory.Lawful (s : AddHistory) (c : AddCall) : Prop where
  distinct : ((s.step c).db.tables.map Table.name).Nodup
  count_le_capacity : (s.step c).db.tableCount ≤ (s.step c).db.tableCapacity
  count_le_max : (s.step c).db.tableCount ≤ maxTables
  found : (c.result s.db).1 = .success → ∀ n ∈ c.name,
    dbGetTable (s.step c).db n = some s.db.tableCount
  refused : ∀ n ∈ s.added, c.name = some n → c.fields.isSome → ValidFields c.fields →
    (c.result s.db).1 = .duplicateKey

/-- The call adds a table: its arguments are not null, there are from one to 50 columns, all of
which have names, no table has the name, and there is room for one more. -/
def AddCall.Accepted (c : AddCall) (db : Database) : Prop :=
  ∃ n l, c.name = some n ∧ c.fields = some l ∧ (0 < l.length ∧ l.length ≤ maxFieldsPerTable) ∧
    (∀ t ∈ db.tables, t.name ≠ n) ∧ db.tableCount < maxTables ∧ (namedFields l).isSome

/-- The name fits into the buffer, if the call adds a table. -/
def AddHistory.ShortName (s : AddHistory) (c : AddCall) : Prop :=
  c.Accepted s.db → ∀ n ∈ c.name, n.length < maxTableName

/-! ### One call -/

theorem grownCapacity_gt {db : Database} (h : db.tableCount ≤ db.tableCapacity)
    (hfull : db.tableCount < maxTables) : db.tableCount < grownCapacity db := by
  unfold grownCapacity
  simp only [maxTables] at hfull ⊢
  split_ifs with hle hzero <;> omega

theorem le_grownCapacity {db : Database} (h : db.tableCount ≤ db.tableCapacity) :
    db.tableCount ≤ grownCapacity db := by
  have hmax : db.tableCount ≤ maxTables := db.tables_le
  unfold grownCapacity
  simp only [maxTables] at hmax ⊢
  split_ifs with hle hzero <;> omega

/-- The array has room for the tables after a call, if it had before. -/
theorem dbAddTable_capacity {db : Database} (h : db.tableCount ≤ db.tableCapacity)
    (name : Option CString) (fields : Option (List (Option CString × FieldType))) :
    (dbAddTable db name fields).2.tableCount ≤ (dbAddTable db name fields).2.tableCapacity := by
  unfold dbAddTable
  split
  · split
    · split
      · exact h
      · split
        next hfull =>
          dsimp only
          split
          -- a field without a name: the array has grown, but no table is added
          · exact le_grownCapacity h
          · have hgrown := grownCapacity_gt h hfull
            simp only [Database.tableCount, List.length_append, List.length_singleton] at hgrown ⊢
            omega
        · exact h
    · exact h
  · exact h

/-- **A call that meets the guards succeeds.** -/
theorem AddCall.Accepted.result_eq {c : AddCall} {db : Database} (h : c.Accepted db) :
    (c.result db).1 = .success := by
  obtain ⟨name, fields⟩ := c
  obtain ⟨n, l, rfl, rfl, hlen, hnew, hfull, hnamed⟩ := h
  have hdup : (db.tables.any fun t => t.name = n) = false :=
    List.any_eq_false.mpr fun t ht => by simpa using hnew t ht
  unfold AddCall.result dbAddTable
  dsimp only
  rw [dif_pos hlen, hdup, if_neg Bool.false_ne_true, dif_pos hfull]
  split
  next hnone =>
    rw [hnone] at hnamed
    cases hnamed
  · rfl

/-- **The results of a call**: refused, or one table more at the end. -/
theorem AddCall.result_cases (c : AddCall) (db : Database) :
    (¬c.Accepted db ∧ (c.result db).1 ≠ .success ∧ (c.result db).2.tables = db.tables) ∨
    (c.Accepted db ∧ (c.result db).1 = .success ∧
      ∃ n t, c.name = some n ∧ t.name = n.truncate (maxTableName - 1) ∧
        (∀ u ∈ db.tables, u.name ≠ n) ∧ (c.result db).2.tables = db.tables ++ [t]) := by
  rcases dbAddTable_cases db c.name c.fields with
    ⟨hfail, htables⟩ | ⟨n, l, named, hpos, hle, hn, hl, hnamed, hnew, hok, htables⟩
  · exact .inl ⟨fun hacc => hfail hacc.result_eq, hfail, htables⟩
  · have hlen := length_namedFields hnamed
    have hfull : db.tableCount < maxTables := by
      have hmax := (dbAddTable db c.name c.fields).2.tables_le
      rw [htables, List.length_append] at hmax
      exact hmax
    refine .inr ⟨⟨n, l, hn, hl, hlen ▸ ⟨hpos, hle⟩, hnew, hfull, ?_⟩, hok, n, _, hn, rfl, hnew, htables⟩
    rw [hnamed]
    rfl

/-- A name that is stored is refused. -/
theorem AddCall.result_of_stored {c : AddCall} {db : Database} {n : CString} (hn : c.name = some n)
    (hfields : c.fields.isSome) (hvalid : ValidFields c.fields) (hstored : n ∈ db.tables.map Table.name) :
    (c.result db).1 = .duplicateKey := by
  obtain ⟨name, fields⟩ := c
  obtain ⟨l, rfl⟩ := Option.isSome_iff_exists.mp hfields
  obtain rfl : name = some n := hn
  obtain ⟨t, ht, rfl⟩ := List.mem_map.mp hstored
  have hdup : (db.tables.any fun u => u.name = t.name) = true :=
    List.any_eq_true.mpr ⟨t, ht, decide_eq_true rfl⟩
  unfold AddCall.result dbAddTable
  dsimp only
  rw [dif_pos (hvalid l rfl), if_pos hdup]

/-- What holds as long as names fit: the names are distinct, those that were added are stored, and
the array has room for the tables. -/
structure AddHistory.Inv (s : AddHistory) : Prop where
  distinct : (s.db.tables.map Table.name).Nodup
  count_le_capacity : s.db.tableCount ≤ s.db.tableCapacity
  stored : ∀ n ∈ s.added, n ∈ s.db.tables.map Table.name

theorem AddHistory.Inv.step {s : AddHistory} (hs : s.Inv) {c : AddCall} (hc : s.ShortName c) :
    (s.step c).Inv := by
  have hcount : (s.step c).db.tableCount ≤ (s.step c).db.tableCapacity :=
    dbAddTable_capacity hs.count_le_capacity c.name c.fields
  rcases c.result_cases s.db with
    ⟨-, hfail, htables⟩ | ⟨hacc, hok, n, t, hn, hname, hnew, htables⟩
  -- a refused call leaves the tables as they are
  · have hadded : (s.step c).added = s.added := if_neg hfail
    refine ⟨?_, hcount, fun n hn => ?_⟩
    · show ((c.result s.db).2.tables.map Table.name).Nodup
      rw [htables]
      exact hs.distinct
    · show n ∈ (c.result s.db).2.tables.map Table.name
      rw [htables]
      exact hs.stored n (hadded ▸ hn)
  · -- The name is stored whole.
    have hwhole : t.name = n := by
      have hlt := hc hacc n hn
      rw [hname]
      exact CString.truncate_eq_self (by omega)
    have hadded : (s.step c).added = n :: s.added := by
      show (if _ then _ else _) = _
      rw [if_pos hok, hn]
      rfl
    have hnames : (s.step c).db.tables.map Table.name = s.db.tables.map Table.name ++ [n] := by
      show (c.result s.db).2.tables.map Table.name = _
      rw [htables, List.map_append, List.map_singleton, hwhole]
    refine ⟨?_, hcount, fun m hm => ?_⟩
    · rw [hnames, List.nodup_append]
      refine ⟨hs.distinct, List.nodup_singleton n, fun a ha b hb => ?_⟩
      obtain ⟨u, hu, rfl⟩ := List.mem_map.mp ha
      obtain rfl := List.mem_singleton.mp hb
      exact hnew u hu
    · rw [hnames, List.mem_append, List.mem_singleton]
      rw [hadded] at hm
      rcases List.mem_cons.mp hm with rfl | hm
      · exact .inr rfl
      · exact .inl (hs.stored m hm)

/-- **A call keeps its promises exactly if the name fits.** -/
theorem lawful_iff_shortName {s : AddHistory} (hs : s.Inv) (c : AddCall) :
    s.Lawful c ↔ s.ShortName c := by
  have hcases := c.result_cases s.db
  constructor
  · rintro hlaw hacc n hn
    rcases hcases with ⟨hno, -⟩ | ⟨-, hok, -⟩
    · exact absurd hacc hno
    · -- The table that is found has the name, and a stored name is never longer.
      have hfound := List.findIdx?_eq_some_iff_getElem.mp (hlaw.found hok n hn)
      obtain ⟨hlt, hname, -⟩ := hfound
      have hshort := (s.step c).db.tables[s.db.tableCount].name_lt
      rwa [of_decide_eq_true hname] at hshort
  · intro hshort
    have hs' := hs.step hshort
    refine ⟨hs'.distinct, hs'.count_le_capacity, (s.step c).db.tables_le, ?_, ?_⟩
    · intro hok n hn
      rcases hcases with ⟨-, hfail, -⟩ | ⟨hacc, -, n', t, hn', hname, hnew, htables⟩
      · exact absurd hok hfail
      · obtain rfl := Option.some.inj (hn'.symm.trans hn)
        have hwhole : t.name = n' := by
          have hlt := hshort hacc n' hn
          rw [hname]
          exact CString.truncate_eq_self (by omega)
        have hnone : (s.db.tables.findIdx? fun u => u.name = n') = none :=
          List.findIdx?_eq_none_iff.mpr fun u hu => decide_eq_false (hnew u hu)
        show ((c.result s.db).2.tables.findIdx? fun u => u.name = n') = _
        rw [htables, List.findIdx?_append, hnone, Option.none_or, List.findIdx?_cons,
          if_pos (decide_eq_true hwhole)]
        simp [Database.tableCount]
    · intro n hn hname hfields hvalid
      exact AddCall.result_of_stored hname hfields hvalid (hs.stored n hn)

/-! ### Sequences of calls -/

/-- **Tables can be found under their names throughout a sequence of calls exactly if the names that
are accepted fit.** -/
theorem table_names_iff (calls : List AddCall) :
    Admits AddHistory.step AddHistory.Lawful ⟨dbCreate, []⟩ calls ↔
      Admits AddHistory.step AddHistory.ShortName ⟨dbCreate, []⟩ calls := by
  have hinit : AddHistory.Inv ⟨dbCreate, []⟩ := ⟨List.nodup_nil, Nat.le_refl 0, by simp⟩
  exact admits_iff_of_invariant (P := AddHistory.Inv) (fun _ c hs => lawful_iff_shortName hs c)
    (fun _ _ hs hc => hs.step hc) hinit calls

/-- A call that adds a table with one column. -/
def addOne (name : CString) : AddCall := ⟨some name, some [(some (cstr "id"), .int)]⟩

/-- A name of 64 letters, which `validate_table_name` admits. -/
def longName : CString := CString.ofBytes (List.replicate 64 97)

/-- The table is added but not found, and it can be added again. -/
theorem long_name_not_found :
    ¬∀ calls : List AddCall, Admits AddHistory.step AddHistory.Lawful ⟨dbCreate, []⟩ calls := by
  intro h
  obtain ⟨-, hlaw, -⟩ := h [addOne longName, addOne longName]
  exact absurd hlaw.distinct (by decide)

end Luminix
