import Luminix.Calls
import Luminix.Equiv.NumberWidth
import Luminix.Equiv.Scan
import Luminix.Equiv.Serialize

/-!
# The statistics of a saved file

`json_get_stats_string` comes to the end of a file that `db_save_to_file` has written exactly if the
names of its columns and its numbers have been written so that they can be read, and then it counts
the tables, columns and records of the database (`saved_counts_iff`).
-/

namespace Luminix

open CLib Machine TokenReader

variable {p : Platform} {ts : List JsonToken} {l : List UInt8} {t : JsonToken}

/-! ### The scan and the tokens -/

/-- A scan that ends has counted all the tokens. -/
theorem statsLoop_of_reads (hts : JsonToken.eof ∉ ts) (h : Reads jsonParseToken .none ts l [])
    {fuel : Nat} {stats stats' : JsonStats} (hloop : statsLoop fuel stats l = some stats') :
    .none ∉ ts ∧ stats' = ts.foldl JsonStats.count stats := by
  induction ts generalizing fuel stats l with
  | nil =>
    cases fuel with
    | zero => cases hloop
    | succ fuel =>
      cases h with
      | done h =>
        rw [statsLoop, h] at hloop
        exact ⟨List.not_mem_nil, (Option.some.inj hloop).symm⟩
  | cons t ts ih =>
    have heof := List.ne_of_not_mem_cons hts
    by_cases hnone : t = .none
    · -- the scan does not come past what cannot be read
      subst hnone
      obtain ⟨m, hm, hstuck⟩ := h.bad_head
      have hnever (fuel : Nat) (stats : JsonStats) : statsLoop fuel stats m = none := by
        induction fuel generalizing stats with
        | zero => rfl
        | succ fuel ih => rw [statsLoop_round hstuck (by simp), ih]
      cases fuel with
      | zero => cases hloop
      | succ fuel =>
        rw [statsLoop_round hm (by simp), hnever] at hloop
        cases hloop
    · obtain ⟨m, hm, hrest⟩ := h.head hnone
      cases fuel with
      | zero => cases hloop
      | succ fuel =>
        rw [statsLoop_round hm (Ne.symm heof)] at hloop
        obtain ⟨hmem, hstats⟩ := ih (List.not_mem_of_not_mem_cons hts) hrest hloop
        exact ⟨List.not_mem_cons_of_ne_of_not_mem (Ne.symm hnone) hmem, hstats⟩

/-- A text that can be read is scanned to its end. -/
theorem exists_statsLoop (hnone : JsonToken.none ∉ ts) (hts : JsonToken.eof ∉ ts)
    (h : Reads jsonParseToken .none ts l []) (stats : JsonStats) :
    ∃ fuel stats', statsLoop fuel stats l = some stats' := by
  induction ts generalizing stats l with
  | nil =>
    cases h with
    | done h => exact ⟨1, stats, by rw [statsLoop, h]; rfl⟩
  | cons t ts ih =>
    obtain ⟨m, hm, hrest⟩ := h.head (Ne.symm (List.ne_of_not_mem_cons hnone))
    obtain ⟨fuel, stats', hloop⟩ := ih (List.not_mem_of_not_mem_cons hnone)
      (List.not_mem_of_not_mem_cons hts) hrest (stats.count t)
    refine ⟨fuel + 1, stats', ?_⟩
    rw [statsLoop_round hm (Ne.symm (List.ne_of_not_mem_cons hts)), hloop]

/-- What the tokens add up to. -/
theorem foldl_count (ts : List JsonToken) (stats : JsonStats) :
    (ts.foldl JsonStats.count stats).objectCount = stats.objectCount + ts.count .objectStart ∧
      (ts.foldl JsonStats.count stats).arrayCount = stats.arrayCount + ts.count .arrayStart ∧
      (ts.foldl JsonStats.count stats).totalSize = stats.totalSize := by
  induction ts generalizing stats with
  | nil => exact ⟨rfl, rfl, rfl⟩
  | cons t ts ih =>
    obtain ⟨hobjects, harrays, hsize⟩ := ih (stats.count t)
    rw [List.foldl_cons, hobjects, harrays, hsize, List.count_cons, List.count_cons]
    cases t <;> simp [JsonStats.count] <;> omega

/-! ### Counting the tokens of a file -/

theorem count_sepBy (ht : t ≠ .comma) (xs : List (List JsonToken)) :
    (sepBy xs).count t = (xs.map (List.count t)).sum := by
  cases xs with
  | nil => rfl
  | cons x xs =>
    rw [sepBy_cons, List.count_append, List.map_cons, List.sum_cons]
    congr 1
    induction xs with
    | nil => rfl
    | cons y xs ih =>
      rw [List.flatMap_cons, List.cons_append, List.count_cons_of_ne (Ne.symm ht), List.count_append,
        ih, List.map_cons, List.sum_cons]

theorem mem_sepBy (ht : t ≠ .comma) (xs : List (List JsonToken)) :
    t ∈ sepBy xs ↔ ∃ x ∈ xs, t ∈ x := by
  cases xs with
  | nil => simp [sepBy]
  | cons x xs => simp [sepBy_cons, ht]

theorem count_sepBy_map {α : Type*} {f : α → List JsonToken} {n : Nat} (ht : t ≠ .comma) {l : List α}
    (h : ∀ a ∈ l, (f a).count t = n) : (sepBy (l.map f)).count t = l.length * n := by
  have hconst : l.map (List.count t ∘ f) = l.map fun _ => n := List.map_congr_left h
  rw [count_sepBy ht, List.map_map, hconst, List.map_const', List.sum_replicate_nat]

/-- The token begins an object or an array, or it is the end of a text. -/
def Apart (t : JsonToken) : Prop := t = .objectStart ∨ t = .arrayStart ∨ t = .eof

theorem Apart.ne_comma (ht : Apart t) : t ≠ .comma := by
  rcases ht with rfl | rfl | rfl <;> simp

/-- No value is written as such a token. -/
theorem count_valueTokens (ht : Apart t) (f : Field) : (valueTokens p f).count t = 0 := by
  rw [List.count_eq_zero]
  intro hmem
  unfold valueTokens floatTokens at hmem
  rcases ht with rfl | rfl | rfl
  all_goals
    split at hmem
    all_goals
      first
        | simp at hmem
        | split_ifs at hmem <;> simp at hmem

theorem count_keyTokens (ht : Apart t) (name : CString) : (keyTokens name).count t = 0 := by
  rw [List.count_eq_zero]
  intro hmem
  unfold keyTokens at hmem
  rcases ht with rfl | rfl | rfl <;> split_ifs at hmem <;> simp at hmem

/-- The constraints of a column are written. -/
def isConstrained (c : Column) : Bool :=
  c.constraint.primaryKey || c.constraint.unique || !c.constraint.nullable

theorem count_columnTokens (c : Column) : (columnTokens c).count .objectStart = 1 ∧
    (columnTokens c).count .arrayStart = if isConstrained c then 1 else 0 := by
  have hnames (k : Constraint) : ∀ t, Apart t →
      (arrayTail ((constraintNames k).map fun s => [.string s])).count t = 0 := by
    intro t ht
    rw [arrayTail, List.count_append, count_sepBy_map ht.ne_comma (n := 0)]
    · rcases ht with rfl | rfl | rfl <;> simp
    · intro s _
      rcases ht with rfl | rfl | rfl <;> simp
  unfold columnTokens columnMembers isConstrained
  split_ifs
  · simp [memberTokens, objectTail, sepBy, hnames _ _ (.inl rfl), hnames _ _ (.inr (.inl rfl))]
  · simp [memberTokens, objectTail, sepBy]

/-- A record is three objects: itself, its fields and its metadata. -/
theorem count_recordTokens (columns : List Column) (r : Record) :
    (recordTokens p columns r).count .objectStart = 3 ∧
      (recordTokens p columns r).count .arrayStart = 0 := by
  have hfields {t : JsonToken} (ht : Apart t) (pairs : List (Column × Field)) :
      (fieldsTokens p pairs).count t = 0 := by
    rw [fieldsTokens, objectTail, List.count_append, count_sepBy_map ht.ne_comma (n := 0)]
    · rcases ht with rfl | rfl | rfl <;> simp
    · intro x _
      rw [List.count_append, count_keyTokens ht, count_valueTokens ht]
  unfold recordTokens
  constructor
  · simp [memberTokens, objectTail, sepBy, hfields (.inl rfl)]
  · simp [memberTokens, objectTail, sepBy, hfields (.inr (.inl rfl))]

/-- The objects of a table: itself, its schema, its columns and its records. -/
def Table.objects (t : Table) : Nat := 2 + t.columns.length + 3 * t.records.length

/-- The arrays of a table: its columns, its records, and the constraints of its columns. -/
def Table.arrays (t : Table) : Nat := 2 + t.columns.countP isConstrained

theorem count_tableTokens (t : Table) : (tableTokens p t).count .objectStart = t.objects ∧
    (tableTokens p t).count .arrayStart = t.arrays := by
  have hcolumns : ((sepBy (t.columns.map columnTokens)).count .objectStart = t.columns.length ∧
      (sepBy (t.columns.map columnTokens)).count .arrayStart = t.columns.countP isConstrained) := by
    constructor
    · rw [count_sepBy_map (by simp) fun c _ => (count_columnTokens c).1, Nat.mul_one]
    · rw [count_sepBy (by simp)]
      induction t.columns with
      | nil => rfl
      | cons c cs ih =>
        simp only [List.map_cons, List.sum_cons, ih, (count_columnTokens c).2, List.countP_cons]
        omega
  have hrecords : ((sepBy (t.records.map (recordTokens p t.columns))).count .objectStart =
      t.records.length * 3 ∧
      (sepBy (t.records.map (recordTokens p t.columns))).count .arrayStart = t.records.length * 0) :=
    ⟨count_sepBy_map (by simp) fun r _ => (count_recordTokens t.columns r).1,
      count_sepBy_map (by simp) fun r _ => (count_recordTokens t.columns r).2⟩
  unfold tableTokens schemaTokens Table.objects Table.arrays
  constructor
  · simp [memberTokens, objectTail, arrayTail, sepBy, hcolumns, hrecords]
    omega
  · simp [memberTokens, objectTail, arrayTail, sepBy, hcolumns, hrecords]
    omega

/-- **The objects and the arrays of a file.** -/
theorem count_fileTokens (db : Database) :
    (fileTokens p db).count .objectStart = 2 + (db.tables.map Table.objects).sum ∧
      (fileTokens p db).count .arrayStart = 1 + (db.tables.map Table.arrays).sum := by
  have hobjects : (List.count .objectStart ∘ tableTokens p) = Table.objects :=
    funext fun t => (count_tableTokens t).1
  have harrays : (List.count .arrayStart ∘ tableTokens p) = Table.arrays :=
    funext fun t => (count_tableTokens t).2
  unfold fileTokens metadataTokens
  constructor
  · simp [memberTokens, objectTail, arrayTail, sepBy, count_sepBy, hobjects]
    omega
  · simp [memberTokens, objectTail, arrayTail, sepBy, count_sepBy, harrays]
    omega

/-! ### Tokens that cannot be read -/

/-- A floating-point value is finite and its text fits in the buffer. -/
def Field.Writable (f : Field) : Prop :=
  f.type = .float ∨ f.type = .double → FiniteNumber f ∧ NumberFits f

/-- The names of the columns can stand between quotes, and so can the numbers on their own. -/
def Table.Readable (t : Table) : Prop :=
  ∀ r ∈ t.records, (∀ c ∈ t.columns, quotable false c.name.bytes = true) ∧
    ∀ x ∈ fieldPairs t.columns r.fields, x.2.Writable

theorem none_mem_floatTokens (F : IeeeFormat) (bits : Nat) (text : List UInt8) :
    .none ∈ floatTokens F bits text ↔ ¬(F.isFinite bits = true ∧ text.length < numberBufferSize) := by
  unfold floatTokens
  split_ifs with hfinite hlength hnegative
  · simp [hfinite, hlength]
  · simp [hfinite, hlength]
  · simp [hfinite]
  · simp [hfinite]

theorem none_mem_valueTokens (f : Field) : .none ∈ valueTokens p f ↔ ¬f.Writable := by
  unfold valueTokens Field.Writable
  cases hf : f.type
  case float =>
    have hfinite : FiniteNumber f ↔ binary32.isFinite f.value.floatBits = true := by
      simp [FiniteNumber, hf]
    rw [none_mem_floatTokens, not_iff_not]
    constructor
    · rintro ⟨hbits, hlength⟩ -
      exact ⟨hfinite.mpr hbits, (length_floatText_lt_iff (hfinite.mpr hbits)).mp hlength⟩
    · intro h
      obtain ⟨hnumber, hfits⟩ := h (.inl rfl)
      exact ⟨hfinite.mp hnumber, (length_floatText_lt_iff hnumber).mpr hfits⟩
  case double =>
    have hfinite : FiniteNumber f ↔ binary64.isFinite f.value.doubleBits = true := by
      simp [FiniteNumber, hf]
    rw [none_mem_floatTokens, not_iff_not]
    constructor
    · rintro ⟨hbits, hlength⟩ -
      exact ⟨hfinite.mpr hbits, (length_floatText_lt_iff (hfinite.mpr hbits)).mp hlength⟩
    · intro h
      obtain ⟨hnumber, hfits⟩ := h (.inr rfl)
      exact ⟨hfinite.mp hnumber, (length_floatText_lt_iff hnumber).mpr hfits⟩
  all_goals simp

theorem none_mem_keyTokens (name : CString) :
    .none ∈ keyTokens name ↔ ¬quotable false name.bytes = true := by
  unfold keyTokens
  split_ifs with hquotable
  · simp [hquotable]
  · simp [hquotable]

theorem none_notMem_columnTokens (c : Column) : .none ∉ columnTokens c := by
  unfold columnTokens columnMembers
  split_ifs
  · simp [memberTokens, objectTail, arrayTail, sepBy, mem_sepBy]
  · simp [memberTokens, objectTail, sepBy]

theorem none_mem_recordTokens (columns : List Column) (r : Record) :
    .none ∈ recordTokens p columns r ↔ ∃ x ∈ fieldPairs columns r.fields,
      ¬quotable false x.1.name.bytes = true ∨ ¬x.2.Writable := by
  simp [recordTokens, fieldsTokens, memberTokens, objectTail, sepBy, mem_sepBy, none_mem_keyTokens,
    none_mem_valueTokens]

theorem map_fst_fieldPairs (columns : List Column) (fields : List Field) :
    (fieldPairs columns fields).map Prod.fst = columns := by
  induction columns generalizing fields with
  | nil => rfl
  | cons c cs ih => rw [fieldPairs, List.map_cons, ih]

/-- **What cannot be read of a file** is a name or a number. -/
theorem none_mem_fileTokens (db : Database) :
    .none ∈ fileTokens p db ↔ ¬∀ t ∈ db.tables, t.Readable := by
  have htable (t : Table) : .none ∈ tableTokens p t ↔ ¬t.Readable := by
    have hrecords : (∃ r ∈ t.records, .none ∈ recordTokens p t.columns r) ↔ ¬t.Readable := by
      simp only [Table.Readable, not_forall, exists_prop, none_mem_recordTokens]
      refine exists_congr fun r => and_congr_right fun _ => ?_
      rw [not_and_or]
      have hcolumns := map_fst_fieldPairs t.columns r.fields
      constructor
      · rintro ⟨x, hx, hname | hvalue⟩
        · exact .inl fun h => hname (h x.1 (hcolumns ▸ List.mem_map_of_mem hx))
        · exact .inr fun h => hvalue (h x hx)
      · rintro (h | h)
        · simp only [not_forall] at h
          obtain ⟨c, hc, hname⟩ := h
          rw [← hcolumns] at hc
          obtain ⟨x, hx, rfl⟩ := List.mem_map.mp hc
          exact ⟨x, hx, .inl hname⟩
        · simp only [not_forall] at h
          obtain ⟨x, hx, hvalue⟩ := h
          exact ⟨x, hx, .inr hvalue⟩
    rw [← hrecords]
    simp [tableTokens, schemaTokens, memberTokens, objectTail, arrayTail, sepBy, mem_sepBy,
      none_notMem_columnTokens]
  simp [fileTokens, metadataTokens, memberTokens, objectTail, arrayTail, sepBy, mem_sepBy, htable]

/-- The end of a text is not written. -/
theorem eof_notMem_fileTokens (db : Database) : .eof ∉ fileTokens p db := by
  have hapart : Apart .eof := .inr (.inr rfl)
  have hvalue (f : Field) := List.count_eq_zero.mp (count_valueTokens (p := p) hapart f)
  have hkey (name : CString) := List.count_eq_zero.mp (count_keyTokens hapart name)
  have hcolumn (c : Column) : .eof ∉ columnTokens c := by
    unfold columnTokens columnMembers
    split_ifs
    · simp [memberTokens, objectTail, arrayTail, sepBy, mem_sepBy]
    · simp [memberTokens, objectTail, sepBy]
  simp [fileTokens, metadataTokens, tableTokens, schemaTokens, recordTokens, fieldsTokens,
    memberTokens, objectTail, arrayTail, sepBy, mem_sepBy, hcolumn, hkey, hvalue]

/-! ### The statistics -/

/-- **The scan of a saved file ends** exactly if every name and number can be read, and its result
counts the objects and the arrays of the database. -/
theorem saved_counts_iff (hp : p.Faithful) {db : Database} (hdb : db.HasKeys) {s : CString}
    (hs : dbSaveToFile p db = (.success, some s.bytes)) :
    ((∃ fuel stats, jsonGetStatsString fuel (some s) = some (some stats)) ↔
      ∀ t ∈ db.tables, t.Readable) ∧
    ∀ fuel stats, jsonGetStatsString fuel (some s) = some (some stats) →
      stats.objectCount = 2 + (db.tables.map Table.objects).sum ∧
      stats.arrayCount = 1 + (db.tables.map Table.arrays).sum ∧
      stats.totalSize = s.length := by
  have htimes : db.TimesConvert p := timesConvert_of_save (congrArg Prod.snd hs)
  obtain ⟨text, htext, hreads⟩ := dbSaveToFile_reads hp hdb htimes
  obtain rfl : s.bytes = text := by
    rw [hs] at htext
    exact Option.some.inj (Prod.mk.inj htext).2
  -- the other counters of the result do not count tokens
  have hrun {fuel : Nat} {stats : JsonStats}
      (h : jsonGetStatsString fuel (some s) = some (some stats)) : ∃ stats',
        statsLoop fuel { totalSize := s.length } s.bytes = some stats' ∧
          stats'.objectCount = stats.objectCount ∧ stats'.arrayCount = stats.arrayCount ∧
          stats'.totalSize = stats.totalSize := by
    obtain ⟨stats', hloop, hstats⟩ := Option.bind_eq_some_iff.mp h
    obtain rfl := Option.some.inj (Option.some.inj hstats)
    exact ⟨stats', hloop, rfl, rfl, rfl⟩
  constructor
  · constructor
    · rintro ⟨fuel, stats, h⟩
      obtain ⟨stats', hloop, -⟩ := hrun h
      obtain ⟨hnone, -⟩ := statsLoop_of_reads (eof_notMem_fileTokens db) hreads hloop
      exact not_not.mp fun hnot => hnone ((none_mem_fileTokens db).mpr hnot)
    · intro hreadable
      have hnone : .none ∉ fileTokens p db := fun h => (none_mem_fileTokens db).mp h hreadable
      obtain ⟨fuel, stats, hloop⟩ := exists_statsLoop hnone (eof_notMem_fileTokens db) hreads
        { totalSize := s.length }
      exact ⟨fuel, _, Option.bind_eq_some_iff.mpr ⟨stats, hloop, rfl⟩⟩
  · intro fuel stats h
    obtain ⟨stats', hloop, hobjects, harrays, hsize⟩ := hrun h
    obtain ⟨-, rfl⟩ := statsLoop_of_reads (eof_notMem_fileTokens db) hreads hloop
    obtain ⟨hobjects', harrays', hsize'⟩ := foldl_count (fileTokens p db) { totalSize := s.length }
    obtain ⟨hfile, hfile'⟩ := count_fileTokens (p := p) db
    rw [← hobjects, ← harrays, ← hsize, hobjects', harrays', hsize', hfile, hfile']
    exact ⟨Nat.zero_add _, Nat.zero_add _, rfl⟩

/-- A table with one column and one record. -/
def noteStore : Store :=
  run Store.step ⟨dbCreate, 1000⟩
    [.addTable (some (cstr "t")) (some [(some (cstr "k"), .int)]),
      .tableInsert 0 0 (some [.ofInt 7])]

theorem saved_counts_note : ∃ s : CString,
    dbSaveToFile .epoch noteStore.db = (.success, some s.bytes) ∧
      ∃ fuel stats, jsonGetStatsString fuel (some s) = some (some stats) ∧
        stats.objectCount = 8 ∧ stats.arrayCount = 4 ∧ stats.totalSize = s.length := by
  have hkeys : noteStore.db.HasKeys := by decide
  have htimes : noteStore.db.TimesConvert .epoch := by decide +kernel
  obtain ⟨text, htext, -⟩ := dbSaveToFile_reads Platform.epoch_faithful hkeys htimes
  have hzero : (0 : UInt8) ∉ (dbSaveToFile .epoch noteStore.db).2.getD [] := by decide +kernel
  rw [htext] at hzero
  have hsave : dbSaveToFile .epoch noteStore.db =
      (.success, some (CString.ofBytes text).bytes) := by
    rw [CString.bytes_ofBytes (l := text) hzero, htext]
  -- no value is a floating-point number
  have htypes : ∀ t ∈ noteStore.db.tables, ∀ r ∈ t.records,
      (∀ c ∈ t.columns, quotable false c.name.bytes = true) ∧
        ∀ x ∈ fieldPairs t.columns r.fields, ¬(x.2.type = .float ∨ x.2.type = .double) := by
    decide +kernel
  have hreadable : ∀ t ∈ noteStore.db.tables, t.Readable := fun t ht r hr =>
    ⟨(htypes t ht r hr).1, fun x hx hfloat => absurd hfloat ((htypes t ht r hr).2 x hx)⟩
  obtain ⟨hends, hcounts⟩ := saved_counts_iff Platform.epoch_faithful hkeys hsave
  obtain ⟨fuel, stats, hstats⟩ := hends.mpr hreadable
  obtain ⟨hobjects, harrays, hsize⟩ := hcounts fuel stats hstats
  exact ⟨_, hsave, fuel, stats, hstats, hobjects, harrays, hsize⟩

end Luminix
