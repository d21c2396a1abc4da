import Luminix.Equiv.Document
import Luminix.Equiv.Fields

/-!
# Where a load ends the program

A table that has a column without a name is handed to `db_add_table` like any other, and ends the
program there.  The texts that come so far are those that begin as a document and go on with the
schema of such a table (`NamelessDocument`, `loadCrashes_iff`); what follows it is not read any more.
-/

namespace Luminix

open CLib

variable {α β σ : Type}

/-! ### Parts that return -/

/-- The program does not end here. -/
def Returns (r : Except Failure α) : Prop := r ≠ .error (.code .crash)

theorem returns_ok (a : α) : Returns (.ok a) := nofun

theorem returns_invalid : Returns (invalid : Except Failure α) := by
  simp [Returns, invalid]

theorem Returns.error {r : Except Failure α} {e : Failure} (h : Returns r) (he : r = .error e) :
    Returns (.error e : Except Failure β) := by
  rintro ⟨⟩
  exact h he

theorem Returns.map {r : Except Failure α} (h : Returns r) (f : α → β) : Returns (r.map f) := by
  cases r with
  | ok a => exact returns_ok (f a)
  | error e => exact h.error rfl

theorem returns_parseMembers {member : CString → σ → List UInt8 → Except Failure (σ × List UInt8)}
    (h : ∀ key s l, Returns (member key s l)) (fuel : Nat) (s : σ) (l : List UInt8) :
    Returns (parseMembers member fuel s l) := by
  induction fuel generalizing s l with
  | zero => exact nofun
  | succ fuel ih =>
    rw [parseMembers]
    split
    · exact returns_ok _
    next key m _ =>
      split
      next m₁ _ =>
        split
        · split
          · exact ih _ _
          · exact returns_ok _
          · exact returns_invalid
        next e he => exact (h key s m₁).error he
      · exact returns_invalid
    · exact returns_invalid

theorem returns_parseElements {elem : σ → List UInt8 → Except Failure (σ × List UInt8)}
    (h : ∀ s l, Returns (elem s l)) (fuel : Nat) (s : σ) (l : List UInt8) :
    Returns (parseElements elem fuel s l) := by
  induction fuel generalizing s l with
  | zero => exact nofun
  | succ fuel ih =>
    rw [parseElements]
    split
    · exact returns_ok _
    next m _ =>
      split
      · split
        · exact ih _ _
        · exact returns_ok _
        · exact returns_invalid
      next e he => exact (h s m).error he
    · exact returns_invalid

theorem returns_skipValue (l : List UInt8) : Returns (skipValue l) := by
  unfold skipValue
  split
  · exact returns_ok _
  · exact nofun

/-- A value that breaks off is invalid input. -/
theorem Skipped.code {e : ErrorCode} {t : JsonToken} {ts : List JsonToken} (h : Skipped e t ts) :
    e = .success ∨ e = .invalidInput := by
  induction h <;> first | exact .inl rfl | exact .inr rfl | assumption

theorem returns_skipValueChecked (l : List UInt8) : Returns (skipValueChecked l) := by
  unfold skipValueChecked
  split
  · exact returns_ok _
  next e l' _ hskip =>
    obtain ⟨ts, hts, -⟩ := skipped_of_skipTokenValue hskip
    rcases hts.code with rfl | rfl <;> exact nofun
  · exact nofun

theorem returns_metadata (l : List UInt8) : Returns (jsonParseDatabaseMetadata l) := by
  unfold jsonParseDatabaseMetadata
  split
  · exact (returns_parseMembers (fun _ _ l => (returns_skipValue l).map _) _ _ _).map _
  · exact returns_invalid

/-! ### Schemas -/

theorem returns_fieldMember (key : CString) (field : Option CString × FieldType) (l : List UInt8) :
    Returns (fieldMember key field l) := by
  unfold fieldMember
  split_ifs
  · split
    · exact returns_ok _
    · exact returns_invalid
  · split
    · exact returns_ok _
    · exact returns_invalid
  · exact (returns_skipValue l).map _

theorem returns_schemaMember (key : CString) (draft : SchemaDraft) (l : List UInt8) :
    Returns (schemaMember key draft l) := by
  unfold schemaMember
  split_ifs
  · split
    · exact returns_ok _
    · exact returns_invalid
  · split
    · refine (returns_parseElements (fun fields l => ?_) _ _ _).map _
      exact (returns_parseMembers returns_fieldMember _ _ _).map _
    · exact returns_invalid
  · exact (returns_skipValue l).map _

theorem returns_schemaLoop (fuel : Nat) (draft : SchemaDraft) (t : JsonToken) (l : List UInt8) :
    Returns (schemaLoop fuel draft t l) := by
  induction fuel generalizing draft t l with
  | zero => exact nofun
  | succ fuel ih =>
    cases t
    case objectEnd => exact returns_ok _
    case string key =>
      rw [schemaLoop]
      split
      next m _ =>
        split_ifs
        · split
          · exact ih _ _ _
          · exact returns_invalid
        · split
          · split
            · exact ih _ _ _
            · exact returns_ok _
            · exact returns_invalid
          next e he => exact (returns_schemaMember key draft m).error he
      · exact returns_invalid
    all_goals exact returns_invalid

/-- A schema that ends the program: `db_add_table` comes to a column without a name. -/
def NamelessSchema (db : Database) (ts : List JsonToken) : Prop :=
  ∃ us draft, (ts = us ∨ ts = .objectStart :: us) ∧ SchemaText ⟨cstr "", []⟩ us draft ∧
    (0 < draft.name.length ∧ 0 < draft.fields.length) ∧
    (dbAddTable db (some draft.name) (some draft.fields)).1 = .crash

/-- **A part of the reader ends the program** exactly behind the token lists of `L`. -/
def Crashes (f : List UInt8 → Except Failure (σ × List UInt8)) (L : List JsonToken → Prop) : Prop :=
  ∀ l, f l = .error (.code .crash) ↔ ∃ ts r, L ts ∧ Spans ts l r

theorem crashes_tableSchema (db : Database) :
    Crashes (jsonParseTableSchema db) (NamelessSchema db) := by
  intro l
  constructor
  · intro h
    unfold jsonParseTableSchema at h
    split at h
    next e he =>
      cases h
      exact absurd he (returns_schemaLoop _ _ _ _)
    -- the members have been read, so it is `db_add_table` that ends the program
    next draft m hloop =>
      split_ifs at h with hdraft
      · have hadd : (dbAddTable db (some draft.name) (some draft.fields)).1 = .crash := by
          split at h
          · cases h
          next e db' _ hadd =>
            cases h
            rw [hadd]
        obtain ⟨us, hus, hspan | hspan⟩ := schemaStart_iff.mp hloop
        · exact ⟨us, m, ⟨us, draft, .inl rfl, hus, hdraft, hadd⟩, hspan⟩
        · exact ⟨_, m, ⟨us, draft, .inr rfl, hus, hdraft, hadd⟩, hspan⟩
      · cases h
  · rintro ⟨ts, r, ⟨us, draft, hts, hus, hdraft, hadd⟩, hspan⟩
    have hspans : Spans us l r ∨ Spans (.objectStart :: us) l r := by
      rcases hts with rfl | rfl
      · exact .inl hspan
      · exact .inr hspan
    rw [jsonParseTableSchema, schemaStart_iff.mpr ⟨us, hus, hspans⟩]
    dsimp only
    rw [if_pos hdraft]
    split
    next db' h =>
      rw [h] at hadd
      cases hadd
    next e db' _ h =>
      rw [h] at hadd
      cases hadd
      rfl

/-! ### Records -/

variable (p : Platform)

theorem tableInsertRecord_ne_crash (t : Table) (counter now : Int) (values : List Field) :
    (tableInsertRecord t counter now (some values)).1 ≠ .error .crash := by
  by_cases h : t.Accepts counter values
  · rw [tableInsertRecord_of_accepted h.1 h.2]
    exact nofun
  · rw [tableInsertRecord_of_refused h]
    unfold insertCheck
    split_ifs <;> simp

theorem returns_insertDraft (i : Nat) (columns : List Column) (draft : RecordDraft) (s : Store) :
    Returns (insertDraft p i columns draft s) := by
  unfold insertDraft
  split_ifs
  · exact returns_ok _
  · split
    · exact returns_ok _
    · exact returns_ok _
    next e s' _ hinsert =>
      rintro ⟨⟩
      -- the insert has failed in the table, or there is no such table
      unfold Store.insertInto at hinsert
      split at hinsert
      · cases hinsert
      next t _ => exact tableInsertRecord_ne_crash t _ _ _ (Prod.mk.inj hinsert).1

theorem returns_recordField (columns : List Column) (key : CString) (values : List Field)
    (l : List UInt8) : Returns (recordField p columns key values l) := by
  unfold recordField
  split <;> exact returns_ok _

theorem returns_recordMember (columns : List Column) (key : CString) (draft : RecordDraft)
    (l : List UInt8) : Returns (recordMember p columns key draft l) := by
  unfold recordMember
  split_ifs
  · split <;> exact returns_ok _
  · split
    · exact (returns_parseMembers (returns_recordField p columns) _ _ _).map _
    · exact returns_invalid
  · exact (returns_skipValue l).map _

theorem returns_tableRecords (i : Nat) (s : Store) (l : List UInt8) :
    Returns (jsonParseTableRecords p i s l) := by
  unfold jsonParseTableRecords
  split
  · exact returns_invalid
  next t _ =>
    split
    · refine returns_parseElements (fun s l => ?_) _ _ _
      have hmembers := returns_parseMembers (returns_recordMember p t.columns) (l.length + 1)
        ⟨-1, initialValues t.columns⟩ l
      unfold recordElement
      split
      next e he => exact hmembers.error he
      · exact (returns_insertDraft p i t.columns _ s).map _
    · exact returns_invalid

/-! ### Tables -/

theorem returns_siblingMember (i : Nat) (key : CString) (s : Store) (l : List UInt8) :
    Returns (siblingMember p i key s l) := by
  unfold siblingMember
  split_ifs
  · exact returns_tableRecords p i s l
  · exact (returns_skipValueChecked l).map _

theorem returns_siblingLoop (i fuel : Nat) (s : Store) (l : List UInt8) :
    Returns (siblingLoop p i fuel s l) := by
  induction fuel generalizing s l with
  | zero => exact nofun
  | succ fuel ih =>
    rw [siblingLoop]
    split
    · exact returns_ok _
    · split
      next key m _ =>
        split
        next m₁ _ =>
          split
          · exact ih _ _
          next e he => exact (returns_siblingMember p i key s m₁).error he
        · exact returns_invalid
      · exact returns_invalid
    · exact returns_invalid

theorem returns_afterOuterTable (s : Store) (l : List UInt8) : Returns (afterOuterTable s l) := by
  unfold afterOuterTable
  split
  · exact returns_ok _
  · exact returns_ok _
  · exact returns_invalid

theorem returns_tableSiblings (i : Nat) (key : CString) (s : Store) (l : List UInt8) :
    Returns (tableSiblings p i key s l) := by
  unfold tableSiblings
  split
  next e he => exact (returns_siblingMember p i key s l).error he
  next s₁ m _ =>
    split
    next e he => exact (returns_siblingLoop p i _ s₁ m).error he
    · exact returns_afterOuterTable _ _

/-- A table ends the program in its schema, or not at all. -/
theorem parseTable_crash_iff {s : Store} {l : List UInt8} :
    parseTable p s l = .error (.code .crash) ↔
      jsonParseTableSchema s.db l = .error (.code .crash) := by
  constructor
  · intro h
    unfold parseTable at h
    split at h
    next e he =>
      cases h
      exact he
    -- behind the schema everything returns
    next db m hok =>
      exfalso
      revert h
      dsimp only
      split
      · exact returns_ok _
      · exact returns_afterOuterTable _ _
      · split
        · exact returns_ok _
        · exact returns_ok _
        · split
          · exact returns_tableSiblings p _ _ _ _
          · exact returns_invalid
        · exact returns_invalid
      · exact returns_invalid
  · intro h
    rw [parseTable, h]

/-- The array of tables up to a schema that ends the program. -/
inductive NamelessTables : Bool → Store → List JsonToken → Prop
  | schema {started : Bool} {s : Store} {v : List JsonToken} (h : NamelessSchema s.db v) :
      NamelessTables started s (openTable started v)
  | next {started : Bool} {s s' : Store} {v ts : List JsonToken} (h : TableText p s v .element s')
      (hrest : NamelessTables false s' ts) : NamelessTables started s (openTable started (v ++ ts))
  | flat {started : Bool} {s s' : Store} {v ts : List JsonToken} (h : TableText p s v .table s')
      (hrest : NamelessTables true s' ts) : NamelessTables started s (openTable started (v ++ ts))

theorem namelessTables_of_tablesLoop {fuel : Nat} {started : Bool} {s : Store} {l : List UInt8}
    (h : tablesLoop p fuel started s l = .error (.code .crash)) :
    ∃ ts r, NamelessTables p started s ts ∧ Spans ts l r := by
  induction fuel generalizing started s l with
  | zero => cases h
  | succ fuel ih =>
    -- what follows the brace of a table, which may have been read in the round before
    have hround : ∀ {m}, tableRound p fuel s m = .error (.code .crash) →
        ∃ ts r, (∀ started, NamelessTables p started s (openTable started ts)) ∧ Spans ts m r := by
      intro m h
      unfold tableRound at h
      split at h
      next e htable =>
        cases h
        obtain ⟨v, r, hv, hspan⟩ :=
          (crashes_tableSchema s.db m).mp ((parseTable_crash_iff p).mp htable)
        exact ⟨v, r, fun _ => .schema hv, hspan⟩
      next => cases h
      next s₁ m₁ htable =>
        obtain ⟨v, hv, hspan⟩ := tableText_of_parseTable p htable
        obtain ⟨ts, r, hts, hrest⟩ := ih h
        exact ⟨_, r, fun _ => .next hv hts, spans_append.mpr ⟨m₁, hspan, hrest⟩⟩
      next s₁ m₁ htable =>
        obtain ⟨v, hv, hspan⟩ := tableText_of_parseTable p htable
        obtain ⟨ts, r, hts, hrest⟩ := ih h
        exact ⟨_, r, fun _ => .flat hv hts, spans_append.mpr ⟨m₁, hspan, hrest⟩⟩
    cases started with
    | true =>
      obtain ⟨ts, r, hts, hspan⟩ := hround (h : tableRound p fuel s l = _)
      exact ⟨_, r, hts true, hspan⟩
    | false =>
      obtain ⟨t, m, ht⟩ : ∃ t m, jsonParseToken l = (t, m) := ⟨_, _, rfl⟩
      by_cases hstart : t = .objectStart
      · subst hstart
        rw [tablesLoop_open p ht] at h
        obtain ⟨ts, r, hts, hspan⟩ := hround h
        exact ⟨_, r, hts false, m, ht, hspan⟩
      · by_cases hend : t = .arrayEnd
        · subst hend
          rw [tablesLoop_close p ht] at h
          cases h
        · rw [tablesLoop_invalid p ht hstart hend] at h
          cases h

theorem tablesLoop_of_namelessTables {started : Bool} {s : Store} {ts : List JsonToken}
    (h : NamelessTables p started s ts) {fuel : Nat} {l r : List UInt8} (hl : l.length < fuel)
    (hspan : Spans ts l r) : tablesLoop p fuel started s l = .error (.code .crash) := by
  have hopen : ∀ {started : Bool} {s : Store} {ts : List JsonToken} {fuel : Nat} {l : List UInt8},
      l.length < fuel → Spans (openTable started ts) l r →
      (∀ fuel m, m.length ≤ fuel → Spans ts m r →
        tableRound p fuel s m = .error (.code .crash)) →
      tablesLoop p fuel started s l = .error (.code .crash) := by
    intro started s ts fuel l hl hspan hround
    obtain ⟨fuel, rfl⟩ := Nat.exists_eq_succ_of_ne_zero (Nat.ne_zero_of_lt hl)
    cases started with
    | true => exact hround fuel l (Nat.le_of_lt_succ hl) hspan
    | false =>
      obtain ⟨m, hm, hspan⟩ := hspan
      have hlen := length_of_parseToken hm
      rw [tablesLoop_open p hm]
      exact hround fuel m (by omega) hspan
  induction h generalizing fuel l with
  | @schema started s v hv =>
    refine hopen hl hspan fun fuel m _ hspan => ?_
    have hcrash := (crashes_tableSchema s.db m).mpr ⟨v, r, hv, hspan⟩
    rw [tableRound, (parseTable_crash_iff p).mpr hcrash]
  | @next started s s' v ts hv hts ih =>
    refine hopen hl hspan fun fuel m hm hspan => ?_
    obtain ⟨m₁, hspan, hrest⟩ := spans_append.mp hspan
    have htable := parseTable_of_tableText p hv hspan
    have hlt := length_parseTable_lt htable (by simp)
    rw [tableRound, htable]
    exact ih (by omega) hrest
  | @flat started s s' v ts hv hts ih =>
    refine hopen hl hspan fun fuel m hm hspan => ?_
    obtain ⟨m₁, hspan, hrest⟩ := spans_append.mp hspan
    have htable := parseTable_of_tableText p hv hspan
    have hlt := length_parseTable_lt htable (by simp)
    rw [tableRound, htable]
    exact ih (by omega) hrest

theorem crashes_tablesLoop (s : Store) :
    Crashes (fun l => tablesLoop p (l.length + 1) false s l) (NamelessTables p false s) := fun l =>
  ⟨namelessTables_of_tablesLoop p, fun ⟨_, _, hts, hspan⟩ =>
    tablesLoop_of_namelessTables p hts (Nat.lt_succ_self l.length) hspan⟩

/-! ### The file -/

/-- The outermost object up to a schema that ends the program. -/
inductive NamelessMembers : Store → List JsonToken → Prop
  | tables {s : Store} {ts : List JsonToken} (h : NamelessTables p false s ts) :
      NamelessMembers s (.string (cstr "tables") :: .colon :: .arrayStart :: ts)
  | more {key : CString} {s s' : Store} {v ts : List JsonToken} (h : TopMemberText p key s v s')
      (hrest : NamelessMembers s' ts) :
      NamelessMembers s (.string key :: .colon :: (v ++ .comma :: ts))

/-- **A document that ends the program**: its tokens up to a schema with a nameless column. -/
def NamelessDocument (s : Store) (ts : List JsonToken) : Prop :=
  ∃ us, ts = .objectStart :: us ∧ NamelessMembers p s us

/-- Of the members of the outermost object only the tables can end the program. -/
theorem topMember_crash_iff {key : CString} {s : Store} {l : List UInt8} :
    topMember p key s l = .error (.code .crash) ↔ key = cstr "tables" ∧
      ∃ ts r, NamelessTables p false s ts ∧ Spans (.arrayStart :: ts) l r := by
  constructor
  · intro h
    unfold topMember at h
    split_ifs at h with hmetadata htables
    · exact absurd h ((returns_metadata l).map _)
    · split at h
      next m hm =>
        obtain ⟨ts, r, hts, hspan⟩ := (crashes_tablesLoop p s m).mp h
        exact ⟨htables, ts, r, hts, m, hm, hspan⟩
      · cases h
    · exact absurd h ((returns_skipValueChecked l).map _)
  · rintro ⟨rfl, ts, r, hts, m, hm, hspan⟩
    rw [topMember, if_neg (by decide), if_pos rfl, hm]
    exact (crashes_tablesLoop p s m).mpr ⟨ts, r, hts, hspan⟩

theorem namelessMembers_of_parseMembers {fuel : Nat} {s : Store} {l : List UInt8}
    (h : parseMembers (topMember p) fuel s l = .error (.code .crash)) :
    ∃ ts r, NamelessMembers p s ts ∧ Spans ts l r := by
  induction fuel generalizing s l with
  | zero => cases h
  | succ fuel ih =>
    rw [parseMembers] at h
    split at h
    · cases h
    next key m hkey =>
      split at h
      next m₁ hcolon =>
        split at h
        next s₁ m₂ hok =>
          -- this member has been read, and the crash is behind its comma
          obtain ⟨v, hv, hspan⟩ := (decides_topMember p key s m₁ s₁ m₂).mp hok
          split at h
          next m₃ hcomma =>
            obtain ⟨ts, r, hts, hrest⟩ := ih h
            exact ⟨_, r, .more hv hts, m, hkey, m₁, hcolon,
              spans_append.mpr ⟨m₂, hspan, m₃, hcomma, hrest⟩⟩
          · cases h
          · cases h
        next e he =>
          cases h
          obtain ⟨rfl, ts, r, hts, hspan⟩ := (topMember_crash_iff p).mp he
          exact ⟨_, r, .tables hts, m, hkey, m₁, hcolon, hspan⟩
      · cases h
    · cases h

theorem parseMembers_of_namelessMembers {s : Store} {ts : List JsonToken}
    (h : NamelessMembers p s ts) {fuel : Nat} {l r : List UInt8} (hl : l.length < fuel)
    (hspan : Spans ts l r) : parseMembers (topMember p) fuel s l = .error (.code .crash) := by
  induction h generalizing fuel l with
  | @tables s ts hts =>
    obtain ⟨fuel, rfl⟩ := Nat.exists_eq_succ_of_ne_zero (Nat.ne_zero_of_lt hl)
    obtain ⟨m, hkey, m₁, hcolon, hspan⟩ := hspan
    have hcrash : topMember p (cstr "tables") s m₁ = .error (.code .crash) :=
      (topMember_crash_iff p).mpr ⟨rfl, ts, r, hts, hspan⟩
    rw [parseMembers, hkey]
    dsimp only
    rw [hcolon]
    dsimp only
    rw [hcrash]
  | @more key s s' v ts hv hts ih =>
    obtain ⟨fuel, rfl⟩ := Nat.exists_eq_succ_of_ne_zero (Nat.ne_zero_of_lt hl)
    obtain ⟨m, hkey, m₁, hcolon, hspan⟩ := hspan
    obtain ⟨m₂, hspan, m₃, hcomma, hrest⟩ := spans_append.mp hspan
    have hok := (decides_topMember p key s m₁ s' m₂).mpr ⟨v, hv, hspan⟩
    have h1 := length_parseToken_lt hkey (by simp) (by simp)
    have h2 := length_of_parseToken hcolon
    have h3 := hspan.length_le
    have h4 := length_of_parseToken hcomma
    rw [parseMembers, hkey]
    dsimp only
    rw [hcolon]
    dsimp only
    rw [hok]
    dsimp only
    rw [hcomma]
    exact ih (by omega) hrest

theorem loadContent_crash_iff {counter : Int} {text : List UInt8} :
    loadContent p counter text = .error (.code .crash) ↔
      ∃ ts r, NamelessDocument p ⟨dbCreate, counter⟩ ts ∧ Spans ts text r := by
  constructor
  · intro h
    unfold loadContent at h
    split at h
    next m hstart =>
      have hcrash : parseMembers (topMember p) (m.length + 1) ⟨dbCreate, counter⟩ m =
          .error (.code .crash) := by
        by_contra hne
        exact Returns.map hne Prod.fst h
      obtain ⟨us, r, hus, hspan⟩ := namelessMembers_of_parseMembers p hcrash
      exact ⟨_, r, ⟨us, rfl, hus⟩, m, hstart, hspan⟩
    · cases h
  · rintro ⟨_, r, ⟨us, rfl, hus⟩, m, hstart, hspan⟩
    rw [loadContent, hstart]
    dsimp only
    rw [parseMembers_of_namelessMembers p hus (Nat.lt_succ_self _) hspan]
    rfl

variable {p}

/-- **What ends the program**: the texts that begin with such a document, for which there is
memory. -/
theorem loadCrashes_iff {counter : Int} {text : List UInt8} :
    loadCrashes p counter (some text) = true ↔ p.malloc (text.length + 1) = true ∧
      ∃ ts r, NamelessDocument p ⟨dbCreate, counter⟩ ts ∧ Spans ts text r := by
  rw [← loadContent_crash_iff]
  unfold loadCrashes
  rw [Bool.and_eq_true]
  refine and_congr_right fun _ => ?_
  split
  next h => exact iff_of_true rfl h
  next h => exact iff_of_false (by simp) h

/-- A field definition without a name, in a text that is no JSON. -/
example : loadCrashes Platform.epoch 1000 (some (ascii
    "\x7b\"tables\":[\x7b\"name\":\"t\",\"fields\":[\x7b\"type\":\"INT\"\x7d,]\x7d]\x7d")) = true := by
  rfl

/-! ### The end of a reading -/

/-- A list of tokens that ends with a brace. -/
def EndsObject (ts : List JsonToken) : Prop := ∃ us, ts = us ++ [.objectEnd]

theorem EndsObject.append {us : List JsonToken} (h : EndsObject us) (ts : List JsonToken) :
    EndsObject (ts ++ us) := by
  obtain ⟨vs, rfl⟩ := h
  exact ⟨ts ++ vs, (List.append_assoc ..).symm⟩

theorem EndsObject.cons {ts : List JsonToken} (h : EndsObject ts) (t : JsonToken) :
    EndsObject (t :: ts) := h.append [t]

theorem endsObject_brace : EndsObject [.objectEnd] := ⟨[], rfl⟩

theorem Members.endsObject {value : CString → σ → List JsonToken → σ → Prop} {s s' : σ}
    {ts : List JsonToken} (h : Members value s ts s') : EndsObject ts := by
  induction h with
  | close => exact endsObject_brace
  | last _ => exact ((endsObject_brace.append _).cons _).cons _
  | more _ _ ih => exact (((ih.cons _).append _).cons _).cons _

theorem SchemaText.endsObject {draft draft' : SchemaDraft} {ts : List JsonToken}
    (h : SchemaText draft ts draft') : EndsObject ts := by
  induction h with
  | close => exact endsObject_brace
  | nested _ ih => exact ((ih.cons _).cons _).cons _
  | last _ _ => exact ((endsObject_brace.append _).cons _).cons _
  | more _ _ _ ih => exact (((ih.cons _).append _).cons _).cons _

theorem NamelessTables.endsObject {started : Bool} {s : Store} {ts : List JsonToken}
    (h : NamelessTables p started s ts) : EndsObject ts := by
  have hopen : ∀ {started : Bool} {ts : List JsonToken}, EndsObject ts →
      EndsObject (openTable started ts) := by
    intro started ts h
    cases started with
    | true => exact h
    | false => exact h.cons _
  induction h with
  | schema h =>
    obtain ⟨us, draft, rfl | rfl, hus, -, -⟩ := h
    · exact hopen hus.endsObject
    · exact hopen (hus.endsObject.cons _)
  | next _ _ ih => exact hopen (ih.append _)
  | flat _ _ ih => exact hopen (ih.append _)

theorem NamelessDocument.endsObject {s : Store} {ts : List JsonToken}
    (h : NamelessDocument p s ts) : EndsObject ts := by
  obtain ⟨us, rfl, hus⟩ := h
  refine EndsObject.cons ?_ _
  induction hus with
  | tables h => exact ((h.endsObject.cons _).cons _).cons _
  | more _ _ ih => exact (((ih.cons _).append _).cons _).cons _

end Luminix
