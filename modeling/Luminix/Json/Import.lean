import Luminix.Json.Parse

/-!
# Importing a table

`json_to_table` of `json_io.c`.  The functions that it calls work on the database of the caller and
leave it as it is when they fail, so they are translated once more here, with the state at that
point (`jsonParseTableSchemaKept`, `jsonParseTableRecordsKept`).  A column without a name ends the
program, which is the error `ErrorCode.crash` here.
-/

namespace Luminix

open CLib

/-! ### Records -/

variable {σ : Type}

/-- `parseElements`, with the state that is left behind. -/
def parseElementsKept (element : σ → List UInt8 → σ × Except Failure (List UInt8)) :
    (fuel : Nat) → σ → List UInt8 → σ × Except Failure (List UInt8)
  | 0, s, _ => (s, .error .outOfFuel)
  | fuel + 1, s, l =>
    match jsonParseToken l with
    | (.arrayEnd, l) => (s, .ok l)
    | (.objectStart, l) =>
      match element s l with
      | (s, .ok l) =>
        match jsonParseToken l with
        | (.comma, l) => parseElementsKept element fuel s l
        | (.arrayEnd, l) => (s, .ok l)
        | _ => (s, invalid)
      | (s, .error e) => (s, .error e)
    | _ => (s, invalid)

/-- `insertDraft`, with the store that is left behind. -/
def insertDraftKept (p : Platform) (i : Nat) (columns : List Column) (draft : RecordDraft)
    (s : Store) : Store × Except Failure Unit :=
  if draft.id = -1 then (s, .ok ())
  else
    match s.insertInto i p.now (some (setKeyField draft.id columns draft.values)) with
    | (.ok _, s) => (s, .ok ())
    | (.error .duplicateKey, s) => (s, .ok ())
    | (.error e, s) => (s, .error (.code e))

/-- `recordElement`, with the store that is left behind. -/
def recordElementKept (p : Platform) (i : Nat) (columns : List Column) (s : Store)
    (l : List UInt8) : Store × Except Failure (List UInt8) :=
  match parseMembers (recordMember p columns) (l.length + 1) ⟨-1, initialValues columns⟩ l with
  | .error e => (s, .error e)
  | .ok (draft, l) =>
    let (s, inserted) := insertDraftKept p i columns draft s
    (s, inserted.map fun _ => l)

/-- `json_parse_table_records`, with the store that is left behind. -/
def jsonParseTableRecordsKept (p : Platform) (i : Nat) (s : Store) (l : List UInt8) :
    Store × Except Failure (List UInt8) :=
  match s.db.tables[i]? with
  | none => (s, invalid)
  | some t =>
    match jsonParseToken l with
    | (.arrayStart, l) => parseElementsKept (recordElementKept p i t.columns) (l.length + 1) s l
    | _ => (s, invalid)

/-- The result for a caller that has no use for the state of a failure. -/
def dropFailed (r : σ × Except Failure (List UInt8)) : Except Failure (σ × List UInt8) :=
  r.2.map fun l => (r.1, l)

theorem dropFailed_eq_ok {r : σ × Except Failure (List UInt8)} {s : σ} {l : List UInt8} :
    dropFailed r = .ok (s, l) ↔ r = (s, .ok l) := by
  obtain ⟨s', _ | l'⟩ := r
  · constructor <;> (intro h; cases h)
  · constructor <;> (intro h; cases h; rfl)

theorem parseElements_eq {element : σ → List UInt8 → Except Failure (σ × List UInt8)}
    {elementKept : σ → List UInt8 → σ × Except Failure (List UInt8)}
    (helement : ∀ s l, element s l = dropFailed (elementKept s l)) (fuel : Nat) (s : σ)
    (l : List UInt8) :
    parseElements element fuel s l = dropFailed (parseElementsKept elementKept fuel s l) := by
  induction fuel generalizing s l with
  | zero => rfl
  | succ fuel ih =>
    rw [parseElements, parseElementsKept]
    obtain ⟨t, m⟩ := jsonParseToken l
    cases t
    case objectStart =>
      dsimp only
      rw [helement]
      obtain ⟨s', _ | l'⟩ := elementKept s m
      · rfl
      · show (match jsonParseToken l' with
          | (.comma, l) => parseElements element fuel s' l
          | (.arrayEnd, l) => .ok (s', l)
          | _ => invalid) = _
        dsimp only
        obtain ⟨u, n⟩ := jsonParseToken l'
        cases u
        case comma => exact ih s' n
        all_goals rfl
    all_goals rfl

theorem insertDraft_eq (p : Platform) (i : Nat) (columns : List Column) (draft : RecordDraft)
    (s : Store) : insertDraft p i columns draft s =
      (insertDraftKept p i columns draft s).2.map fun _ =>
        (insertDraftKept p i columns draft s).1 := by
  unfold insertDraft insertDraftKept
  split_ifs
  · rfl
  · rcases s.insertInto i p.now (some (setKeyField draft.id columns draft.values)) with ⟨e | id, s'⟩
    · cases e <;> rfl
    · rfl

theorem recordElement_eq (p : Platform) (i : Nat) (columns : List Column) (s : Store)
    (l : List UInt8) :
    recordElement p i columns s l = dropFailed (recordElementKept p i columns s l) := by
  unfold recordElement recordElementKept
  cases parseMembers (recordMember p columns) (l.length + 1) ⟨-1, initialValues columns⟩ l with
  | error e => rfl
  | ok r =>
    obtain ⟨draft, l'⟩ := r
    dsimp only
    rw [insertDraft_eq]
    cases (insertDraftKept p i columns draft s).2 <;> rfl

/-- **The two translations agree.** -/
theorem jsonParseTableRecords_eq (p : Platform) (i : Nat) (s : Store) (l : List UInt8) :
    jsonParseTableRecords p i s l = dropFailed (jsonParseTableRecordsKept p i s l) := by
  unfold jsonParseTableRecords jsonParseTableRecordsKept
  cases s.db.tables[i]? with
  | none => rfl
  | some t =>
    dsimp only
    obtain ⟨u, m⟩ := jsonParseToken l
    cases u
    case arrayStart => exact parseElements_eq (recordElement_eq p i t.columns) (m.length + 1) s m
    all_goals rfl

/-! ### The schema -/

/-- `json_parse_table_schema`, with the database that is left behind. -/
def jsonParseTableSchemaKept (db : Database) (l : List UInt8) :
    Database × Except Failure (List UInt8) :=
  match schemaLoop (l.length + 1) ⟨cstr "", []⟩ (schemaStart l).1 (schemaStart l).2 with
  | .error e => (db, .error e)
  | .ok (draft, l) =>
    if 0 < draft.name.length ∧ 0 < draft.fields.length then
      match dbAddTable db (some draft.name) (some draft.fields) with
      | (.success, db) => (db, .ok l)
      | (e, db) => (db, .error (.code e))
    else (db, invalid)

theorem jsonParseTableSchema_eq (db : Database) (l : List UInt8) :
    jsonParseTableSchema db l = dropFailed (jsonParseTableSchemaKept db l) := by
  unfold jsonParseTableSchema jsonParseTableSchemaKept
  cases schemaLoop (l.length + 1) ⟨cstr "", []⟩ (schemaStart l).1 (schemaStart l).2 with
  | error e => rfl
  | ok r =>
    obtain ⟨draft, l'⟩ := r
    dsimp only
    split_ifs
    · obtain ⟨e, db'⟩ := dbAddTable db (some draft.name) (some draft.fields)
      cases e <;> rfl
    · rfl

/-! ### The table -/

/-- The second half of `json_to_table`: the records of table `i`, if the key follows. -/
def importRecords (p : Platform) (i : Nat) (s : Store) (l : List UInt8) : Option Nat × Store :=
  match jsonParseToken l with
  | (.comma, l) =>
    match jsonParseToken l with
    | (.string key, l) =>
      if key = cstr "records" then
        match jsonParseToken l with
        | (.colon, l) =>
          match jsonParseTableRecordsKept p i s l with
          | (s, .ok _) => (some i, s)
          | (s, .error _) => (none, s)
        | _ => (none, s)
      else (some i, s)
    | _ => (some i, s)
  | _ => (some i, s)

/-- `json_to_table`: the place of the table, or none for a null pointer, and the store.  The options
change nothing. -/
def jsonToTable (p : Platform) (s : Store) (jsonStr : Option CString) : Option Nat × Store :=
  match jsonStr with
  | none => (none, s)
  | some text =>
    match jsonParseTableSchemaKept s.db text.bytes with
    | (db, .error _) => (none, { s with db })
    | (db, .ok l) => importRecords p (db.tableCount - 1) { s with db } l

end Luminix
