import Luminix.Equiv.Layout

/-!
# The layout of tables

What the loader makes of a table object, whatever the order of its members.  It reads the members in
front of the schema as part of the schema, and of those behind it the records only; without a schema
all members are read as one (`tableRun`).  `load_layout` says so for whole texts.
-/

namespace Luminix

open CLib TokenReader

/-! ### Table objects -/

/-- A member of a table object. -/
inductive TableEntry
  | schema (schema : List SchemaEntry)
  | records (records : List (List RecordEntry))
  | entry (e : SchemaEntry)

def TableEntry.member : TableEntry → CString × List JsonToken
  | .schema es => (cstr "schema", objectTokens (es.map SchemaEntry.member))
  | .records rs => (cstr "records", recordsTokens rs)
  | .entry e => e.member

theorem TableEntry.tokens (e : TableEntry) : ValueTokens e.member.2 := by
  cases e with
  | schema es => exact valueTokens_object SchemaEntry.member SchemaEntry.tokens es
  | records rs => exact valueTokens_objects RecordEntry.member RecordEntry.tokens rs
  | entry e => exact e.tokens

/-- What is read as the schema: the members in front of it and its own. -/
def readSchema : List TableEntry → List SchemaEntry
  | [] => []
  | .schema es :: _ => es
  | .records _ :: ms => readSchema ms
  | .entry e :: ms => e :: readSchema ms

/-- The members behind the schema. -/
def behindSchema : List TableEntry → List TableEntry
  | [] => []
  | .schema _ :: ms => ms
  | .records _ :: ms => behindSchema ms
  | .entry _ :: ms => behindSchema ms

/-- The name and the fields of the table. -/
def schemaDraft (ms : List TableEntry) : SchemaDraft :=
  ⟨schemaName (readSchema ms), schemaFields (readSchema ms)⟩

variable (p : Platform)

/-- Reading a member behind the schema of table `i`. -/
def siblingRun (i : Nat) (s : Store) : TableEntry → Option Store
  | .records rs => insertRecords p i s rs
  | _ => some s

/-- **Loading a table object.** -/
def tableRun (s : Store) (ms : List TableEntry) : Option Store :=
  (addSchema s.db (schemaDraft ms)).bind fun db =>
    (behindSchema ms).foldlM (siblingRun p (db.tableCount - 1)) { s with db }

/-! ### The loop over a schema -/

/-- The members of a table object, after its `{`. -/
def tableTail (ms : List TableEntry) : List JsonToken :=
  objectTail ((ms.map TableEntry.member).map fun m => memberTokens m.1 m.2)

/-- The members of a table object behind the first. -/
def furtherTokens : List TableEntry → List JsonToken
  | [] => [.objectEnd]
  | e :: ms => .comma :: .string e.member.1 :: .colon :: (e.member.2 ++ furtherTokens ms)

theorem tableTail_cons (e : TableEntry) (ms : List TableEntry) :
    tableTail (e :: ms) = .string e.member.1 :: .colon :: (e.member.2 ++ furtherTokens ms) := by
  induction ms generalizing e with
  | nil => rfl
  | cons e' ms ih =>
    have hsep : tableTail (e :: e' :: ms) =
        .string e.member.1 :: .colon :: (e.member.2 ++ .comma :: tableTail (e' :: ms)) := by
      simp [tableTail, objectTail, sepBy, memberTokens]
    rw [hsep, ih, furtherTokens]

theorem furtherTokens_cons (e : TableEntry) (ms : List TableEntry) :
    furtherTokens (e :: ms) = .comma :: tableTail (e :: ms) := by
  rw [tableTail_cons, furtherTokens]

/-- A schema after a member in front of it has been read: records are skipped. -/
def TableEntry.apply (draft : SchemaDraft) : TableEntry → SchemaDraft
  | .entry e => e.apply draft
  | _ => draft

/-- The entry is not a schema. -/
def TableEntry.IsMember : TableEntry → Prop
  | .schema _ => False
  | _ => True

theorem SchemaEntry.key_notMem (e : SchemaEntry) :
    e.member.1 ≠ cstr "schema" ∧ e.member.1 ≠ cstr "records" := by
  have hname : cstr "name" ≠ cstr "schema" ∧ cstr "name" ≠ cstr "records" := by decide
  have hfields : cstr "fields" ≠ cstr "schema" ∧ cstr "fields" ≠ cstr "records" := by decide
  cases e with
  | name n => exact hname
  | fields defs => exact hfields
  | other m =>
    have hkey := m.key_notMem
    simp only [List.mem_cons, List.not_mem_nil, or_false, not_or] at hkey
    exact hkey.2.2

theorem parses_tableEntry {e : TableEntry} (he : e.IsMember) :
    e.member.1 ≠ cstr "schema" ∧
      ∀ draft, Parses (schemaMember e.member.1 draft) e.member.2 (some (e.apply draft)) := by
  cases e with
  | schema es => exact absurd he id
  | records rs =>
    have hrecords : cstr "records" ≠ cstr "schema" := by decide
    refine ⟨hrecords, fun draft rest l l' h => ?_⟩
    show Yields rest l' (some draft) (schemaMember (cstr "records") draft l)
    rw [schemaMember, if_neg (by decide), if_neg (by decide)]
    exact parses_skipValue (TableEntry.records rs).tokens.skips draft rest l l' h
  | entry e => exact ⟨e.key_notMem.1, parses_schemaEntry e⟩

/-- A round of the loop over a schema that a comma follows. -/
theorem schemaLoop_round {key : CString} (hne : key ≠ cstr "schema") {v k : List JsonToken}
    {draft draft' : SchemaDraft} (hread : Parses (schemaMember key draft) v (some draft'))
    {fuel : Nat} {l l' : List UInt8} (hl : l.length < fuel + 1)
    (h : Reads jsonParseToken .none (.string key :: .colon :: (v ++ .comma :: k)) l l') :
    ∃ l₁, l₁.length < fuel ∧ Reads jsonParseToken .none k l₁ l' ∧
      schemaLoop (fuel + 1) draft (jsonParseToken l).1 (jsonParseToken l).2 =
        schemaLoop fuel draft' (jsonParseToken l₁).1 (jsonParseToken l₁).2 := by
  obtain ⟨l₁, hkey, h⟩ := h.head (by simp)
  obtain ⟨l₂, hcolon, h⟩ := h.head (by simp)
  have h1 := length_parseToken_lt hkey (by simp) (by simp)
  have h2 := length_of_parseToken hcolon
  have hvalue := hread _ l₂ l' h
  have hsteady := steady_schemaMember key draft l₂
  rw [hkey]
  dsimp only
  rw [schemaLoop, hcolon]
  dsimp only
  rw [if_neg hne]
  generalize schemaMember key draft l₂ = r at hvalue hsteady
  cases hvalue with
  | @done _ l₃ hrest =>
    have h3 : l₃.length ≤ l₂.length := hsteady
    obtain ⟨l₄, hcomma, hrest⟩ := hrest.head (by simp)
    have h4 := length_of_parseToken hcomma
    dsimp only
    rw [hcomma]
    exact ⟨l₄, by omega, hrest, rfl⟩

/-- The loop over a table object without a schema reads it whole. -/
theorem settles_flatLoop {ms : List TableEntry} (hms : ∀ e ∈ ms, e.IsMember) {fuel : Nat}
    {rest : List JsonToken} (draft : SchemaDraft) {l l' : List UInt8} (hl : l.length < fuel)
    (h : Reads jsonParseToken .none (tableTail ms ++ rest) l l') :
    Settles rest l' (some (ms.foldl TableEntry.apply draft))
      (schemaLoop fuel draft (jsonParseToken l).1 (jsonParseToken l).2) := by
  rw [← runParts_entryPart TableEntry.member TableEntry.apply]
  rw [tableTail, ← partsTail_entryPart TableEntry.member TableEntry.apply] at h
  refine settles_schemaLoop (fun m hm => ?_) draft hl h
  obtain ⟨e, he, rfl⟩ := List.mem_map.mp hm
  obtain ⟨hne, hread⟩ := parses_tableEntry (hms e he)
  exact ⟨hne, Part.readBy_of hread⟩

/-- In front of another member a member is read like one of the schema. -/
theorem schemaLoop_member {e e' : TableEntry} (he : e.IsMember) (ms : List TableEntry) {fuel : Nat}
    {rest : List JsonToken} (draft : SchemaDraft) {l l' : List UInt8} (hl : l.length < fuel + 1)
    (h : Reads jsonParseToken .none (tableTail (e :: e' :: ms) ++ rest) l l') :
    ∃ l₁, l₁.length < fuel ∧ Reads jsonParseToken .none (tableTail (e' :: ms) ++ rest) l₁ l' ∧
      schemaLoop (fuel + 1) draft (jsonParseToken l).1 (jsonParseToken l).2 =
        schemaLoop fuel (e.apply draft) (jsonParseToken l₁).1 (jsonParseToken l₁).2 := by
  obtain ⟨hne, hread⟩ := parses_tableEntry he
  rw [tableTail_cons, furtherTokens_cons, List.cons_append, List.cons_append,
    List.append_assoc] at h
  exact schemaLoop_round hne (hread draft) hl h

/-- The key `schema` opens a nested object, and the loop ends with it. -/
theorem settles_schemaKey (es : List SchemaEntry) (ms : List TableEntry) {fuel : Nat}
    {rest : List JsonToken} (draft : SchemaDraft) {l l' : List UInt8} (hl : l.length < fuel + 1)
    (h : Reads jsonParseToken .none (tableTail (.schema es :: ms) ++ rest) l l') :
    Settles (furtherTokens ms ++ rest) l' (some (es.foldl SchemaEntry.apply draft))
      (schemaLoop (fuel + 1) draft (jsonParseToken l).1 (jsonParseToken l).2) := by
  rw [tableTail_cons, List.cons_append, List.cons_append, List.append_assoc] at h
  obtain ⟨l₁, hkey, h⟩ := h.head (by simp)
  obtain ⟨l₂, hcolon, h⟩ := h.head (by simp)
  obtain ⟨l₃, hstart, h⟩ := Reads.head h (by simp)
  have h1 := length_parseToken_lt hkey (by simp) (by simp)
  have h2 := length_of_parseToken hcolon
  have h3 := length_of_parseToken hstart
  have hnested : schemaLoop (fuel + 1) draft (.string (cstr "schema")) l₁ =
      schemaLoop fuel draft (jsonParseToken l₃).1 (jsonParseToken l₃).2 := by
    rw [schemaLoop, hcolon]
    dsimp only
    rw [if_pos rfl, hstart]
  rw [hkey]
  show Settles _ l' _ (schemaLoop (fuel + 1) draft (.string (cstr "schema")) l₁)
  rw [hnested, ← runParts_entryPart SchemaEntry.member SchemaEntry.apply]
  refine settles_schemaLoop (fun m hm => ?_) draft (by omega) ?_
  · obtain ⟨e, -, rfl⟩ := List.mem_map.mp hm
    exact ⟨e.key_notMem.1, Part.readBy_of (parses_schemaEntry e)⟩
  · rw [partsTail_entryPart]
    exact h

/-- The loop over a table object with a schema ends behind the schema. -/
theorem settles_nestedLoop {ms : List TableEntry} (hms : ∃ e ∈ ms, ¬e.IsMember) {fuel : Nat}
    {rest : List JsonToken} (draft : SchemaDraft) {l l' : List UInt8} (hl : l.length < fuel)
    (h : Reads jsonParseToken .none (tableTail ms ++ rest) l l') :
    Settles (furtherTokens (behindSchema ms) ++ rest) l'
      (some ((readSchema ms).foldl SchemaEntry.apply draft))
      (schemaLoop fuel draft (jsonParseToken l).1 (jsonParseToken l).2) := by
  induction ms generalizing fuel draft l with
  | nil =>
    obtain ⟨e, he, -⟩ := hms
    exact absurd he List.not_mem_nil
  | cons e ms ih =>
    obtain ⟨fuel, rfl⟩ := Nat.exists_eq_succ_of_ne_zero (Nat.ne_zero_of_lt hl)
    by_cases he : e.IsMember
    · -- the schema comes later, so there is another member
      have hrest : ∃ e ∈ ms, ¬e.IsMember := by
        obtain ⟨e', he', hnot⟩ := hms
        rcases List.mem_cons.mp he' with rfl | he'
        · exact absurd he hnot
        · exact ⟨e', he', hnot⟩
      obtain ⟨e', ms', rfl⟩ : ∃ e' ms', ms = e' :: ms' := by
        obtain ⟨e', he', -⟩ := hrest
        exact List.exists_cons_of_ne_nil (List.ne_nil_of_mem he')
      obtain ⟨l₁, hlt, hreads, heq⟩ := schemaLoop_member he ms' draft hl h
      rw [heq]
      cases e with
      | schema es => exact absurd he id
      | records rs => exact ih hrest draft hlt hreads
      | entry e => exact ih hrest (e.apply draft) hlt hreads
    · cases e with
      | schema es => exact settles_schemaKey es ms draft hl h
      | records rs => exact absurd trivial he
      | entry e => exact absurd trivial he

/-! ### The schema of a table object -/

/-- Without a schema nothing stands behind it, and all members are read. -/
theorem readSchema_of_isMember {ms : List TableEntry} (hms : ∀ e ∈ ms, e.IsMember) :
    behindSchema ms = [] ∧ ∀ draft : SchemaDraft,
      ms.foldl TableEntry.apply draft = (readSchema ms).foldl SchemaEntry.apply draft := by
  induction ms with
  | nil => exact ⟨rfl, fun _ => rfl⟩
  | cons e ms ih =>
    obtain ⟨hnil, hfold⟩ := ih fun x hx => hms x (List.mem_cons_of_mem e hx)
    cases e with
    | schema es => exact absurd (hms _ List.mem_cons_self) id
    | records rs => exact ⟨hnil, hfold⟩
    | entry e => exact ⟨hnil, fun draft => hfold (e.apply draft)⟩

/-- Of the draft that the loop starts with nothing is left. -/
theorem foldl_readSchema (ms : List TableEntry) :
    (readSchema ms).foldl SchemaEntry.apply ⟨cstr "", []⟩ = schemaDraft ms := by
  have htruncate : (cstr "").truncate (maxTableName - 1) = cstr "" := by decide
  rw [foldl_schemaEntry, schemaDraft, schemaName, List.nil_append]
  congr 1
  cases ((readSchema ms).filterMap SchemaEntry.name?).getLast? with
  | none => exact htruncate.symm
  | some n => rfl

/-- A table object has no second brace. -/
theorem schemaStart_of_reads {ms : List TableEntry} {rest : List JsonToken} {l l' : List UInt8}
    (h : Reads jsonParseToken .none (tableTail ms ++ rest) l l') :
    schemaStart l = jsonParseToken l := by
  unfold schemaStart
  cases ms with
  | nil =>
    obtain ⟨l₁, h1, -⟩ := h.head (by simp)
    rw [h1]
  | cons e ms =>
    rw [tableTail_cons, List.cons_append] at h
    obtain ⟨l₁, h1, -⟩ := h.head (by simp)
    rw [h1]

theorem settles_flatSchema (db : Database) {ms : List TableEntry} (hms : ∀ e ∈ ms, e.IsMember)
    {rest : List JsonToken} {l l' : List UInt8}
    (h : Reads jsonParseToken .none (tableTail ms ++ rest) l l') :
    Settles rest l' (addSchema db (schemaDraft ms)) (jsonParseTableSchema db l) := by
  have hloop := settles_flatLoop hms ⟨cstr "", []⟩ (Nat.lt_succ_self l.length) h
  rw [(readSchema_of_isMember hms).2, foldl_readSchema, ← schemaStart_of_reads h] at hloop
  exact settles_tableSchema_of db hloop

theorem settles_nestedSchema (db : Database) {ms : List TableEntry} (hms : ∃ e ∈ ms, ¬e.IsMember)
    {rest : List JsonToken} {l l' : List UInt8}
    (h : Reads jsonParseToken .none (tableTail ms ++ rest) l l') :
    Settles (furtherTokens (behindSchema ms) ++ rest) l'
      (addSchema db (schemaDraft ms)) (jsonParseTableSchema db l) := by
  have hloop := settles_nestedLoop hms ⟨cstr "", []⟩ (Nat.lt_succ_self l.length) h
  rw [foldl_readSchema, ← schemaStart_of_reads h] at hloop
  exact settles_tableSchema_of db hloop

/-! ### Behind the schema -/

/-- A member whose value is skipped, where an error would be passed on. -/
theorem settles_skipValueChecked {σ : Type} {toks : List JsonToken} (h : Skips toks) (s : σ)
    {rest : List JsonToken} {l l' : List UInt8}
    (hreads : Reads jsonParseToken .none (toks ++ rest) l l') :
    Settles rest l' (some s) ((skipValueChecked l).map fun l => (s, l)) := by
  have hle := length_parseToken_le l
  obtain ⟨l₁, hskip, hrest⟩ := h.skip (l.length + 1) rest l l' (by omega) hreads
  rw [skipValueChecked, hskip]
  exact .done hrest

/-- Behind the schema `records` is read, and all else is skipped. -/
theorem settles_sibling (i : Nat) (s : Store) (e : TableEntry) {rest : List JsonToken}
    {l l' : List UInt8} (h : Reads jsonParseToken .none (e.member.2 ++ rest) l l') :
    Settles rest l' (siblingRun p i s e) (siblingMember p i e.member.1 s l) := by
  have hschema : cstr "schema" ≠ cstr "records" := by decide
  unfold siblingMember
  cases e with
  | schema es =>
    show Settles rest l' (some s) (if cstr "schema" = cstr "records" then _ else _)
    rw [if_neg hschema]
    exact settles_skipValueChecked (TableEntry.schema es).tokens.skips s h
  | records rs =>
    show Settles rest l' (insertRecords p i s rs) (if cstr "records" = cstr "records" then _ else _)
    rw [if_pos rfl]
    exact settles_insertRecords p i rs s h
  | entry e =>
    show Settles rest l' (some s) (if e.member.1 = cstr "records" then _ else _)
    rw [if_neg e.key_notMem.2]
    exact settles_skipValueChecked e.tokens.skips s h

/-- The loop over the members behind the schema. -/
theorem settles_siblingLoop (i : Nat) (ms : List TableEntry) {fuel : Nat} {rest : List JsonToken}
    (s : Store) {l l' : List UInt8} (hl : l.length < fuel)
    (h : Reads jsonParseToken .none (furtherTokens ms ++ rest) l l') :
    Settles rest l' (ms.foldlM (siblingRun p i) s) (siblingLoop p i fuel s l) := by
  induction ms generalizing fuel s l with
  | nil =>
    obtain ⟨fuel, rfl⟩ := Nat.exists_eq_succ_of_ne_zero (Nat.ne_zero_of_lt hl)
    obtain ⟨l₁, h1, hrest⟩ := Reads.head h (by simp)
    rw [siblingLoop, h1]
    exact .done hrest
  | cons e ms ih =>
    obtain ⟨fuel, rfl⟩ := Nat.exists_eq_succ_of_ne_zero (Nat.ne_zero_of_lt hl)
    rw [furtherTokens, List.cons_append, List.cons_append, List.cons_append, List.append_assoc] at h
    obtain ⟨l₁, hcomma, h⟩ := h.head (by simp)
    obtain ⟨l₂, hkey, h⟩ := h.head (by simp)
    obtain ⟨l₃, hcolon, h⟩ := h.head (by simp)
    have h1 := length_parseToken_lt hcomma (by simp) (by simp)
    have h2 := length_of_parseToken hkey
    have h3 := length_of_parseToken hcolon
    have hvalue := settles_sibling p i s e h
    have hsteady := steady_siblingMember p i e.member.1 s l₃
    rw [siblingLoop, hcomma, List.foldlM_cons]
    dsimp only
    rw [hkey]
    dsimp only
    rw [hcolon]
    dsimp only
    generalize siblingMember p i e.member.1 s l₃ = r at hvalue hsteady
    generalize siblingRun p i s e = res at hvalue
    cases hvalue with
    | @done s' l₄ hrest =>
      have h4 : l₄.length ≤ l₃.length := hsteady
      exact ih s' (by omega) hrest
    | failed => exact .failed

/-! ### Tables -/

/-- The members behind the schema, from behind the colon of the first. -/
theorem settles_tableSiblings (i : Nat) (s : Store) (e : TableEntry) (ms : List TableEntry)
    (after : AfterTable) {sep : JsonToken} (hsep : after.IsAt sep) (hne : sep ≠ .none)
    {rest : List JsonToken} {l l' : List UInt8} (h : Reads jsonParseToken .none
      (e.member.2 ++ (furtherTokens ms ++ sep :: rest)) l l') :
    SettlesTable after rest l' ((e :: ms).foldlM (siblingRun p i) s)
      (tableSiblings p i e.member.1 s l) := by
  have hvalue := settles_sibling p i s e h
  rw [List.foldlM_cons]
  unfold tableSiblings
  generalize siblingMember p i e.member.1 s l = r at hvalue
  generalize siblingRun p i s e = res at hvalue
  cases hvalue with
  | failed => exact .failed
  | @done s₁ l₁ h =>
    have hloop := settles_siblingLoop p i ms s₁ (Nat.lt_succ_self l₁.length) h
    dsimp only
    rw [Option.bind_eq_bind, Option.bind_some]
    generalize siblingLoop p i (l₁.length + 1) s₁ l₁ = r at hloop
    generalize ms.foldlM (siblingRun p i) s₁ = res at hloop
    cases hloop with
    | failed => exact .failed
    | done h =>
      obtain ⟨l₂, hnext, hrest⟩ := h.head hne
      dsimp only
      rw [afterOuterTable_eq hsep hnext]
      exact .done hrest

/-- **A table object with a schema.** -/
theorem settles_nestedTable (s : Store) {ms : List TableEntry} (hms : ∃ e ∈ ms, ¬e.IsMember)
    (after : AfterTable) {sep : JsonToken} (hsep : after.IsAt sep) {rest : List JsonToken}
    {l l' : List UInt8} (h : Reads jsonParseToken .none (tableTail ms ++ sep :: rest) l l') :
    SettlesTable after rest l' (tableRun p s ms) (parseTable p s l) := by
  have hne : sep ≠ .none := by
    rintro rfl
    cases after <;> cases hsep
  have hschema := settles_nestedSchema s.db hms h
  unfold parseTable tableRun
  generalize jsonParseTableSchema s.db l = res at hschema
  generalize addSchema s.db (schemaDraft ms) = added at hschema
  cases hschema with
  | failed => exact .failed
  | @done db l₁ h =>
    dsimp only
    rw [Option.bind_some]
    cases hbehind : behindSchema ms with
    | nil =>
      rw [hbehind] at h
      obtain ⟨l₂, hend, h⟩ := Reads.head h (by simp)
      obtain ⟨l₃, hnext, hrest⟩ := Reads.head h hne
      rw [hend]
      dsimp only
      rw [afterOuterTable_eq hsep hnext]
      exact .done hrest
    | cons e ms' =>
      rw [hbehind, furtherTokens, List.cons_append, List.cons_append, List.cons_append,
        List.append_assoc] at h
      obtain ⟨l₂, hcomma, h⟩ := h.head (by simp)
      obtain ⟨l₃, hkey, h⟩ := h.head (by simp)
      obtain ⟨l₄, hcolon, h⟩ := h.head (by simp)
      rw [hcomma]
      dsimp only
      rw [hkey]
      dsimp only
      rw [hcolon]
      exact settles_tableSiblings p (db.tableCount - 1) { s with db } e ms' after hsep hne h

/-- **A table object without a schema** is read as the schema. -/
theorem settles_flatTable (s : Store) {ms : List TableEntry} (hms : ∀ e ∈ ms, e.IsMember)
    {after : AfterTable} {k : List JsonToken}
    (hafter : (after = .arrayEnd ∧ k = [.arrayEnd]) ∨ (after = .table ∧ k = [.comma, .objectStart]))
    {rest : List JsonToken} {l l' : List UInt8}
    (h : Reads jsonParseToken .none (tableTail ms ++ (k ++ rest)) l l') :
    SettlesTable after rest l' (tableRun p s ms) (parseTable p s l) := by
  have hschema := settles_flatSchema s.db hms h
  unfold parseTable tableRun
  rw [(readSchema_of_isMember hms).1]
  generalize jsonParseTableSchema s.db l = res at hschema
  generalize addSchema s.db (schemaDraft ms) = added at hschema
  cases hschema with
  | failed => exact .failed
  | @done db l₁ h =>
    dsimp only
    rcases hafter with ⟨rfl, rfl⟩ | ⟨rfl, rfl⟩
    · obtain ⟨l₂, hend, hrest⟩ := Reads.head h (by simp)
      rw [hend]
      exact .done hrest
    · obtain ⟨l₂, hcomma, h⟩ := Reads.head h (by simp)
      obtain ⟨l₃, hstart, hrest⟩ := Reads.head h (by simp)
      rw [hcomma]
      dsimp only
      rw [hstart]
      exact .done hrest

/-! ### The array of tables -/

/-- What follows a table object in the array. -/
def furtherTables : List (List TableEntry) → List JsonToken
  | [] => [.arrayEnd]
  | ms :: tables => .comma :: .objectStart :: (tableTail ms ++ furtherTables tables)

/-- The tokens of the array of tables, after its `[`. -/
def tablesTail (tables : List (List TableEntry)) : List JsonToken :=
  arrayTail (tables.map fun ms => objectTokens (ms.map TableEntry.member))

theorem tablesTail_cons (ms : List TableEntry) (tables : List (List TableEntry)) :
    tablesTail (ms :: tables) = .objectStart :: (tableTail ms ++ furtherTables tables) := by
  induction tables generalizing ms with
  | nil => simp [tablesTail, arrayTail, sepBy, objectTokens, tableTail, furtherTables]
  | cons ms' tables ih =>
    have hsep : tablesTail (ms :: ms' :: tables) =
        objectTokens (ms.map TableEntry.member) ++ .comma :: tablesTail (ms' :: tables) := by
      simp [tablesTail, arrayTail, sepBy]
    rw [hsep, ih, furtherTables]
    rfl

theorem tablesLoop_started {fuel : Nat} (s : Store) (l : List UInt8) :
    tablesLoop p (fuel + 1) true s l = tableRound p fuel s l := by
  rw [tablesLoop]
  rfl

/-- **The tables are read one by one**, from behind the `{` of the first. -/
theorem settles_tableRound (ms : List TableEntry) (tables : List (List TableEntry)) {fuel : Nat}
    {rest : List JsonToken} (s : Store) {l l' : List UInt8} (hl : l.length ≤ fuel)
    (h : Reads jsonParseToken .none (tableTail ms ++ (furtherTables tables ++ rest)) l l') :
    Settles rest l' ((ms :: tables).foldlM (tableRun p) s) (tableRound p fuel s l) := by
  induction tables generalizing ms fuel s l with
  | nil =>
    -- the last table, with or without a schema, ends the array
    have htable : SettlesTable .arrayEnd rest l' (tableRun p s ms) (parseTable p s l) := by
      by_cases hms : ∀ e ∈ ms, e.IsMember
      · exact settles_flatTable p s hms (.inl ⟨rfl, rfl⟩) h
      · push Not at hms
        exact settles_nestedTable p s hms .arrayEnd rfl h
    rw [List.foldlM_cons]
    unfold tableRound
    generalize parseTable p s l = r at htable
    generalize tableRun p s ms = res at htable
    cases htable with
    | done hrest => exact .done hrest
    | failed => exact .failed
  | cons ms' tables ih =>
    have hsteady := steadyTable_parseTable p s l
    rw [List.foldlM_cons]
    unfold tableRound
    by_cases hms : ∀ e ∈ ms, e.IsMember
    · -- the `{` of the next table has been read with the comma
      have h' : Reads jsonParseToken .none (tableTail ms ++ ([.comma, .objectStart] ++
          (tableTail ms' ++ (furtherTables tables ++ rest)))) l l' := by
        simpa [furtherTables] using h
      have htable := settles_flatTable p s hms (.inr ⟨rfl, rfl⟩) h'
      generalize parseTable p s l = r at htable hsteady
      generalize tableRun p s ms = res at htable
      cases htable with
      | failed => exact .failed
      | @done s₁ l₁ hrest =>
        have hlt := hsteady.2 (by simp)
        obtain ⟨fuel, rfl⟩ := Nat.exists_eq_succ_of_ne_zero (Nat.ne_zero_of_lt (hlt.trans_le hl))
        dsimp only
        rw [tablesLoop_started]
        exact ih ms' s₁ (by omega) hrest
    · push Not at hms
      have h' : Reads jsonParseToken .none (tableTail ms ++ .comma ::
          .objectStart :: (tableTail ms' ++ (furtherTables tables ++ rest))) l l' := by
        simpa [furtherTables] using h
      have htable := settles_nestedTable p s hms .element rfl h'
      generalize parseTable p s l = r at htable hsteady
      generalize tableRun p s ms = res at htable
      cases htable with
      | failed => exact .failed
      | @done s₁ l₁ hrest =>
        have hlt := hsteady.2 (by simp)
        obtain ⟨fuel, rfl⟩ := Nat.exists_eq_succ_of_ne_zero (Nat.ne_zero_of_lt (hlt.trans_le hl))
        obtain ⟨l₂, hstart, hrest⟩ := hrest.head (by simp)
        have h2 := length_of_parseToken hstart
        dsimp only
        rw [tablesLoop_open p hstart]
        exact ih ms' s₁ (by omega) hrest

/-- The array of tables, after its `[`. -/
theorem settles_tableObjects (tables : List (List TableEntry)) {fuel : Nat} {rest : List JsonToken}
    (s : Store) {l l' : List UInt8} (hl : l.length < fuel)
    (h : Reads jsonParseToken .none (tablesTail tables ++ rest) l l') :
    Settles rest l' (tables.foldlM (tableRun p) s) (tablesLoop p fuel false s l) := by
  obtain ⟨fuel, rfl⟩ := Nat.exists_eq_succ_of_ne_zero (Nat.ne_zero_of_lt hl)
  cases tables with
  | nil =>
    obtain ⟨l₁, h1, hrest⟩ := Reads.head h (by simp)
    rw [tablesLoop_close p h1]
    exact .done hrest
  | cons ms tables =>
    rw [tablesTail_cons, List.cons_append, List.append_assoc] at h
    obtain ⟨l₁, h1, h⟩ := h.head (by simp)
    have hlt := length_of_parseToken h1
    rw [tablesLoop_open p h1]
    exact settles_tableRound p ms tables s (by omega) h

/-! ### Texts -/

/-- A member of the database beside its tables. -/
inductive TopEntry
  | metadata (members : List (OtherMember []))
  | other (m : OtherMember [cstr "metadata", cstr "tables"])

def TopEntry.member : TopEntry → CString × List JsonToken
  | .metadata ms => (cstr "metadata", objectTokens (ms.map fun m => (m.key, m.value)))
  | .other m => (m.key, m.value)

/-- **A text of a database**: its tables, and what stands before and behind them. -/
structure DatabaseText where
  before : List TopEntry
  tables : List (List TableEntry)
  after : List TopEntry

/-- The members of the database object. -/
def DatabaseText.members (d : DatabaseText) : List (CString × List JsonToken) :=
  d.before.map TopEntry.member ++
    (cstr "tables", .arrayStart :: tablesTail d.tables) :: d.after.map TopEntry.member

/-- The text is that database. -/
def DatabaseText.IsText (d : DatabaseText) (text : List UInt8) : Prop :=
  ∃ l, Reads jsonParseToken .none (objectTokens d.members) text l

/-- What is loaded. -/
def DatabaseText.run (counter : Int) (d : DatabaseText) : Option Store :=
  d.tables.foldlM (tableRun p) ⟨dbCreate, counter⟩

/-- The metadata are read and dropped, and all other members are skipped. -/
theorem parses_topEntry (e : TopEntry) (s : Store) :
    Parses (topMember p e.member.1 s) e.member.2 (some s) := by
  cases e with
  | metadata ms =>
    intro rest l l' h
    obtain ⟨l₁, h1, h⟩ := Reads.head h (by simp)
    have hsteady : ∀ key s l, Steady l.length (metadataMember key s l) := fun _ s l =>
      steady_skipValue s l
    obtain ⟨l₂, hok, hrest⟩ := reads_object (fun m : OtherMember [] => (m.key, m.value))
      (fun s _ => s) hsteady (fun m s => parses_skipValue m.tokens.skips s) ms ()
      (Nat.lt_succ_self l₁.length) h
    show Yields rest l' (some s) (topMember p (cstr "metadata") s l)
    rw [topMember, if_pos rfl, jsonParseDatabaseMetadata, h1]
    dsimp only
    rw [hok]
    exact .done hrest
  | other m =>
    have hkey := m.key_notMem
    simp only [List.mem_cons, List.not_mem_nil, or_false, not_or] at hkey
    intro rest l l' h
    show Yields rest l' (some s) (topMember p m.key s l)
    rw [topMember, if_neg hkey.1, if_neg hkey.2]
    exact (settles_skipValueChecked m.tokens.skips s h).yields

/-- The members of a text, and what reading them does. -/
def DatabaseText.parts (d : DatabaseText) : List (Part Store) :=
  d.before.map (entryPart TopEntry.member fun s _ => s) ++
    .of (cstr "tables") (.arrayStart :: tablesTail d.tables)
        (fun s => d.tables.foldlM (tableRun p) s) ::
      d.after.map (entryPart TopEntry.member fun s _ => s)

theorem readBy_parts (d : DatabaseText) : ∀ m ∈ d.parts p, m.ReadBy (topMember p) := by
  have hentry : ∀ es : List TopEntry, ∀ m ∈ es.map (entryPart TopEntry.member fun s _ => s),
      m.ReadBy (topMember p) := by
    intro es m hm
    obtain ⟨e, -, rfl⟩ := List.mem_map.mp hm
    exact Part.readBy_of (parses_topEntry p e)
  rw [DatabaseText.parts, List.forall_mem_append, List.forall_mem_cons]
  refine ⟨hentry d.before, Part.readBy_of ?_, hentry d.after⟩
  intro s rest l l' h
  obtain ⟨l₁, h1, h⟩ := Reads.head h (by simp)
  show Yields rest l' _ (topMember p (cstr "tables") s l)
  rw [topMember, if_neg (by decide), if_pos rfl, h1]
  exact (settles_tableObjects p d.tables s (Nat.lt_succ_self l₁.length) h).yields

/-- Only the tables matter. -/
theorem runParts_parts (d : DatabaseText) (s : Store) :
    runParts (d.parts p) s = d.tables.foldlM (tableRun p) s := by
  have hentries : ∀ (es : List TopEntry) (s : Store),
      runParts (es.map (entryPart TopEntry.member fun s _ => s)) s = some s := by
    intro es s
    rw [runParts_entryPart, List.foldl_fixed]
  have happend : ∀ (ms ms' : List (Part Store)) (s : Store),
      runParts (ms ++ ms') s = (runParts ms s).bind (runParts ms') := by
    intro ms ms' s
    exact List.foldlM_append
  rw [DatabaseText.parts, happend, hentries, Option.bind_some, runParts_cons]
  show (d.tables.foldlM (tableRun p) s).bind _ = _
  rw [funext (hentries d.after)]
  exact Option.bind_fun_some _

theorem partsTail_parts (d : DatabaseText) :
    partsTail (d.parts p) = objectTail (d.members.map fun m => memberTokens m.1 m.2) := by
  rw [partsTail, DatabaseText.parts, DatabaseText.members, List.map_append, List.map_append,
    List.map_cons, List.map_cons, List.map_map, List.map_map, List.map_map, List.map_map]
  rfl

/-- **Loading a text** reads its tables, whatever else it holds. -/
theorem load_layout {p : Platform} (hp : p.Faithful) (counter : Int) {d : DatabaseText}
    {text : List UInt8} (h : d.IsText text) :
    dbLoadFromFile p counter (some text) = some (d.run p counter) := by
  obtain ⟨l', h⟩ := h
  obtain ⟨l₁, h1, h⟩ := Reads.head h (by simp)
  have hlen := length_parseToken_lt h1 (by simp) (by simp)
  have hfile : Settles [] l' (runParts (d.parts p) ⟨dbCreate, counter⟩)
      (parseMembers (topMember p) (l₁.length + 1) ⟨dbCreate, counter⟩ l₁) := by
    refine parses_members (steady_topMember p) _ (readBy_parts p d) _ (Nat.lt_succ_self _) ?_
    rw [partsTail_parts, List.append_nil]
    exact h
  rw [runParts_parts] at hfile
  rw [dbLoadFromFile]
  rw [if_neg (by omega), if_pos (hp.malloc_eq _), loadContent, h1]
  dsimp only
  unfold DatabaseText.run
  generalize parseMembers (topMember p) (l₁.length + 1) ⟨dbCreate, counter⟩ l₁ = res at hfile
  generalize d.tables.foldlM (tableRun p) ⟨dbCreate, counter⟩ = loaded at hfile
  cases hfile with
  | done => rfl
  | failed => rfl

end Luminix
