import Luminix.Equiv.Rounds
import Luminix.Equiv.Token

/-!
# Every load ends

The loops of the reader are bounded by a `fuel` that starts above the number of characters left.
Every round of a loop reads at least one token, and reading a token moves on, so the bound is never
reached: `dbLoadFromFile_ne_none` holds for every file, well formed or not.
-/

namespace Luminix

open CLib

/-! ### Tokens -/

theorem length_parseToken_le (l : List UInt8) : (jsonParseToken l).2.length ≤ l.length :=
  (parseToken_suffix l).length_le

/-- A token that can be read has a first character. -/
theorem length_parseToken_lt {l l₁ : List UInt8} {t : JsonToken} (h : jsonParseToken l = (t, l₁))
    (hnone : t ≠ .none) (heof : t ≠ .eof) : l₁.length < l.length := by
  rcases advances_parseToken l with ⟨h1, -⟩ | h1 | ⟨h1, -⟩
  · rw [h] at h1
    exact absurd h1 heof
  · rwa [h] at h1
  · rw [h] at h1
    exact absurd h1 hnone

/-- A token that was matched. -/
theorem length_of_parseToken {l l₁ : List UInt8} {t : JsonToken} (h : jsonParseToken l = (t, l₁)) :
    l₁.length ≤ l.length := by
  have := length_parseToken_le l
  rwa [h] at this

/-! ### Parsers -/

/-- The parser has not run out of fuel, and leaves at most `n` characters. -/
def Steady {α : Type} (n : Nat) : Except Failure (α × List UInt8) → Prop
  | .ok (_, l) => l.length ≤ n
  | .error e => e ≠ .outOfFuel

variable {α β σ : Type} {n m : Nat}

theorem Steady.length_le {r : Except Failure (α × List UInt8)} (h : Steady n r) {a : α}
    {l : List UInt8} (hok : r = .ok (a, l)) : l.length ≤ n := by
  rw [hok] at h
  exact h

theorem Steady.ne_outOfFuel {r : Except Failure (α × List UInt8)} (h : Steady n r) {e : Failure}
    (he : r = .error e) : e ≠ .outOfFuel := by
  rw [he] at h
  exact h

theorem steady_invalid : Steady n (invalid : Except Failure (α × List UInt8)) := nofun

theorem Steady.mono {r : Except Failure (α × List UInt8)} (h : Steady n r) (hnm : n ≤ m) :
    Steady m r := by
  cases r with
  | ok x => exact Nat.le_trans h hnm
  | error e => exact h

/-- Changing the result changes nothing about the text. -/
theorem Steady.map {r : Except Failure (α × List UInt8)} (h : Steady n r) {g : α × List UInt8 → β × List UInt8}
    (hg : ∀ x, (g x).2 = x.2) : Steady n (r.map g) := by
  cases r with
  | ok x =>
    show (g x).2.length ≤ n
    rw [hg]
    exact h
  | error e => exact h

/-! ### The loops -/

/-- The loop over an object ends if reading a member does. -/
theorem steady_parseMembers {member : CString → σ → List UInt8 → Except Failure (σ × List UInt8)}
    (hmember : ∀ key s l, Steady l.length (member key s l)) (fuel : Nat) (s : σ) (l : List UInt8)
    (hl : l.length < fuel) : Steady l.length (parseMembers member fuel s l) := by
  induction fuel generalizing s l with
  | zero => exact absurd hl (Nat.not_lt_zero _)
  | succ fuel ih =>
    rw [parseMembers]
    split
    next h => exact length_of_parseToken h
    next key l₁ hkey =>
      -- the key has a first character, so the bound is enough for the next round
      have hlt := length_parseToken_lt hkey (by simp) (by simp)
      split
      next l₂ hcolon =>
        have hle := length_of_parseToken hcolon
        have hvalue := hmember key s l₂
        split
        next s' l₃ hok =>
          have h3 := hvalue.length_le hok
          split
          next l₄ hcomma =>
            have h4 := length_of_parseToken hcomma
            exact (ih s' l₄ (by omega)).mono (by omega)
          next l₄ hend =>
            have h4 := length_of_parseToken hend
            show l₄.length ≤ l.length
            omega
          · exact steady_invalid
        next e he =>
          exact hvalue.ne_outOfFuel he
      · exact steady_invalid
    · exact steady_invalid

/-- The loop over an array ends if reading an element does. -/
theorem steady_parseElements {element : σ → List UInt8 → Except Failure (σ × List UInt8)}
    (helement : ∀ s l, Steady l.length (element s l)) (fuel : Nat) (s : σ) (l : List UInt8)
    (hl : l.length < fuel) : Steady l.length (parseElements element fuel s l) := by
  induction fuel generalizing s l with
  | zero => exact absurd hl (Nat.not_lt_zero _)
  | succ fuel ih =>
    rw [parseElements]
    split
    next h => exact length_of_parseToken h
    next l₁ hstart =>
      have hlt := length_parseToken_lt hstart (by simp) (by simp)
      have hvalue := helement s l₁
      split
      next s' l₂ hok =>
        have h2 := hvalue.length_le hok
        split
        next l₃ hcomma =>
          have h3 := length_of_parseToken hcomma
          exact (ih s' l₃ (by omega)).mono (by omega)
        next l₃ hend =>
          have h3 := length_of_parseToken hend
          show l₃.length ≤ l.length
          omega
        · exact steady_invalid
      next e he =>
        exact hvalue.ne_outOfFuel he
    · exact steady_invalid

/-- A round ends if the value does and the loop goes on to an end. -/
theorem afterSkipped_some {n : Nat} {close : JsonToken}
    {again : List UInt8 → Option (ErrorCode × List UInt8)} {v : Option (ErrorCode × List UInt8)}
    {l : List UInt8} (hv : ∃ e l₁, v = some (e, l₁) ∧ l₁.length ≤ l.length)
    (hl : l.length ≤ n)
    (hagain : ∀ l₁, l₁.length ≤ l.length → ∃ e l₂, again l₁ = some (e, l₂) ∧ l₂.length ≤ l₁.length) :
    ∃ e l₁, afterSkipped close again v = some (e, l₁) ∧ l₁.length ≤ n := by
  obtain ⟨e, l₁, rfl, h1⟩ := hv
  by_cases he : e = .success
  · subst he
    have h2 := length_parseToken_le l₁
    rw [afterSkipped]
    split_ifs
    · obtain ⟨e, l₂, h, h3⟩ := hagain (jsonParseToken l₁).2 (by omega)
      exact ⟨e, l₂, h, by omega⟩
    · exact ⟨_, _, rfl, by omega⟩
    · exact ⟨_, _, rfl, by omega⟩
  · exact ⟨e, l₁, afterSkipped_of_ne he l₁, by omega⟩

/-- **A value is always skipped to some end.** -/
theorem jsonSkipTokenValue_some (fuel : Nat) (token : JsonToken) (l : List UInt8)
    (hl : l.length < fuel) :
    ∃ e l₁, jsonSkipTokenValue fuel token l = some (e, l₁) ∧ l₁.length ≤ l.length := by
  induction fuel generalizing token l with
  | zero => exact absurd hl (Nat.not_lt_zero _)
  | succ fuel ih =>
    cases token
    case objectStart =>
      rw [skip_object]
      split
      next l₁ h => exact ⟨_, l₁, rfl, length_of_parseToken h⟩
      next l₁ hkey =>
        have h1 := length_parseToken_lt hkey (by simp) (by simp)
        split
        next l₂ hcolon =>
          have h2 := length_of_parseToken hcolon
          have h3 := length_parseToken_le l₂
          exact afterSkipped_some (ih _ (jsonParseToken l₂).2 (by omega)) (by omega)
            fun l₃ h4 => ih _ l₃ (by omega)
        next l₂ _ hother =>
          have h2 := length_of_parseToken hother
          exact ⟨_, l₂, rfl, by omega⟩
      next l₁ _ _ hother => exact ⟨_, l₁, rfl, length_of_parseToken hother⟩
    case arrayStart =>
      rw [skip_array]
      split
      next l₁ h => exact ⟨_, l₁, rfl, length_of_parseToken h⟩
      next l₁ h => exact ⟨_, l₁, rfl, length_of_parseToken h⟩
      next l₁ h => exact ⟨_, l₁, rfl, length_of_parseToken h⟩
      next token' l₁ hend heof hnone htoken =>
        have h1 := length_parseToken_lt htoken hnone heof
        exact afterSkipped_some (ih _ l₁ (by omega)) h1.le fun l₂ h2 => ih _ l₂ (by omega)
    all_goals exact ⟨_, l, rfl, Nat.le_refl _⟩

/-! ### The members of each object -/

theorem steady_skipValue (a : α) (l : List UInt8) :
    Steady l.length ((skipValue l).map fun l => (a, l)) := by
  have h1 := length_parseToken_le l
  obtain ⟨e, l₁, he, h2⟩ := jsonSkipTokenValue_some (l.length + 1) (jsonParseToken l).1
    (jsonParseToken l).2 (by omega)
  rw [skipValue, he]
  exact h2.trans h1

theorem steady_skipValueChecked (a : α) (l : List UInt8) :
    Steady l.length ((skipValueChecked l).map fun l => (a, l)) := by
  have h1 := length_parseToken_le l
  obtain ⟨e, l₁, he, h2⟩ := jsonSkipTokenValue_some (l.length + 1) (jsonParseToken l).1
    (jsonParseToken l).2 (by omega)
  rw [skipValueChecked, he]
  cases e
  case success => exact h2.trans h1
  all_goals exact nofun

theorem steady_metadata (a : α) (l : List UInt8) :
    Steady l.length ((jsonParseDatabaseMetadata l).map fun l => (a, l)) := by
  unfold jsonParseDatabaseMetadata
  split
  next l₁ hstart =>
    have hmember : ∀ key s l, Steady l.length (metadataMember key s l) := fun _ s l =>
      steady_skipValue s l
    have h := steady_parseMembers hmember (l₁.length + 1) () l₁ (Nat.lt_succ_self _)
    have h1 := length_of_parseToken hstart
    cases hr : parseMembers metadataMember (l₁.length + 1) () l₁ with
    | ok x =>
      rw [hr] at h
      exact Nat.le_trans h h1
    | error e =>
      rw [hr] at h
      exact h
  · exact steady_invalid

theorem steady_fieldMember (key : CString) (field : Option CString × FieldType) (l : List UInt8) :
    Steady l.length (fieldMember key field l) := by
  unfold fieldMember
  split_ifs
  · split
    next h => exact length_of_parseToken h
    · exact steady_invalid
  · split
    next h => exact length_of_parseToken h
    · exact steady_invalid
  · exact steady_skipValue field l

theorem steady_fieldDefinition (fields : List (Option CString × FieldType)) (l : List UInt8) :
    Steady l.length (fieldDefinition fields l) :=
  (steady_parseMembers steady_fieldMember _ _ l (Nat.lt_succ_self _)).map fun _ => rfl

theorem steady_schemaMember (key : CString) (draft : SchemaDraft) (l : List UInt8) :
    Steady l.length (schemaMember key draft l) := by
  unfold schemaMember
  split_ifs
  · split
    next h => exact length_of_parseToken h
    · exact steady_invalid
  · split
    next l₁ h =>
      have hfields := steady_parseElements steady_fieldDefinition (l₁.length + 1) draft.fields l₁
        (Nat.lt_succ_self _)
      refine Steady.mono ?_ (length_of_parseToken h)
      exact hfields.map fun _ => rfl
    · exact steady_invalid
  · exact steady_skipValue draft l

/-- The loop over a schema ends. -/
theorem steady_schemaLoop (fuel : Nat) (draft : SchemaDraft) (token : JsonToken) (l : List UInt8)
    (hl : l.length < fuel) : Steady l.length (schemaLoop fuel draft token l) := by
  induction fuel generalizing draft token l with
  | zero => exact absurd hl (Nat.not_lt_zero _)
  | succ fuel ih =>
    -- the loop carries its next token, which the bound does not count
    have hnext : ∀ draft' {l₁ : List UInt8}, l₁.length < l.length → Steady l.length
        (schemaLoop fuel draft' (jsonParseToken l₁).1 (jsonParseToken l₁).2) := by
      intro draft' l₁ hlt
      have h := length_parseToken_le l₁
      exact (ih draft' _ _ (by omega)).mono (by omega)
    cases token
    case objectEnd => exact Nat.le_refl _
    case string key =>
      rw [schemaLoop]
      split
      next l₁ hcolon =>
        have h1 := length_parseToken_lt hcolon (by simp) (by simp)
        split_ifs
        · split
          next l₂ hstart =>
            have h2 := length_of_parseToken hstart
            exact hnext draft (by omega)
          · exact steady_invalid
        · have hvalue := steady_schemaMember key draft l₁
          split
          next draft' l₂ hok =>
            have h2 := hvalue.length_le hok
            split
            next l₃ hcomma =>
              have h3 := length_of_parseToken hcomma
              exact hnext draft' (by omega)
            next l₃ hend =>
              have h3 := length_of_parseToken hend
              show l₃.length ≤ l.length
              omega
            · exact steady_invalid
          next e he =>
            exact hvalue.ne_outOfFuel he
      · exact steady_invalid
    all_goals exact steady_invalid

theorem steady_tableSchema (db : Database) (l : List UInt8) :
    Steady l.length (jsonParseTableSchema db l) := by
  have hfirst : (schemaStart l).2.length ≤ l.length := by
    unfold schemaStart
    split
    next l₁ h => exact (length_parseToken_le l₁).trans (length_of_parseToken h)
    · exact length_parseToken_le l
  have hloop := steady_schemaLoop (l.length + 1) ⟨cstr "", []⟩ (schemaStart l).1 (schemaStart l).2
    (Nat.lt_succ_of_le hfirst)
  unfold jsonParseTableSchema
  split
  next e he =>
    exact hloop.ne_outOfFuel he
  next draft l₁ hok =>
    rw [hok] at hloop
    split_ifs
    · split
      · exact Nat.le_trans hloop hfirst
      · exact nofun
    · exact steady_invalid

/-! ### Records -/

theorem length_jsonParseFieldValue_le (p : Platform) (type : FieldType) (l : List UInt8) :
    (jsonParseFieldValue p type l).2.2.length ≤ l.length := by
  have h := length_parseToken_le l
  unfold jsonParseFieldValue
  split
  next h1 => rwa [h1] at h
  next h1 => rwa [h1] at h

theorem steady_recordField (p : Platform) (columns : List Column) (key : CString)
    (values : List Field) (l : List UInt8) : Steady l.length (recordField p columns key values l) := by
  unfold recordField
  split
  · exact length_jsonParseFieldValue_le p _ l
  · exact length_parseToken_le l

theorem steady_recordMember (p : Platform) (columns : List Column) (key : CString)
    (draft : RecordDraft) (l : List UInt8) :
    Steady l.length (recordMember p columns key draft l) := by
  unfold recordMember
  split_ifs
  · split
    next h => exact length_of_parseToken h
    next h => exact length_of_parseToken h
  · split
    next l₁ h =>
      have hvalues := steady_parseMembers (steady_recordField p columns) (l₁.length + 1) draft.values
        l₁ (Nat.lt_succ_self _)
      refine Steady.mono ?_ (length_of_parseToken h)
      exact hvalues.map fun _ => rfl
    · exact steady_invalid
  · exact steady_skipValue draft l

/-- Inserting has no loop of its own. -/
theorem steady_insertDraft (p : Platform) (i : Nat) (columns : List Column) (draft : RecordDraft)
    (s : Store) (l : List UInt8) :
    Steady l.length ((insertDraft p i columns draft s).map fun s => (s, l)) := by
  unfold insertDraft
  split_ifs
  · exact Nat.le_refl _
  · split
    · exact Nat.le_refl _
    · exact Nat.le_refl _
    · exact nofun

theorem steady_recordElement (p : Platform) (i : Nat) (columns : List Column) (s : Store)
    (l : List UInt8) : Steady l.length (recordElement p i columns s l) := by
  have hmembers := steady_parseMembers (steady_recordMember p columns) (l.length + 1)
    ⟨-1, initialValues columns⟩ l (Nat.lt_succ_self _)
  unfold recordElement
  split
  next e he =>
    rw [he] at hmembers
    exact hmembers
  next draft l₁ hok =>
    rw [hok] at hmembers
    exact (steady_insertDraft p i columns draft s l₁).mono hmembers

theorem steady_tableRecords (p : Platform) (i : Nat) (s : Store) (l : List UInt8) :
    Steady l.length (jsonParseTableRecords p i s l) := by
  unfold jsonParseTableRecords
  split
  · exact steady_invalid
  next t _ =>
    split
    next l₁ h =>
      exact (steady_parseElements (steady_recordElement p i t.columns) (l₁.length + 1) s l₁
        (Nat.lt_succ_self _)).mono (length_of_parseToken h)
    · exact steady_invalid

/-! ### Tables -/

theorem steady_siblingMember (p : Platform) (i : Nat) (key : CString) (s : Store) (l : List UInt8) :
    Steady l.length (siblingMember p i key s l) := by
  unfold siblingMember
  split_ifs
  · exact steady_tableRecords p i s l
  · exact steady_skipValueChecked s l

theorem steady_siblingLoop (p : Platform) (i fuel : Nat) (s : Store) (l : List UInt8)
    (hl : l.length < fuel) : Steady l.length (siblingLoop p i fuel s l) := by
  induction fuel generalizing s l with
  | zero => exact absurd hl (Nat.not_lt_zero _)
  | succ fuel ih =>
    rw [siblingLoop]
    split
    next h => exact length_of_parseToken h
    next l₁ hcomma =>
      have h1 := length_parseToken_lt hcomma (by simp) (by simp)
      split
      next key l₂ hkey =>
        have h2 := length_of_parseToken hkey
        split
        next l₃ hcolon =>
          have h3 := length_of_parseToken hcolon
          have hvalue := steady_siblingMember p i key s l₃
          split
          next s' l₄ hok =>
            have h4 := hvalue.length_le hok
            exact (ih s' l₄ (by omega)).mono (by omega)
          next e he =>
            exact hvalue.ne_outOfFuel he
        · exact steady_invalid
      · exact steady_invalid
    · exact steady_invalid

/-- Reading a table does not run out of fuel; the array of tables goes on behind it, and at another
table only with less text. -/
def SteadyTable (n : Nat) : Except Failure (AfterTable × Store × List UInt8) → Prop
  | .ok (after, _, l) => l.length ≤ n ∧ (after ≠ .arrayEnd → l.length < n)
  | .error e => e ≠ .outOfFuel

theorem steadyTable_invalid : SteadyTable n invalid := nofun

theorem steadyTable_afterOuterTable {s : Store} {l : List UInt8} (hl : l.length < n) :
    SteadyTable n (afterOuterTable s l) := by
  unfold afterOuterTable
  split
  next l₁ h =>
    have h1 := length_of_parseToken h
    exact ⟨by omega, fun _ => by omega⟩
  next l₁ h =>
    have h1 := length_of_parseToken h
    exact ⟨by omega, fun _ => by omega⟩
  · exact steadyTable_invalid

theorem steadyTable_tableSiblings (p : Platform) (i : Nat) (key : CString) (s : Store)
    {l : List UInt8} (hl : l.length < n) : SteadyTable n (tableSiblings p i key s l) := by
  have hvalue := steady_siblingMember p i key s l
  unfold tableSiblings
  split
  next e he =>
    exact hvalue.ne_outOfFuel he
  next s₁ l₁ hok =>
    have h1 := hvalue.length_le hok
    have hloop := steady_siblingLoop p i (l₁.length + 1) s₁ l₁ (Nat.lt_succ_self _)
    split
    next e he =>
      exact hloop.ne_outOfFuel he
    next s₂ l₂ hok =>
      have h2 := hloop.length_le hok
      exact steadyTable_afterOuterTable (by omega)

theorem steadyTable_parseTable (p : Platform) (s : Store) (l : List UInt8) :
    SteadyTable l.length (parseTable p s l) := by
  have hschema := steady_tableSchema s.db l
  unfold parseTable
  split
  next e he =>
    exact hschema.ne_outOfFuel he
  next db l₁ hok =>
    have h1 := hschema.length_le hok
    dsimp only
    -- a flat schema may end the array or be followed by another table
    split
    next l₂ h =>
      have h2 := length_of_parseToken h
      exact ⟨by omega, fun h => absurd rfl h⟩
    next l₂ h =>
      have h2 := length_parseToken_lt h (by simp) (by simp)
      exact steadyTable_afterOuterTable (by omega)
    next l₂ h =>
      have h2 := length_parseToken_lt h (by simp) (by simp)
      split
      next l₃ h =>
        have h3 := length_of_parseToken h
        exact ⟨by omega, fun _ => by omega⟩
      next l₃ h =>
        have h3 := length_of_parseToken h
        exact ⟨by omega, fun _ => by omega⟩
      next key l₃ h =>
        have h3 := length_of_parseToken h
        split
        next l₄ h =>
          have h4 := length_of_parseToken h
          exact steadyTable_tableSiblings p (db.tableCount - 1) key { s with db } (by omega)
        · exact steadyTable_invalid
      · exact steadyTable_invalid
    · exact steadyTable_invalid

/-- A table that the loop goes on behind has a first character. -/
theorem length_parseTable_lt {p : Platform} {s s' : Store} {after : AfterTable} {l l' : List UInt8}
    (h : parseTable p s l = .ok (after, s', l')) (hafter : after ≠ .arrayEnd) :
    l'.length < l.length := by
  have hsteady := steadyTable_parseTable p s l
  rw [h] at hsteady
  exact hsteady.2 hafter

theorem steady_tablesLoop (p : Platform) (fuel : Nat) (started : Bool) (s : Store) (l : List UInt8)
    (hl : l.length < fuel) : Steady l.length (tablesLoop p fuel started s l) := by
  induction fuel generalizing started s l with
  | zero => exact absurd hl (Nat.not_lt_zero _)
  | succ fuel ih =>
    -- a round that goes on has read at least one character
    have hround : ∀ {l₁ : List UInt8}, l₁.length ≤ l.length →
        Steady l.length (tableRound p fuel s l₁) := by
      intro l₁ h1
      have hparse := steadyTable_parseTable p s l₁
      unfold tableRound
      split
      next e he =>
        rw [he] at hparse
        exact hparse
      next s' l₂ hok =>
        rw [hok] at hparse
        exact hparse.1.trans h1
      next s' l₂ hok =>
        have h2 := length_parseTable_lt hok (by simp)
        exact (ih false s' l₂ (by omega)).mono (by omega)
      next s' l₂ hok =>
        have h2 := length_parseTable_lt hok (by simp)
        exact (ih true s' l₂ (by omega)).mono (by omega)
    cases started with
    | true => exact hround (Nat.le_refl _)
    | false =>
      obtain ⟨t, l₁, ht⟩ : ∃ t l₁, jsonParseToken l = (t, l₁) := ⟨_, _, rfl⟩
      have h1 := length_of_parseToken ht
      by_cases hopen : t = .objectStart
      · subst hopen
        rw [tablesLoop_open p ht]
        exact hround h1
      · by_cases hend : t = .arrayEnd
        · subst hend
          rw [tablesLoop_close p ht]
          exact h1
        · rw [tablesLoop_invalid p ht hopen hend]
          exact steady_invalid

theorem steady_topMember (p : Platform) (key : CString) (s : Store) (l : List UInt8) :
    Steady l.length (topMember p key s l) := by
  unfold topMember
  split_ifs
  · exact steady_metadata s l
  · split
    next l₁ h =>
      exact (steady_tablesLoop p (l₁.length + 1) false s l₁ (Nat.lt_succ_self _)).mono
        (length_of_parseToken h)
    · exact steady_invalid
  · exact steady_skipValueChecked s l

/-- What is loaded has been read off the content, for which there was memory. -/
theorem loadContent_of_load {p : Platform} {counter : Int} {content : List UInt8} {s : Store}
    (h : dbLoadFromFile p counter (some content) = some (some s)) :
    p.malloc (content.length + 1) = true ∧ loadContent p counter content = .ok s := by
  unfold dbLoadFromFile at h
  dsimp only at h
  split_ifs at h with hempty hmalloc
  · cases h
  · refine ⟨hmalloc, ?_⟩
    split at h
    next heq =>
      cases h
      exact heq
    · cases h
    · cases h
  · cases h

/-- A content that is read whole is one object. -/
theorem loadContent_eq_ok {p : Platform} {counter : Int} {content : List UInt8} {s : Store}
    (h : loadContent p counter content = .ok s) : ∃ l r,
      jsonParseToken content = (.objectStart, l) ∧
        parseMembers (topMember p) (l.length + 1) ⟨dbCreate, counter⟩ l = .ok (s, r) := by
  unfold loadContent at h
  split at h
  next l hstart =>
    cases hres : parseMembers (topMember p) (l.length + 1) ⟨dbCreate, counter⟩ l with
    | error e =>
      rw [hres] at h
      cases h
    | ok r =>
      rw [hres] at h
      cases h
      exact ⟨l, r.2, hstart, hres⟩
  · cases h

/-- The reader over a whole content comes to an end. -/
theorem loadContent_ne_outOfFuel (p : Platform) (counter : Int) (content : List UInt8) :
    loadContent p counter content ≠ .error .outOfFuel := by
  unfold loadContent
  split
  next l _ =>
    have h := steady_parseMembers (steady_topMember p) (l.length + 1) ⟨dbCreate, counter⟩ l
      (Nat.lt_succ_self _)
    cases hres : parseMembers (topMember p) (l.length + 1) ⟨dbCreate, counter⟩ l with
    | ok r => exact nofun
    | error e =>
      rw [hres] at h
      rintro ⟨⟩
      exact absurd rfl h
  · exact nofun

/-- **Every load ends**, whatever the file holds. -/
theorem dbLoadFromFile_ne_none (p : Platform) (counter : Int) (file : Option (List UInt8)) :
    dbLoadFromFile p counter file ≠ none := by
  unfold dbLoadFromFile
  split
  · exact nofun
  next content =>
    split_ifs
    · exact nofun
    · split
      · exact nofun
      · exact nofun
      next he => exact absurd he (loadContent_ne_outOfFuel p counter content)
    · exact nofun

/-- **Loading terminates**: tokens move on, the position stays in the text, and no loop runs longer
than there are characters. -/
theorem load_terminates :
    (∀ l, (jsonParseToken l).2 <:+ l) ∧
    (∀ l, (jsonParseToken l).1 ≠ .eof → (jsonParseToken l).1 ≠ .none →
      (jsonParseToken l).2.length < l.length) ∧
    (∀ token l, jsonSkipTokenValue (l.length + 1) token l ≠ none) ∧
    (∀ l, jsonParseDatabaseMetadata l ≠ .error .outOfFuel) ∧
    (∀ db l, jsonParseTableSchema db l ≠ .error .outOfFuel) ∧
    (∀ p i s l, jsonParseTableRecords p i s l ≠ .error .outOfFuel) ∧
    ∀ p counter file, dbLoadFromFile p counter file ≠ none := by
  have hsteady : ∀ {α : Type} {n : Nat} {r : Except Failure (α × List UInt8)}, Steady n r →
      r ≠ .error .outOfFuel := by
    rintro α n r h rfl
    exact absurd rfl h
  refine ⟨parseToken_suffix, fun l heof hnone => length_parseToken_lt rfl hnone heof,
    fun token l => ?_, fun l heq => ?_, fun db l => hsteady (steady_tableSchema db l),
    fun p i s l => hsteady (steady_tableRecords p i s l), dbLoadFromFile_ne_none⟩
  · obtain ⟨e, l₁, he, -⟩ := jsonSkipTokenValue_some (l.length + 1) token l (Nat.lt_succ_self _)
    rw [he]
    exact nofun
  · have h := hsteady (steady_metadata () l)
    rw [heq] at h
    exact absurd rfl h

end Luminix
