import Luminix.Equiv.Layout
import Luminix.Json.Import

/-!
# Nested values in records

The loader reads the id of a record and each of its fields as one token.  Where an array or an
object stands in such a place, it goes on inside of the value, and an empty object ends what is
around it.  From there on it never gets back in step with the text (`OutOfStep`), so that an array of
record objects is loaded only if it has no such value (`inFormat_of_loaded`).
-/

namespace Luminix

open CLib TokenReader

/-! ### Objects of any members -/

/-- A member of an object, under any key. -/
structure AnyMember where
  key : CString
  value : List JsonToken
  tokens : ValueTokens value

/-- The key, and the tokens of the value. -/
def AnyMember.member (m : AnyMember) : CString × List JsonToken := (m.key, m.value)

/-- The tokens of an object, after its `{`. -/
def membersTail (ms : List AnyMember) : List JsonToken :=
  objectTail ((ms.map AnyMember.member).map fun m => memberTokens m.1 m.2)

/-- The tokens behind a member. -/
def afterMembers (ms : List AnyMember) : List JsonToken :=
  match ms with
  | [] => [.objectEnd]
  | m :: ms => .comma :: membersTail (m :: ms)

theorem membersTail_cons (m : AnyMember) (ms : List AnyMember) :
    membersTail (m :: ms) = .string m.key :: .colon :: (m.value ++ afterMembers ms) := by
  cases ms with
  | nil => rfl
  | cons m' ms =>
    simp [membersTail, afterMembers, objectTail, sepBy, memberTokens, AnyMember.member]

/-- The members of an object value. -/
theorem exists_anyMembers {ms : List (CString × List JsonToken)} (h : ∀ m ∈ ms, ValueTokens m.2) :
    ∃ gs : List AnyMember, gs.map AnyMember.member = ms := by
  induction ms with
  | nil => exact ⟨[], rfl⟩
  | cons m ms ih =>
    obtain ⟨gs, rfl⟩ := ih fun m hm => h m (List.mem_cons_of_mem _ hm)
    exact ⟨⟨m.1, m.2, h m List.mem_cons_self⟩ :: gs, rfl⟩

/-- A value is a scalar, an array or an object. -/
theorem ValueTokens.cases {v : List JsonToken} (h : ValueTokens v) :
    (∃ t : Scalar, v = [t.token]) ∨
      (∃ us, v = .arrayStart :: us ∧ us ≠ [] ∧ us.head? ≠ some .comma ∧
        us.head? ≠ some .objectEnd) ∨
      ∃ gs : List AnyMember, v = .objectStart :: membersTail gs := by
  cases h with
  | scalar t => exact Or.inl ⟨t, rfl⟩
  | @array items h =>
    refine Or.inr (Or.inl ⟨_, rfl, ?_⟩)
    cases items with
    | nil => exact ⟨by simp [arrayTail], by simp [arrayTail, sepBy], by simp [arrayTail, sepBy]⟩
    | cons x xs =>
      obtain ⟨t, us, hx⟩ : ∃ t us, x = t :: us ∧ t ≠ .comma ∧ t ≠ .objectEnd := by
        cases h x List.mem_cons_self with
        | scalar t =>
          refine ⟨t.token, [], rfl, ?_, ?_⟩
          all_goals
            intro ht
            have hscalar := t.scalar
            rw [ht] at hscalar
            cases hscalar
        | array _ => exact ⟨_, _, rfl, by simp, by simp⟩
        | object _ => exact ⟨_, _, rfl, by simp, by simp⟩
      obtain ⟨rfl, hcomma, hend⟩ := hx
      rw [arrayTail, sepBy_cons]
      simp [hcomma, hend]
  | object h =>
    obtain ⟨gs, rfl⟩ := exists_anyMembers h
    exact Or.inr (Or.inr ⟨gs, rfl⟩)

/-! ### Out of step -/

/-- The loader is out of step with an array of records: neither its end follows, nor a comma with an
object or the end behind it. -/
def OutOfStep (l : List UInt8) : Prop :=
  (jsonParseToken l).1 ≠ .arrayEnd ∧ ∀ m, jsonParseToken l = (.comma, m) →
    (jsonParseToken m).1 ≠ .objectStart ∧ (jsonParseToken m).1 ≠ .arrayEnd

/-- The reading of a part fails, or leaves the loader out of step. -/
def Broken {σ : Type} (r : Except Failure (σ × List UInt8)) : Prop :=
  ∀ s l, r = .ok (s, l) → OutOfStep l

theorem broken_error {σ : Type} {e : Failure} :
    Broken (.error e : Except Failure (σ × List UInt8)) := fun _ _ h => by cases h

/-- Within an object the loader is out of step. -/
theorem outOfStep_of_afterMembers {ms : List AnyMember} {rest : List JsonToken} {l l' : List UInt8}
    (h : Reads jsonParseToken .none (afterMembers ms ++ rest) l l') : OutOfStep l := by
  cases ms with
  | nil =>
    obtain ⟨m, hend, -⟩ := Reads.head h (by simp)
    constructor
    · rw [hend]
      simp
    · intro m' hm'
      rw [hend] at hm'
      cases hm'
  | cons x ms =>
    obtain ⟨m, hcomma, h⟩ := Reads.head h (by simp)
    rw [membersTail_cons] at h
    obtain ⟨n, hkey, -⟩ := Reads.head h (by simp)
    constructor
    · rw [hcomma]
      simp
    · intro m' hm'
      rw [hcomma] at hm'
      cases hm'
      rw [hkey]
      exact ⟨by simp, by simp⟩

/-! ### One token of a value -/

section

variable {σ : Type}

/-- What the loop over an object does behind a value. -/
def afterMember (again : σ → List UInt8 → Except Failure (σ × List UInt8)) (s : σ)
    (l : List UInt8) : Except Failure (σ × List UInt8) :=
  match jsonParseToken l with
  | (.comma, l) => again s l
  | (.objectEnd, l) => .ok (s, l)
  | _ => invalid

/-- A round of the loop over an object. -/
theorem parseMembers_round {member : CString → σ → List UInt8 → Except Failure (σ × List UInt8)}
    {key : CString} {l m n : List UInt8} (hkey : jsonParseToken l = (.string key, m))
    (hcolon : jsonParseToken m = (.colon, n)) (fuel : Nat) (s : σ) :
    parseMembers member (fuel + 1) s l = match member key s n with
      | .ok (s, r) => afterMember (parseMembers member fuel) s r
      | .error e => .error e := by
  rw [parseMembers, hkey]
  dsimp only
  rw [hcolon]
  rfl

theorem afterMember_comma {again : σ → List UInt8 → Except Failure (σ × List UInt8)}
    {l m : List UInt8} (h : jsonParseToken l = (.comma, m)) (s : σ) :
    afterMember again s l = again s m := by
  rw [afterMember, h]

theorem afterMember_end {again : σ → List UInt8 → Except Failure (σ × List UInt8)}
    {l m : List UInt8} (h : jsonParseToken l = (.objectEnd, m)) (s : σ) :
    afterMember again s l = .ok (s, m) := by
  rw [afterMember, h]

theorem afterMember_other {again : σ → List UInt8 → Except Failure (σ × List UInt8)}
    {l : List UInt8} (hcomma : (jsonParseToken l).1 ≠ .comma)
    (hend : (jsonParseToken l).1 ≠ .objectEnd) (s : σ) : afterMember again s l = invalid := by
  rw [afterMember]
  split
  next h => exact absurd (congrArg Prod.fst h) hcomma
  next h => exact absurd (congrArg Prod.fst h) hend
  · rfl

end

/-- **Behind the first token of a value** stands what follows a scalar, something that cannot follow
a member, or the end of an empty object. -/
theorem ValueTokens.afterToken {v rest : List JsonToken} (hv : ValueTokens v) {l l' : List UInt8}
    (h : Reads jsonParseToken .none (v ++ rest) l l') :
    (∃ t : Scalar, v = [t.token] ∧ (jsonParseToken l).1 = t.token ∧
        Reads jsonParseToken .none rest (jsonParseToken l).2 l') ∨
      ((jsonParseToken (jsonParseToken l).2).1 ≠ .comma ∧
        (jsonParseToken (jsonParseToken l).2).1 ≠ .objectEnd) ∨
      ∃ m, jsonParseToken (jsonParseToken l).2 = (.objectEnd, m) ∧
        Reads jsonParseToken .none rest m l' := by
  rcases hv.cases with ⟨t, rfl⟩ | ⟨us, rfl, hne, hcomma, hend⟩ | ⟨gs, rfl⟩
  · obtain ⟨m, hm, hrest⟩ := Reads.head h t.ne_none
    rw [hm]
    exact Or.inl ⟨t, rfl, rfl, hrest⟩
  · obtain ⟨m, hm, h⟩ := Reads.head h (by simp)
    obtain ⟨u, us, rfl⟩ := List.exists_cons_of_ne_nil hne
    rw [hm]
    cases h with
    | token _ hu _ =>
      refine Or.inr (Or.inl ⟨?_, ?_⟩)
      · rw [hu]
        exact fun hut => hcomma (congrArg some hut)
      · rw [hu]
        exact fun hut => hend (congrArg some hut)
    | stuck hu _ =>
      rw [hu]
      exact Or.inr (Or.inl ⟨by simp, by simp⟩)
  · obtain ⟨m, hm, h⟩ := Reads.head h (by simp)
    rw [hm]
    cases gs with
    | nil =>
      obtain ⟨n, hn, hrest⟩ := Reads.head h (by simp)
      exact Or.inr (Or.inr ⟨n, hn, hrest⟩)
    | cons g gs =>
      rw [membersTail_cons] at h
      obtain ⟨n, hn, -⟩ := Reads.head h (by simp)
      rw [hn]
      exact Or.inr (Or.inl ⟨by simp, by simp⟩)

/-! ### Fields -/

variable (p : Platform)

/-- Every value is a scalar. -/
def Scalars (ms : List AnyMember) : Prop :=
  ∃ fs : List (CString × Scalar), ms.map AnyMember.member = fs.map fun f => (f.1, [f.2.token])

theorem Scalars.cons {m : AnyMember} {ms : List AnyMember} {t : Scalar} (hm : m.value = [t.token])
    (h : Scalars ms) : Scalars (m :: ms) := by
  obtain ⟨fs, hfs⟩ := h
  refine ⟨(m.key, t) :: fs, ?_⟩
  rw [List.map_cons, hfs, AnyMember.member, hm, List.map_cons]

/-- What the loop over the fields makes of an object: it fails, reads the object whole, or ends
within it, at an empty object, with the members `ms` of the object left. -/
inductive FieldsEnd (gs : List AnyMember) (rest : List JsonToken) (l' : List UInt8) :
    Except Failure (List Field × List UInt8) → Prop
  | failed {e : Failure} : FieldsEnd gs rest l' (.error e)
  | whole {values : List Field} {l : List UInt8} (hscalars : Scalars gs)
      (hreads : Reads jsonParseToken .none rest l l') : FieldsEnd gs rest l' (.ok (values, l))
  | early {ms : List AnyMember} {values : List Field} {l : List UInt8}
      (hreads : Reads jsonParseToken .none (afterMembers ms ++ rest) l l') :
      FieldsEnd gs rest l' (.ok (values, l))

theorem FieldsEnd.cons {m : AnyMember} {gs : List AnyMember} {rest : List JsonToken}
    {l' : List UInt8} {t : Scalar} (hm : m.value = [t.token])
    {r : Except Failure (List Field × List UInt8)} (h : FieldsEnd gs rest l' r) :
    FieldsEnd (m :: gs) rest l' r := by
  cases h with
  | failed => exact .failed
  | whole hscalars hreads => exact .whole (hscalars.cons hm) hreads
  | early hreads => exact .early hreads

/-- **The fields of a record.** -/
theorem fieldsEnd (columns : List Column) (fuel : Nat) (gs : List AnyMember) (values : List Field)
    {rest : List JsonToken} {l l' : List UInt8}
    (h : Reads jsonParseToken .none (membersTail gs ++ rest) l l') :
    FieldsEnd gs rest l' (parseMembers (recordField p columns) fuel values l) := by
  induction fuel generalizing gs values l with
  | zero => exact .failed
  | succ fuel ih =>
    cases gs with
    | nil =>
      obtain ⟨m, hend, hrest⟩ := Reads.head h (by simp)
      rw [parseMembers, hend]
      exact .whole ⟨[], rfl⟩ hrest
    | cons g gs =>
      rw [membersTail_cons, List.cons_append, List.cons_append, List.append_assoc] at h
      obtain ⟨m, hkey, h⟩ := Reads.head h (by simp)
      obtain ⟨n, hcolon, h⟩ := Reads.head h (by simp)
      rw [parseMembers_round hkey hcolon, recordField_eq]
      dsimp only
      rcases g.tokens.afterToken h with ⟨t, ht, -, hrest⟩ | ⟨hcomma, hend⟩ | ⟨r, hend, hrest⟩
      · cases gs with
        | nil =>
          obtain ⟨r, hend, hrest⟩ := Reads.head hrest (by simp)
          rw [afterMember_end hend]
          exact .whole (Scalars.cons ht ⟨[], rfl⟩) hrest
        | cons g' gs =>
          obtain ⟨r, hcomma, hrest⟩ := Reads.head hrest (by simp)
          rw [afterMember_comma hcomma]
          exact (ih (g' :: gs) _ hrest).cons ht
      · rw [afterMember_other hcomma hend]
        exact .failed
      · rw [afterMember_end hend]
        exact .early hrest

/-! ### Records -/

/-- A record object of the format: its id and its fields are scalars. -/
def InFormat (ms : List AnyMember) : Prop :=
  ∃ es : List RecordEntry, ms.map AnyMember.member = es.map RecordEntry.member

theorem InFormat.cons {m : AnyMember} {ms : List AnyMember} (e : RecordEntry)
    (he : m.member = e.member) (h : InFormat ms) : InFormat (m :: ms) := by
  obtain ⟨es, hes⟩ := h
  exact ⟨e :: es, by rw [List.map_cons, hes, he, List.map_cons]⟩

/-- What a record makes of the value `v` of its `fields`: it fails, reads a whole object of scalars,
or ends within it, with the members `gs` left. -/
inductive FieldsMemberEnd (v rest : List JsonToken) (l' : List UInt8) :
    Except Failure (RecordDraft × List UInt8) → Prop
  | failed {e : Failure} : FieldsMemberEnd v rest l' (.error e)
  | whole {fs : List (CString × Scalar)} {draft : RecordDraft} {l : List UInt8}
      (hv : v = objectTokens (fs.map fun f => (f.1, [f.2.token])))
      (hreads : Reads jsonParseToken .none rest l l') : FieldsMemberEnd v rest l' (.ok (draft, l))
  | early {gs : List AnyMember} {draft : RecordDraft} {l : List UInt8}
      (hreads : Reads jsonParseToken .none (afterMembers gs ++ rest) l l') :
      FieldsMemberEnd v rest l' (.ok (draft, l))

theorem fieldsMemberEnd (columns : List Column) (draft : RecordDraft) {v rest : List JsonToken}
    (hv : ValueTokens v) {l l' : List UInt8} (h : Reads jsonParseToken .none (v ++ rest) l l') :
    FieldsMemberEnd v rest l' (recordMember p columns (cstr "fields") draft l) := by
  have hid : cstr "fields" ≠ cstr "id" := by decide
  rw [recordMember, if_neg hid, if_pos rfl]
  rcases hv.cases with ⟨t, rfl⟩ | ⟨us, rfl, -⟩ | ⟨gs, rfl⟩
  · obtain ⟨r, hr, -⟩ := Reads.head h t.ne_none
    rw [hr]
    obtain ⟨t, ht⟩ := t
    cases t
    case objectStart => cases ht
    all_goals exact .failed
  · obtain ⟨r, hr, -⟩ := Reads.head h (by simp)
    rw [hr]
    exact .failed
  · obtain ⟨r, hr, h⟩ := Reads.head h (by simp)
    rw [hr]
    have hgs := fieldsEnd p columns (r.length + 1) gs draft.values h
    dsimp only
    generalize parseMembers (recordField p columns) (r.length + 1) draft.values r = res at hgs
    cases hgs with
    | failed => exact .failed
    | whole hscalars h =>
      obtain ⟨fs, hfs⟩ := hscalars
      have hwhole : .objectStart :: membersTail gs =
          objectTokens (fs.map fun f => (f.1, [f.2.token])) := by
        show JsonToken.objectStart :: objectTail ((gs.map AnyMember.member).map
          fun m => memberTokens m.1 m.2) = _
        rw [hfs]
        rfl
      exact .whole hwhole h
    | early h => exact .early h

/-- **A record is read whole and in step, or not at all**: `rest` follows a record of the format
only. -/
theorem broken_record (columns : List Column) (fuel : Nat) (ms : List AnyMember)
    (draft : RecordDraft) {rest : List JsonToken} {l l' : List UInt8}
    (h : Reads jsonParseToken .none (membersTail ms ++ rest) l l')
    (hrest : InFormat ms → ∀ r, Reads jsonParseToken .none rest r l' → OutOfStep r) :
    Broken (parseMembers (recordMember p columns) fuel draft l) := by
  induction fuel generalizing ms draft rest l with
  | zero => exact broken_error
  | succ fuel ih =>
    -- behind a member, be it of the record or of an object that ended too early
    have hafter (ms : List AnyMember) (draft : RecordDraft) {rest : List JsonToken}
        {r : List UInt8} (h : Reads jsonParseToken .none (afterMembers ms ++ rest) r l')
        (hrest : InFormat ms → ∀ r, Reads jsonParseToken .none rest r l' → OutOfStep r) :
        Broken (afterMember (parseMembers (recordMember p columns) fuel) draft r) := by
      cases ms with
      | nil =>
        obtain ⟨n, hend, h⟩ := Reads.head h (by simp)
        rw [afterMember_end hend]
        intro draft' l₁ hok
        cases hok
        exact hrest ⟨[], rfl⟩ n h
      | cons m ms =>
        obtain ⟨n, hcomma, h⟩ := Reads.head h (by simp)
        rw [afterMember_comma hcomma]
        exact ih (m :: ms) draft h hrest
    cases ms with
    | nil =>
      obtain ⟨m, hend, h⟩ := Reads.head h (by simp)
      rw [parseMembers, hend]
      intro draft' l₁ hok
      cases hok
      exact hrest ⟨[], rfl⟩ m h
    | cons m ms =>
      obtain ⟨key, value, hvalue⟩ := m
      rw [membersTail_cons, List.cons_append, List.cons_append, List.append_assoc] at h
      obtain ⟨n₀, hkey, h⟩ := Reads.head h (by simp)
      obtain ⟨n, hcolon, h⟩ := Reads.head h (by simp)
      rw [parseMembers_round hkey hcolon]
      by_cases hid : key = cstr "id"
      · subst hid
        rw [recordMember_id]
        dsimp only
        rcases hvalue.afterToken h with ⟨t, rfl, -, h⟩ | ⟨hcomma, hend⟩ | ⟨r, hend, h⟩
        · exact hafter ms _ h fun hms => hrest (hms.cons (.id t) rfl)
        · rw [afterMember_other hcomma hend]
          exact broken_error
        · -- an empty object for the id ends the record
          rw [afterMember_end hend]
          intro draft' l₁ hok
          cases hok
          exact outOfStep_of_afterMembers h
      by_cases hfields : key = cstr "fields"
      · subst hfields
        have hmember := fieldsMemberEnd p columns draft hvalue h
        generalize recordMember p columns (cstr "fields") draft n = res at hmember
        cases hmember with
        | failed => exact broken_error
        | @whole fs _ _ hv h =>
          exact hafter ms _ h fun hms => hrest (hms.cons (.fields fs) (congrArg (_, ·) hv))
        | @early gs _ _ h =>
          -- what is left of the fields is read as members of the record
          exact hafter gs _ h fun _ r hr => outOfStep_of_afterMembers hr
      · have hother : recordMember p columns key draft n =
            (skipValue n).map fun l => (draft, l) := by
          rw [recordMember, if_neg hid, if_neg hfields]
        have hskip : Yields (afterMembers ms ++ rest) l' (some draft)
            (recordMember p columns key draft n) := by
          rw [hother]
          exact parses_skipValue hvalue.skips draft _ n l' h
        generalize recordMember p columns key draft n = res at hskip
        cases hskip with
        | done h =>
          refine hafter ms _ h fun hms =>
            hrest (hms.cons (.other ⟨key, value, ?_, hvalue⟩) rfl)
          simp [hid, hfields]

/-! ### Arrays of records -/

/-- The tokens of a record object. -/
def anyObjectTokens (ms : List AnyMember) : List JsonToken := .objectStart :: membersTail ms

/-- The tokens of an array of record objects. -/
def anyRecordsTokens (objs : List (List AnyMember)) : List JsonToken :=
  arrayTokens (objs.map anyObjectTokens)

/-- The tokens behind an element. -/
def afterElements (objs : List (List AnyMember)) : List JsonToken :=
  match objs with
  | [] => [.arrayEnd]
  | ms :: objs => .comma :: arrayTail ((ms :: objs).map anyObjectTokens)

theorem arrayTail_cons (ms : List AnyMember) (objs : List (List AnyMember)) :
    arrayTail ((ms :: objs).map anyObjectTokens) =
      .objectStart :: (membersTail ms ++ afterElements objs) := by
  cases objs with
  | nil => simp [arrayTail, afterElements, sepBy, anyObjectTokens]
  | cons ms' objs => simp [arrayTail, afterElements, sepBy, anyObjectTokens]

/-- A record object of the format is read as its entries say. -/
theorem reads_entries (columns : List Column) {ms : List AnyMember} {es : List RecordEntry}
    (hes : ms.map AnyMember.member = es.map RecordEntry.member) {rest : List JsonToken}
    {l l' : List UInt8} (h : Reads jsonParseToken .none (membersTail ms ++ rest) l l') :
    ∃ r, parseMembers (recordMember p columns) (l.length + 1) ⟨-1, initialValues columns⟩ l =
        .ok (recordDraft p columns es, r) ∧ Reads jsonParseToken .none rest r l' := by
  rw [membersTail, hes] at h
  exact reads_object RecordEntry.member (RecordEntry.apply p columns)
    (steady_recordMember p columns) (fun e draft => parses_recordEntry p columns e draft) es _
    (Nat.lt_succ_self l.length) h

/-- Behind a record that is out of step no other is read. -/
theorem not_ok_of_outOfStep {i : Nat} {columns : List Column} {fuel : Nat} {s : Store} {l : List UInt8}
    (hout : OutOfStep l) {r : Store × List UInt8} :
    (match jsonParseToken l with
      | (.comma, l) => parseElements (recordElement p i columns) fuel s l
      | (.arrayEnd, l) => .ok (s, l)
      | _ => invalid) ≠ .ok r := by
  intro hok
  split at hok
  next m hm =>
    obtain ⟨hstart, hend⟩ := hout.2 m hm
    cases fuel with
    | zero => cases hok
    | succ fuel =>
      rw [parseElements] at hok
      split at hok
      next h => exact hend (congrArg Prod.fst h)
      next h => exact hstart (congrArg Prod.fst h)
      · cases hok
  next m hm => exact hout.1 (congrArg Prod.fst hm)
  · cases hok

theorem inFormat_of_parseElements {i : Nat} {columns : List Column} {fuel : Nat}
    {objs : List (List AnyMember)} {s : Store} {r : Store × List UInt8} {rest : List JsonToken}
    {l l' : List UInt8}
    (h : Reads jsonParseToken .none (arrayTail (objs.map anyObjectTokens) ++ rest) l l')
    (hok : parseElements (recordElement p i columns) fuel s l = .ok r) :
    ∀ ms ∈ objs, InFormat ms := by
  induction fuel generalizing objs s l with
  | zero => cases hok
  | succ fuel ih =>
    cases objs with
    | nil => exact fun ms hms => absurd hms List.not_mem_nil
    | cons ms objs =>
      rw [arrayTail_cons, List.cons_append, List.append_assoc] at h
      obtain ⟨m, hstart, h⟩ := Reads.head h (by simp)
      rw [parseElements, hstart] at hok
      dsimp only at hok
      by_cases hms : InFormat ms
      · obtain ⟨es, hes⟩ := id hms
        obtain ⟨n, hread, h⟩ := reads_entries p columns hes h
        rw [recordElement, hread] at hok
        dsimp only at hok
        cases hinsert : insertDraft p i columns (recordDraft p columns es) s with
        | error e =>
          rw [hinsert] at hok
          cases hok
        | ok s₁ =>
          rw [hinsert] at hok
          refine List.forall_mem_cons.mpr ⟨hms, ?_⟩
          cases objs with
          | nil => exact fun ms hms => absurd hms List.not_mem_nil
          | cons ms' objs =>
            obtain ⟨n', hcomma, h⟩ := Reads.head h (by simp)
            refine ih h (s := s₁) ?_
            show parseElements (recordElement p i columns) fuel s₁ n' = .ok r
            rw [← hok]
            dsimp only [Except.map]
            rw [hcomma]
      · have hbroken := broken_record p columns (m.length + 1) ms ⟨-1, initialValues columns⟩ h
          fun h => absurd h hms
        rw [recordElement] at hok
        generalize parseMembers (recordMember p columns) (m.length + 1)
          ⟨-1, initialValues columns⟩ m = res at hbroken hok
        cases res with
        | error e => cases hok
        | ok d =>
          obtain ⟨draft, n⟩ := d
          dsimp only at hok
          cases hinsert : insertDraft p i columns draft s with
          | error e =>
            rw [hinsert] at hok
            cases hok
          | ok s₁ =>
            rw [hinsert] at hok
            exact absurd hok (not_ok_of_outOfStep p (hbroken draft n rfl))

/-- **Only arrays of records of the format are loaded.** -/
theorem inFormat_of_loaded {i : Nat} {objs : List (List AnyMember)} {s : Store}
    {r : Store × List UInt8} {l l' : List UInt8}
    (h : Reads jsonParseToken .none (anyRecordsTokens objs) l l')
    (hok : jsonParseTableRecords p i s l = .ok r) : ∀ ms ∈ objs, InFormat ms := by
  rw [← List.append_nil (anyRecordsTokens objs)] at h
  obtain ⟨m, hstart, h⟩ := Reads.head h (by simp)
  unfold jsonParseTableRecords at hok
  cases ht : s.db.tables[i]? with
  | none =>
    rw [ht] at hok
    cases hok
  | some t =>
    rw [ht] at hok
    dsimp only at hok
    rw [hstart] at hok
    exact inFormat_of_parseElements p h hok

/-! ### Records of the format -/

/-- Inserting one draft after another, up to one that is refused with an error. -/
def insertDrafts (i : Nat) (columns : List Column) : List RecordDraft → Store →
    Store × Except Failure Unit
  | [], s => (s, .ok ())
  | draft :: drafts, s =>
    match insertDraftKept p i columns draft s with
    | (s, .ok _) => insertDrafts i columns drafts s
    | (s, .error e) => (s, .error e)

/-- What `json_parse_table_records` leaves behind, and its result. -/
def recordsOutcome (i : Nat) (s : Store) (l : List UInt8) : Store × Except Failure Unit :=
  ((jsonParseTableRecordsKept p i s l).1, (jsonParseTableRecordsKept p i s l).2.map fun _ => ())

/-- The objects are those of the entries. -/
def EntriesOf (objs : List (List AnyMember)) (ess : List (List RecordEntry)) : Prop :=
  List.Forall₂ (fun ms es => ms.map AnyMember.member = es.map RecordEntry.member) objs ess

theorem exists_entriesOf {objs : List (List AnyMember)} (h : ∀ ms ∈ objs, InFormat ms) :
    ∃ ess, EntriesOf objs ess := by
  induction objs with
  | nil => exact ⟨[], .nil⟩
  | cons ms objs ih =>
    obtain ⟨es, hes⟩ := h ms List.mem_cons_self
    obtain ⟨ess, hess⟩ := ih fun ms hms => h ms (List.mem_cons_of_mem _ hms)
    exact ⟨es :: ess, .cons hes hess⟩

theorem elementsKept_entries (i : Nat) (columns : List Column) {objs : List (List AnyMember)}
    {ess : List (List RecordEntry)} (hess : EntriesOf objs ess) {fuel : Nat} (s : Store)
    {rest : List JsonToken} {l l' : List UInt8} (hl : l.length < fuel)
    (h : Reads jsonParseToken .none (arrayTail (objs.map anyObjectTokens) ++ rest) l l') :
    ((parseElementsKept (recordElementKept p i columns) fuel s l).1,
      (parseElementsKept (recordElementKept p i columns) fuel s l).2.map fun _ => ()) =
      insertDrafts p i columns (ess.map (recordDraft p columns)) s := by
  induction hess generalizing fuel s l with
  | nil =>
    obtain ⟨fuel, rfl⟩ := Nat.exists_eq_succ_of_ne_zero (Nat.ne_zero_of_lt hl)
    obtain ⟨m, hend, -⟩ := Reads.head h (by simp)
    rw [parseElementsKept, hend]
    rfl
  | @cons ms es objs ess hes hess ih =>
    obtain ⟨fuel, rfl⟩ := Nat.exists_eq_succ_of_ne_zero (Nat.ne_zero_of_lt hl)
    rw [arrayTail_cons, List.cons_append, List.append_assoc] at h
    obtain ⟨m, hstart, h⟩ := Reads.head h (by simp)
    obtain ⟨n, hread, h⟩ := reads_entries p columns hes h
    have h1 := length_parseToken_lt hstart (by simp) (by simp)
    have h2 : n.length ≤ m.length := by
      have hsteady := steady_parseMembers (steady_recordMember p columns) (m.length + 1)
        ⟨-1, initialValues columns⟩ m (Nat.lt_succ_self _)
      rw [hread] at hsteady
      exact hsteady
    rw [parseElementsKept, hstart]
    dsimp only
    rw [recordElementKept, hread, List.map_cons, insertDrafts]
    dsimp only
    obtain ⟨s₁, r⟩ := insertDraftKept p i columns (recordDraft p columns es) s
    cases r with
    | error e => rfl
    | ok _ =>
      dsimp only [Except.map]
      cases hess with
      | nil =>
        obtain ⟨m', hend, -⟩ := Reads.head h (by simp)
        rw [hend]
        rfl
      | cons hes' hess' =>
        obtain ⟨m', hcomma, h⟩ := Reads.head h (by simp)
        have h3 := length_of_parseToken hcomma
        rw [hcomma]
        exact ih s₁ (by omega) h

/-- **An array of records of the format** does what inserting its records does. -/
theorem recordsOutcome_entries {i : Nat} {s : Store} {t : Table} (ht : s.db.tables[i]? = some t)
    {objs : List (List AnyMember)} {ess : List (List RecordEntry)} (hess : EntriesOf objs ess)
    {l l' : List UInt8} (h : Reads jsonParseToken .none (anyRecordsTokens objs) l l') :
    recordsOutcome p i s l = insertDrafts p i t.columns (ess.map (recordDraft p t.columns)) s := by
  rw [← List.append_nil (anyRecordsTokens objs)] at h
  obtain ⟨m, hstart, h⟩ := Reads.head h (by simp)
  rw [recordsOutcome, jsonParseTableRecordsKept, ht]
  dsimp only
  rw [hstart]
  exact elementsKept_entries p i t.columns hess s (Nat.lt_succ_self m.length) h

/-- Every record object is of the format. -/
def AllInFormat (objs : List (List AnyMember)) : Prop := ∀ ms ∈ objs, InFormat ms

/-- The text is the array of record objects. -/
def IsArray (objs : List (List AnyMember)) (l : List UInt8) : Prop :=
  ∃ l', Reads jsonParseToken .none (anyRecordsTokens objs) l l'

/-- The array is loaded to its end. -/
theorem inFormat_of_outcome {i : Nat} {s : Store} {objs : List (List AnyMember)} {l : List UInt8}
    (h : IsArray objs l) (hok : (recordsOutcome p i s l).2 = .ok ()) : AllInFormat objs := by
  obtain ⟨m, h⟩ := h
  obtain ⟨s', r, hkept⟩ : ∃ s' r, jsonParseTableRecordsKept p i s l = (s', r) := ⟨_, _, rfl⟩
  rw [recordsOutcome, hkept] at hok
  cases r with
  | error e => cases hok
  | ok r =>
    refine inFormat_of_loaded p (i := i) (s := s) (r := (s', r)) h ?_
    rw [jsonParseTableRecords_eq, hkept]
    rfl

end Luminix
