import Luminix.Equiv.Nested

/-!
# Unknown fields of a record

A field whose key is no column is skipped by reading one token.  So it has no effect if its value is
a scalar, and an array or an object there makes an array fail that would be loaded without it
(`unknown_field_skipped_iff`).
-/

namespace Luminix

open CLib TokenReader

variable (p : Platform)

/-! ### A place for a field -/

/-- A member `fields` of a record. -/
def fieldsMember (fs : List AnyMember) : AnyMember where
  key := cstr "fields"
  value := anyObjectTokens fs
  tokens := .object fun m hm => by
    obtain ⟨x, -, rfl⟩ := List.mem_map.mp hm
    exact x.tokens

/-- An array of record objects, and a place among the members of a `fields` object in it. -/
structure FieldPlace where
  objsBefore : List (List AnyMember)
  membersBefore : List AnyMember
  fieldsBefore : List AnyMember
  fieldsAfter : List AnyMember
  membersAfter : List AnyMember
  objsAfter : List (List AnyMember)

namespace FieldPlace

/-- The record with the place, with these fields put there. -/
def record (q : FieldPlace) (fs : List AnyMember) : List AnyMember :=
  q.membersBefore ++ fieldsMember (q.fieldsBefore ++ fs ++ q.fieldsAfter) :: q.membersAfter

/-- The array, with these fields put at the place. -/
def array (q : FieldPlace) (fs : List AnyMember) : List (List AnyMember) :=
  q.objsBefore ++ q.record fs :: q.objsAfter

end FieldPlace

theorem objectTokens_map (ms : List AnyMember) :
    objectTokens (ms.map AnyMember.member) = anyObjectTokens ms := rfl

/-- The members of an object are determined by its tokens, if the values of one are scalars. -/
theorem scalars_of_tokens {ms gs : List AnyMember} (hgs : Scalars gs) {r r' : List JsonToken}
    (h : membersTail ms ++ r = membersTail gs ++ r') : Scalars ms := by
  induction ms generalizing gs with
  | nil => exact ⟨[], rfl⟩
  | cons m ms ih =>
    cases gs with
    | nil =>
      rw [membersTail_cons] at h
      cases h
    | cons g gs =>
      obtain ⟨fs, hfs⟩ := hgs
      cases fs with
      | nil => cases hfs
      | cons f fs =>
        rw [List.map_cons, List.map_cons, List.cons.injEq] at hfs
        obtain ⟨hg, hfs⟩ := hfs
        have hvalue : g.value = [f.2.token] := congrArg Prod.snd hg
        rw [membersTail_cons, membersTail_cons, hvalue] at h
        simp only [List.cons_append, List.append_assoc, List.cons.injEq, true_and,
          List.nil_append] at h
        obtain ⟨-, h⟩ := h
        have hscalar := f.2.scalar
        rcases m.tokens.cases with ⟨t, ht⟩ | ⟨us, hus, -⟩ | ⟨gs', hgs'⟩
        · rw [ht] at h
          simp only [List.cons_append, List.nil_append, List.cons.injEq] at h
          refine Scalars.cons ht ?_
          cases ms with
          | nil => exact ⟨[], rfl⟩
          | cons m' ms =>
            cases gs with
            | nil => cases h.2
            | cons g' gs => exact ih ⟨fs, hfs⟩ (List.cons.inj h.2).2
        · rw [hus] at h
          rw [← (List.cons.inj h).1] at hscalar
          cases hscalar
        · rw [hgs'] at h
          rw [← (List.cons.inj h).1] at hscalar
          cases hscalar

theorem scalars_map (fs : List (CString × Scalar)) :
    ∃ gs : List AnyMember, Scalars gs ∧
      gs.map AnyMember.member = fs.map fun f => (f.1, [f.2.token]) := by
  have htokens : ∀ m ∈ fs.map fun f => (f.1, [f.2.token]), ValueTokens m.2 := by
    intro m hm
    obtain ⟨f, -, rfl⟩ := List.mem_map.mp hm
    exact .scalar f.2
  obtain ⟨gs, hgs⟩ := exists_anyMembers htokens
  exact ⟨gs, ⟨fs, hgs⟩, hgs⟩

/-- The fields of a record of the format are scalars. -/
theorem InFormat.scalars {ms₁ ms₂ fs : List AnyMember}
    (h : InFormat (ms₁ ++ fieldsMember fs :: ms₂)) : Scalars fs := by
  obtain ⟨es, hes⟩ := h
  have hmem : (fieldsMember fs).member ∈ es.map RecordEntry.member := by
    rw [← hes, List.map_append, List.map_cons]
    exact List.mem_append_right _ List.mem_cons_self
  obtain ⟨e, -, he⟩ := List.mem_map.mp hmem
  cases e with
  | id t =>
    have hne : cstr "id" ≠ cstr "fields" := by decide
    exact absurd (congrArg Prod.fst he) hne
  | fields gs =>
    obtain ⟨gs', hscalars, hgs'⟩ := scalars_map gs
    have htokens : objectTokens (gs.map fun f => (f.1, [f.2.token])) = anyObjectTokens fs :=
      congrArg Prod.snd he
    rw [← hgs', objectTokens_map] at htokens
    have htails : membersTail fs ++ [] = membersTail gs' ++ [] := by
      rw [List.append_nil, List.append_nil]
      exact (List.cons.inj htokens.symm).2
    exact scalars_of_tokens hscalars htails
  | other m =>
    have hkey : m.key = cstr "fields" := congrArg Prod.fst he
    exact absurd m.key_notMem (by simp [hkey])

theorem member_fieldsMember {gs : List AnyMember} {fs : List (CString × Scalar)}
    (h : gs.map AnyMember.member = fs.map fun f => (f.1, [f.2.token])) :
    (fieldsMember gs).member = (RecordEntry.fields fs).member := by
  show (cstr "fields", objectTokens (gs.map AnyMember.member)) = _
  rw [h]
  rfl

/-- The entries of a record of the format, with and without a field among its fields. -/
theorem FieldPlace.exists_entries {q : FieldPlace} {new : AnyMember}
    (h : InFormat (q.record [new])) : ∃ es₁ fs₁ fs₂ es₂, ∃ t : Scalar, new.value = [t.token] ∧
      (q.record [new]).map AnyMember.member =
        (es₁ ++ .fields (fs₁ ++ (new.key, t) :: fs₂) :: es₂).map RecordEntry.member ∧
      (q.record []).map AnyMember.member =
        (es₁ ++ .fields (fs₁ ++ fs₂) :: es₂).map RecordEntry.member := by
  obtain ⟨fs, hfs⟩ := h.scalars
  obtain ⟨es, hes⟩ := h
  simp only [List.map_append, List.append_assoc, List.map_cons, List.nil_append,
    List.cons_append] at hfs
  obtain ⟨fs₁, fs', rfl, hfs₁, hfs'⟩ := List.append_eq_map_iff.mp hfs
  obtain ⟨f, fs₂, rfl, hf, hfs₂⟩ := List.map_eq_cons_iff.mp hfs'
  rw [FieldPlace.record, List.map_append, List.map_cons] at hes
  obtain ⟨es₁, es', rfl, hes₁, hes'⟩ := List.append_eq_map_iff.mp hes
  obtain ⟨e, es₂, rfl, -, hes₂⟩ := List.map_eq_cons_iff.mp hes'
  have hkey : f.1 = new.key := congrArg Prod.fst hf
  have hvalue : [f.2.token] = new.value := congrArg Prod.snd hf
  have hwith : (fieldsMember (q.fieldsBefore ++ [new] ++ q.fieldsAfter)).member =
      (RecordEntry.fields (fs₁ ++ (new.key, f.2) :: fs₂)).member :=
    member_fieldsMember (by simp [hfs₁, hfs₂, ← hkey, hvalue, AnyMember.member])
  have hwithout : (fieldsMember (q.fieldsBefore ++ [] ++ q.fieldsAfter)).member =
      (RecordEntry.fields (fs₁ ++ fs₂)).member := member_fieldsMember (by simp [hfs₁, hfs₂])
  refine ⟨es₁, fs₁, fs₂, es₂, f.2, hvalue.symm, ?_, ?_⟩
  · rw [FieldPlace.record, List.map_append, List.map_cons, List.map_append, List.map_cons, hes₁, hes₂,
      hwith]
  · rw [FieldPlace.record, List.map_append, List.map_cons, List.map_append, List.map_cons, hes₁, hes₂,
      hwithout]

/-- A field that is no column changes no draft. -/
theorem recordDraft_unknown {columns : List Column} {key : CString}
    (hkey : ∀ c ∈ columns, c.name ≠ key) (es₁ es₂ : List RecordEntry)
    (fs₁ fs₂ : List (CString × Scalar)) (t : Scalar) :
    recordDraft p columns (es₁ ++ .fields (fs₁ ++ (key, t) :: fs₂) :: es₂) =
      recordDraft p columns (es₁ ++ .fields (fs₁ ++ fs₂) :: es₂) := by
  have hnone : columnIndex columns key = none := by
    rw [columnIndex, List.findIdx?_eq_none_iff]
    exact fun c hc => decide_eq_false (hkey c hc)
  have hloaded (values : List Field) : loadedField p columns values key t.token = values := by
    rw [loadedField, hnone]
  have hentry (draft : RecordDraft) :
      (RecordEntry.fields (fs₁ ++ (key, t) :: fs₂)).apply p columns draft =
        (RecordEntry.fields (fs₁ ++ fs₂)).apply p columns draft := by
    rw [RecordEntry.apply, RecordEntry.apply, List.foldl_append, List.foldl_cons, hloaded,
      List.foldl_append]
  rw [recordDraft, recordDraft, List.foldl_append, List.foldl_cons, hentry, List.foldl_append,
    List.foldl_cons]

/-! ### The law -/

/-- **A scalar under a key that is no column has no effect.** -/
theorem recordsOutcome_unknown {i : Nat} {s : Store} {q : FieldPlace} {new : AnyMember}
    (hnew : ∀ t, s.db.tables[i]? = some t → ∀ c ∈ t.columns, c.name ≠ new.key) {l l' : List UInt8}
    (h : IsArray (q.array []) l) (h' : IsArray (q.array [new]) l')
    (hformat : AllInFormat (q.array [new])) :
    recordsOutcome p i s l' = recordsOutcome p i s l := by
  cases ht : s.db.tables[i]? with
  | none =>
    have hnone (l : List UInt8) : jsonParseTableRecordsKept p i s l = (s, invalid) := by
      rw [jsonParseTableRecordsKept, ht]
    rw [recordsOutcome, recordsOutcome, hnone, hnone]
  | some t =>
    obtain ⟨m, h⟩ := h
    obtain ⟨m', h'⟩ := h'
    rw [AllInFormat, FieldPlace.array] at hformat
    simp only [List.mem_append, List.mem_cons] at hformat
    have hbefore : ∀ ms ∈ q.objsBefore, InFormat ms := fun ms hms => hformat ms (.inl hms)
    have hafter : ∀ ms ∈ q.objsAfter, InFormat ms := fun ms hms => hformat ms (.inr (.inr hms))
    obtain ⟨ess₁, hess₁⟩ := exists_entriesOf hbefore
    obtain ⟨ess₂, hess₂⟩ := exists_entriesOf hafter
    obtain ⟨es₁, fs₁, fs₂, es₂, u, -, hwith, hwithout⟩ :=
      FieldPlace.exists_entries (hformat _ (.inr (.inl rfl)))
    have hentries' := List.rel_append hess₁ (.cons hwith hess₂)
    have hentries := List.rel_append hess₁ (.cons hwithout hess₂)
    rw [recordsOutcome_entries p ht hentries' h', recordsOutcome_entries p ht hentries h]
    simp only [List.map_append, List.map_cons]
    rw [recordDraft_unknown p (hnew t ht)]

/-- **When an unknown field is skipped whole**: it is, if all values that are read as one token are
scalars, its own included; and of an array that is loaded without it, it is in no other case. -/
theorem unknown_field_skipped_iff (i : Nat) (s : Store) (q : FieldPlace) (new : AnyMember)
    (hnew : ∀ t, s.db.tables[i]? = some t → ∀ c ∈ t.columns, c.name ≠ new.key) (l l' : List UInt8)
    (h : IsArray (q.array []) l) (h' : IsArray (q.array [new]) l') :
    (AllInFormat (q.array [new]) → recordsOutcome p i s l' = recordsOutcome p i s l) ∧
      ((recordsOutcome p i s l).2 = .ok () →
        recordsOutcome p i s l' = recordsOutcome p i s l → AllInFormat (q.array [new])) := by
  refine ⟨recordsOutcome_unknown p hnew h h', fun hok hsame => ?_⟩
  rw [← hsame] at hok
  exact inFormat_of_outcome p h' hok

/-! ### A table with one column -/

def AnyMember.scalar (key : CString) (t : Scalar) : AnyMember := ⟨key, [t.token], .scalar t⟩

def AnyMember.emptyArray (key : CString) : AnyMember where
  key := key
  value := arrayTokens []
  tokens := .array fun _ hx => absurd hx List.not_mem_nil

def idStore : Store where
  db := (dbAddTable dbCreate (some (cstr "t")) (some [(some (cstr "id"), .int)])).2
  globalCounter := 1000

/-- The fields of a single record with id 5. -/
def onlyField : FieldPlace where
  objsBefore := []
  membersBefore := [.scalar (cstr "id") (.number (cstr "5"))]
  fieldsBefore := []
  fieldsAfter := []
  membersAfter := []
  objsAfter := []

def noField : List UInt8 := ascii "[\x7b\"id\": 5, \"fields\": \x7b\x7d\x7d]"

def scalarField : List UInt8 := ascii "[\x7b\"id\": 5, \"fields\": \x7b\"x\": 7\x7d\x7d]"

def arrayField : List UInt8 := ascii "[\x7b\"id\": 5, \"fields\": \x7b\"x\": []\x7d\x7d]"

theorem isArray_noField : IsArray (onlyField.array []) noField :=
  ⟨[], reads_of_skipTokens (by decide) (by decide)⟩

theorem idStore_columns :
    ∀ t, idStore.db.tables[0]? = some t → ∀ c ∈ t.columns, c.name ≠ cstr "x" := by
  decide

/-- The number 7 under the key `x` has no effect. -/
theorem unknown_field_skipped_seven :
    recordsOutcome .epoch 0 idStore scalarField = recordsOutcome .epoch 0 idStore noField := by
  have hscalar : IsArray (onlyField.array [.scalar (cstr "x") (.number (cstr "7"))]) scalarField :=
    ⟨[], reads_of_skipTokens (by decide) (by decide)⟩
  refine (unknown_field_skipped_iff .epoch 0 idStore onlyField
    (.scalar (cstr "x") (.number (cstr "7"))) idStore_columns noField scalarField isArray_noField
    hscalar).1 ?_
  intro ms hms
  obtain rfl := List.mem_singleton.mp hms
  exact ⟨[.id (.number (cstr "5")), .fields [(cstr "x", .number (cstr "7"))]], rfl⟩

/-- With an empty array there, the record is not loaded. -/
theorem array_field_refused :
    IsArray (onlyField.array []) noField ∧
    IsArray (onlyField.array [.emptyArray (cstr "x")]) arrayField ∧
    (∀ t, idStore.db.tables[0]? = some t → ∀ c ∈ t.columns, c.name ≠ cstr "x") ∧
    (recordsOutcome .epoch 0 idStore noField).2 = .ok () ∧
    (recordsOutcome .epoch 0 idStore arrayField).2 = invalid ∧
    recordsOutcome .epoch 0 idStore arrayField ≠ recordsOutcome .epoch 0 idStore noField := by
  have hok : (recordsOutcome .epoch 0 idStore noField).2 = .ok () := by decide
  have hinvalid : (recordsOutcome .epoch 0 idStore arrayField).2 = invalid := by decide
  refine ⟨isArray_noField, ⟨[], reads_of_skipTokens (by decide) (by decide)⟩,
    idStore_columns, hok, hinvalid, fun h => ?_⟩
  rw [h, hok] at hinvalid
  cases hinvalid

end Luminix
