import Luminix.Equiv.Nameless
import Luminix.Equiv.Places

/-!
# When only JSON is loaded

The loader is lenient in its tokens and in what may follow what.  A document whose tokens all have a
place leaves no bracket open (`Document.leads`), so a reading that needs no lenient step, with nothing
but white space behind it, has read a JSON text (`Document.jsonText`).  Conversely every reading of a
JSON text finds tokens in their places (`JsonText.reading`).  Together they say when the loader turns
down what is not JSON (`load_strict_iff`).
-/

namespace Luminix

open CLib

variable {σ : Type}

/-! ### Where tokens lead -/

/-- If all tokens have a place behind `s`, they lead to `Q`. -/
def Leads (s : Place × List Bracket) (ts : List JsonToken) (Q : Place × List Bracket → Prop) :
    Prop :=
  ∀ s', placesAfter s ts = some s' → Q s'

section

variable {s : Place × List Bracket} {t : JsonToken} {ts us : List JsonToken}
  {P Q : Place × List Bracket → Prop}

theorem leads_nil (h : Q s) : Leads s [] Q := by
  intro s' hs
  obtain rfl := Option.some.inj hs
  exact h

theorem leads_cons (h : ∀ s', placeAfter s t = some s' → Leads s' ts Q) : Leads s (t :: ts) Q := by
  intro s' hs
  obtain ⟨s₁, hplace, hrest⟩ := Option.bind_eq_some_iff.mp hs
  exact h s₁ hplace s' hrest

theorem Leads.append (h : Leads s ts P) (h' : ∀ s', P s' → Leads s' us Q) :
    Leads s (ts ++ us) Q := by
  intro s' hs
  rw [placesAfter_append] at hs
  obtain ⟨s₁, hts, hus⟩ := Option.bind_eq_some_iff.mp hs
  exact h' s₁ (h s₁ hts) s' hus

theorem Leads.mono (h : Leads s ts P) (hPQ : ∀ s', P s' → Q s') : Leads s ts Q :=
  fun s' hs => hPQ s' (h s' hs)

/-- A token that may come next. -/
theorem Leads.step {s₁ : Place × List Bracket} (hplace : placeAfter s t = some s₁)
    (h : Leads s₁ ts Q) : Leads s (t :: ts) Q :=
  leads_cons fun s' hs => by
    rw [hplace] at hs
    exact Option.some.inj hs ▸ h

/-- A token that may not come next leads anywhere. -/
theorem leads_of_none (hplace : placeAfter s t = none) : Leads s (t :: ts) Q :=
  leads_cons fun s' hs => by
    rw [hplace] at hs
    cases hs

/-- A key that may come where the object may end leads as far where it has to come. -/
theorem Leads.key {brackets : List Bracket} (h : Leads (.firstKey, brackets) (t :: ts) Q) :
    Leads (.key, brackets) (t :: ts) Q :=
  fun s' hs => h s' (placesAfter_firstKey hs)

theorem Leads.value {brackets : List Bracket} (h : Leads (.firstValue, brackets) (t :: ts) Q) :
    Leads (.value, brackets) (t :: ts) Q :=
  fun s' hs => h s' (placesAfter_firstValue hs)

/-- A key and a colon. -/
theorem Leads.member {brackets : List Bracket} (h : Leads (.value, .object :: brackets) ts Q)
    (key : CString) : Leads (.firstKey, .object :: brackets) (.string key :: .colon :: ts) Q :=
  .step rfl (.step rfl h)

end

/-! ### Skipped values -/

variable {S : List Bracket}

/-- An element of an array may come where the array may end. -/
theorem Leads.element {t : JsonToken} {ts : List JsonToken} {Q : Place × List Bracket → Prop}
    (ht : IsItem t) (h : Leads (.value, .array :: S) (t :: ts) Q) :
    Leads (.firstValue, .array :: S) (t :: ts) Q := by
  refine leads_cons fun s' hs => fun s'' hrest => h s'' (Option.bind_eq_some_iff.mpr ⟨s', ?_, hrest⟩)
  cases t <;> first | exact hs | exact absurd rfl ht.1

/-- Behind an opening brace only a key or the closing one has a place. -/
theorem placeAfter_firstKey_none {t : JsonToken} (hend : t ≠ .objectEnd)
    (hkey : ∀ key, t ≠ .string key) : placeAfter (.firstKey, .object :: S) t = none := by
  cases t <;> first | rfl | exact absurd rfl hend | exact absurd rfl (hkey _)

theorem placeAfter_colon_none {t : JsonToken} (hcolon : t ≠ .colon) :
    placeAfter (.colon, .object :: S) t = none := by
  cases t <;> first | rfl | exact absurd rfl hcolon

/-- Behind a value in an object only a comma or the end of the object has a place. -/
theorem placeAfter_member_none {t : JsonToken} (hcomma : t ≠ .comma) (hend : t ≠ .objectEnd) :
    placeAfter (.next, .object :: S) t = none := by
  cases t <;> first | rfl | contradiction

theorem placeAfter_element_none {t : JsonToken} (hcomma : t ≠ .comma) (hend : t ≠ .arrayEnd) :
    placeAfter (.next, .array :: S) t = none := by
  cases t <;> first | rfl | contradiction

/-- Where a key has to come, no other token has a place. -/
theorem placeAfter_key_none {t : JsonToken} (hkey : ∀ key, t ≠ .string key) :
    placeAfter (.key, S) t = none := by
  rcases S with _ | ⟨_ | _, S⟩ <;> cases t <;> first | rfl | exact absurd rfl (hkey _)

/-- Where an array has begun, neither a member nor an object ends. -/
theorem placeAfter_firstValue_none {t : JsonToken} (ht : t = .objectEnd ∨ t = .comma) :
    placeAfter (.firstValue, S) t = none := by
  rcases S with _ | ⟨_ | _, S⟩ <;> rcases ht with rfl | rfl <;> rfl

/-- The loop over an object or an array reads at least one token. -/
theorem Skipped.exists_cons {e : ErrorCode} {t : JsonToken} {ts : List JsonToken}
    (h : Skipped e t ts) (ht : t = .objectStart ∨ t = .arrayStart) : ∃ u us, ts = u :: us := by
  cases h with
  | token hobject harray => exact (ht.elim hobject harray).elim
  | _ => exact ⟨_, _, rfl⟩

/-- **A skipped value** whose tokens have a place is a value, and has not broken off. -/
theorem Skipped.leads {e : ErrorCode} {t : JsonToken} {ts : List JsonToken} (h : Skipped e t ts)
    (S : List Bracket) :
    Leads (.value, S) (t :: ts) fun s' => e = .success ∧ s' = (.next, S) := by
  induction h generalizing S with
  | @token t hobject harray =>
    refine leads_cons fun s' hs => leads_nil ⟨rfl, ?_⟩
    cases t <;> cases hs
    all_goals first | rfl | exact absurd rfl hobject | exact absurd rfl harray
  | objectEnd => exact .step rfl (.step rfl (leads_nil ⟨rfl, rfl⟩))
  | objectLast hv ih =>
    refine .step rfl (.member ((ih _).append ?_) _)
    rintro _ ⟨-, rfl⟩
    exact .step rfl (leads_nil ⟨rfl, rfl⟩)
  | @objectMore e key t v ts hv hts ih ihrest =>
    refine .step rfl (.member ((ih _).append ?_) _)
    rintro _ ⟨-, rfl⟩
    -- behind the comma the rest is read as if the object began there
    obtain ⟨u, us, rfl⟩ := hts.exists_cons (.inl rfl)
    exact .step rfl (.key (ihrest S))
  | noKey hend hkey =>
    exact .step rfl (leads_of_none (placeAfter_firstKey_none hend hkey))
  | noColon hcolon =>
    exact .step rfl (.step rfl (leads_of_none (placeAfter_colon_none hcolon)))
  | brokenMember hv he ih =>
    refine .step rfl (.member ((ih _).mono ?_) _)
    rintro _ ⟨hsuccess, -⟩
    exact absurd hsuccess he
  | noObjectEnd hv hcomma hend ih =>
    refine .step rfl (.member ((ih _).append ?_) _)
    rintro _ ⟨-, rfl⟩
    exact leads_of_none (placeAfter_member_none hcomma hend)
  | arrayEnd => exact .step rfl (.step rfl (leads_nil ⟨rfl, rfl⟩))
  | arrayLast ht hv ih =>
    refine .step rfl (.element ht ((ih _).append ?_))
    rintro _ ⟨-, rfl⟩
    exact .step rfl (leads_nil ⟨rfl, rfl⟩)
  | arrayMore ht hv hts ih ihrest =>
    refine .step rfl (.element ht ((ih _).append ?_))
    rintro _ ⟨-, rfl⟩
    obtain ⟨u, us, rfl⟩ := hts.exists_cons (.inr rfl)
    exact .step rfl (.value (ihrest S))
  | noItem ht =>
    refine .step rfl (leads_of_none ?_)
    rcases ht with rfl | rfl <;> rfl
  | brokenItem ht hv he ih =>
    refine .step rfl (.element ht ((ih _).mono ?_))
    rintro _ ⟨hsuccess, -⟩
    exact absurd hsuccess he
  | noArrayEnd ht hv hcomma hend ih =>
    refine .step rfl (.element ht ((ih _).append ?_))
    rintro _ ⟨-, rfl⟩
    exact leads_of_none (placeAfter_element_none hcomma hend)

theorem SkipsAs.leads {e : ErrorCode} {ts : List JsonToken} (h : SkipsAs e ts)
    (S : List Bracket) : Leads (.value, S) ts fun s' => s' = (.next, S) := by
  obtain ⟨t, us, rfl, hus⟩ := h
  exact (hus.leads S).mono fun _ h => h.2

theorem Skimmed.leads {ts : List JsonToken} (h : Skimmed ts) (S : List Bracket) :
    Leads (.value, S) ts fun s' => s' = (.next, S) := by
  obtain ⟨e, hskips⟩ := h
  exact hskips.leads S

/-! ### Objects and arrays -/

/-- Braces that a reader may leave open in front of the brackets that were open before it. -/
inductive Deeper (S : List Bracket) : List Bracket → Prop
  | refl : Deeper S S
  | object {T : List Bracket} (h : Deeper S T) : Deeper S (.object :: T)

theorem Deeper.trans {T U : List Bracket} (h : Deeper S T) (h' : Deeper T U) : Deeper S U := by
  induction h' with
  | refl => exact h
  | object _ ih => exact .object ih

/-- Which brackets may be open behind a value: the same, or more braces. -/
structure LeavesOpen (R : List Bracket → List Bracket → Prop) : Prop where
  refl : ∀ S, R S S
  trans : ∀ {S T U}, R S T → R T U → R S U
  /-- A brace can be closed. -/
  pop : ∀ {S T}, R (.object :: S) T → ∃ U, T = .object :: U ∧ R S U

theorem leavesOpen_eq : LeavesOpen Eq where
  refl _ := rfl
  trans := Eq.trans
  pop h := ⟨_, h.symm, rfl⟩

theorem leavesOpen_deeper : LeavesOpen Deeper where
  refl _ := .refl
  trans := Deeper.trans
  pop h := by
    cases h with
    | refl => exact ⟨_, rfl, .refl⟩
    | object h => exact ⟨_, rfl, Deeper.trans (.object .refl) h⟩

variable {R : List Bracket → List Bracket → Prop}

/-- Behind a value. -/
def Ended (R : List Bracket → List Bracket → Prop) (S : List Bracket) (s : Place × List Bracket) :
    Prop :=
  s.1 = .next ∧ R S s.2

/-- Behind a token that is taken for a value: a bracket may only have been opened. -/
inductive Landed (R : List Bracket → List Bracket → Prop) (S : List Bracket) :
    Place × List Bracket → Prop
  | next {T : List Bracket} (h : R S T) : Landed R S (.next, T)
  | firstKey {T : List Bracket} (h : R S T) : Landed R S (.firstKey, T)
  | firstValue {T : List Bracket} : Landed R S (.firstValue, T)

theorem Ended.landed {s : Place × List Bracket} (h : Ended R S s) : Landed R S s := by
  obtain ⟨place, brackets⟩ := s
  obtain ⟨rfl, hR⟩ := h
  exact .next hR

theorem ended_of_eq (hR : LeavesOpen R) {s : Place × List Bracket} (h : s = (.next, S)) :
    Ended R S s := by
  subst h
  exact ⟨rfl, hR.refl S⟩

/-- The brace behind the last member. -/
theorem Landed.objectEnd (hR : LeavesOpen R) {s : Place × List Bracket}
    (h : Landed R (.object :: S) s) : Leads s [.objectEnd] (Ended R S) := by
  cases h with
  | next h =>
    obtain ⟨U, rfl, hU⟩ := hR.pop h
    exact .step rfl (leads_nil ⟨rfl, hU⟩)
  | firstKey h =>
    obtain ⟨U, rfl, hU⟩ := hR.pop h
    exact .step rfl (leads_nil ⟨rfl, hU⟩)
  | firstValue => exact leads_of_none (placeAfter_firstValue_none (.inl rfl))

/-- The comma behind a member. -/
theorem Landed.comma (hR : LeavesOpen R) {s : Place × List Bracket} {ts : List JsonToken}
    {Q : Place × List Bracket → Prop} (h : Landed R (.object :: S) s)
    (hrest : ∀ U, R S U → Leads (.key, .object :: U) ts Q) : Leads s (.comma :: ts) Q := by
  cases h with
  | next h =>
    obtain ⟨U, rfl, hU⟩ := hR.pop h
    exact .step rfl (hrest U hU)
  | firstKey h =>
    obtain ⟨U, rfl, -⟩ := hR.pop h
    exact leads_of_none rfl
  | firstValue => exact leads_of_none (placeAfter_firstValue_none (.inr rfl))

theorem Members.exists_cons {value : CString → σ → List JsonToken → σ → Prop} {s s' : σ}
    {ts : List JsonToken} (h : Members value s ts s') : ∃ t us, ts = t :: us := by
  cases h <;> exact ⟨_, _, rfl⟩

/-- **An object** leaves open what its values do. -/
theorem Members.leads {value : CString → σ → List JsonToken → σ → Prop} (hR : LeavesOpen R)
    (hvalue : ∀ {key s v s'}, value key s v s' → ∀ S, Leads (.value, S) v (Landed R S))
    {s s' : σ} {ts : List JsonToken} (h : Members value s ts s') (S : List Bracket) :
    Leads (.firstKey, .object :: S) ts (Ended R S) := by
  induction h generalizing S with
  | close => exact .step rfl (leads_nil ⟨rfl, hR.refl S⟩)
  | last hv => exact .member ((hvalue hv _).append fun _ h => h.objectEnd hR) _
  | more hv hts ih =>
    refine .member ((hvalue hv _).append fun _ h => h.comma hR fun U hU => ?_) _
    obtain ⟨t, us, rfl⟩ := hts.exists_cons
    exact .key ((ih U).mono fun _ hend => ⟨hend.1, hR.trans hU hend.2⟩)

/-- **An array of objects** leaves nothing open: no bracket closes what a brace has opened. -/
theorem Elements.leads {element : σ → List JsonToken → σ → Prop}
    (helement : ∀ {s v s'}, element s v s' → ∀ S,
      Leads (.firstKey, .object :: S) v (Ended Deeper S))
    {s s' : σ} {ts : List JsonToken} (h : Elements element s ts s') (S : List Bracket) :
    Leads (.firstValue, .array :: S) ts fun s' => s' = (.next, S) := by
  induction h generalizing S with
  | close => exact .step rfl (leads_nil rfl)
  | last hv =>
    refine .step rfl ((helement hv _).append ?_)
    rintro ⟨_, T⟩ ⟨rfl, hT⟩
    cases hT with
    | refl => exact .step rfl (leads_nil rfl)
    | object => exact leads_of_none rfl
  | @more s s' s'' v ts hv hts ih =>
    refine .step rfl ((helement hv _).append ?_)
    rintro ⟨_, T⟩ ⟨rfl, hT⟩
    cases hT with
    | refl =>
      refine .step rfl ?_
      cases hts <;> exact .value (ih S)
    | object =>
      -- behind the comma an object goes on with a key, the array with a bracket
      refine .step rfl ?_
      cases hts <;> exact leads_of_none rfl

/-! ### The parts of a document -/

theorem leads_string (S : List Bracket) (name : CString) :
    Leads (.value, S) [.string name] fun s' => s' = (.next, S) :=
  .step rfl (leads_nil rfl)

theorem MetadataText.leads {ts : List JsonToken} (h : MetadataText ts) (S : List Bracket) :
    Leads (.value, S) ts fun s' => s' = (.next, S) := by
  obtain ⟨us, rfl, hus⟩ := h
  have hobject := hus.leads leavesOpen_eq (fun hv S =>
    (hv.1.leads S).mono fun _ h => (ended_of_eq leavesOpen_eq h).landed) S
  refine .step rfl (hobject.mono ?_)
  rintro ⟨_, _⟩ ⟨rfl, rfl⟩
  rfl

theorem FieldMemberText.leads {key : CString} {field field' : Option CString × FieldType}
    {ts : List JsonToken} (h : FieldMemberText key field ts field') (S : List Bracket) :
    Leads (.value, S) ts fun s' => s' = (.next, S) := by
  unfold FieldMemberText at h
  split_ifs at h
  · obtain ⟨name, rfl, -⟩ := h
    exact leads_string S name
  · obtain ⟨type, rfl, -⟩ := h
    exact leads_string S type
  · exact h.1.leads S

theorem FieldDefinitionText.leads {fields fields' : List (Option CString × FieldType)}
    {ts : List JsonToken} (h : FieldDefinitionText fields ts fields') (S : List Bracket) :
    Leads (.firstKey, .object :: S) ts (Ended Deeper S) := by
  obtain ⟨field, hmembers, -⟩ := h
  exact hmembers.leads leavesOpen_deeper (fun hv S =>
    (hv.leads S).mono fun _ h => (ended_of_eq leavesOpen_deeper h).landed) S

theorem SchemaMemberText.leads {key : CString} {draft draft' : SchemaDraft} {ts : List JsonToken}
    (h : SchemaMemberText key draft ts draft') (S : List Bracket) :
    Leads (.value, S) ts fun s' => s' = (.next, S) := by
  unfold SchemaMemberText at h
  split_ifs at h
  · obtain ⟨name, rfl, -⟩ := h
    exact leads_string S name
  · obtain ⟨us, rfl, fields, hfields, -⟩ := h
    exact .step rfl (hfields.leads (fun hv => hv.leads) S)
  · exact h.1.leads S

/-- A schema leaves one brace open for each schema that is nested in it. -/
theorem SchemaText.leads {draft draft' : SchemaDraft} {ts : List JsonToken}
    (h : SchemaText draft ts draft') (S : List Bracket) :
    Leads (.firstKey, .object :: S) ts (Ended Deeper S) := by
  induction h generalizing S with
  | close => exact .step rfl (leads_nil ⟨rfl, .refl⟩)
  | nested _ ih =>
    refine .member (.step rfl ((ih _).mono ?_)) _
    rintro _ ⟨hplace, hdeeper⟩
    exact ⟨hplace, (Deeper.object .refl).trans hdeeper⟩
  | last _ hv =>
    refine .member ((hv.leads _).append ?_) _
    rintro _ rfl
    exact .step rfl (leads_nil ⟨rfl, .refl⟩)
  | more _ hv hts ih =>
    refine .member ((hv.leads _).append ?_) _
    rintro _ rfl
    refine .step rfl ?_
    cases hts <;> exact .key (ih S)

/-- So does the schema of a table; a second brace has no place in front of it. -/
theorem TableSchemaText.leads {db db' : Database} {ts : List JsonToken}
    (h : TableSchemaText db ts db') (S : List Bracket) :
    Leads (.firstKey, .object :: S) ts (Ended Deeper S) := by
  obtain ⟨us, draft, rfl | rfl, hus, -, -⟩ := h
  · exact hus.leads S
  · exact leads_of_none rfl

variable {p : Platform}

/-- A single token in place of a value. -/
theorem leads_token (t : JsonToken) (S : List Bracket) :
    Leads (.value, S) [t] (Landed Deeper S) := by
  refine leads_cons fun s' hs => leads_nil ?_
  cases t <;> cases hs
  case objectStart => exact .firstKey (.object .refl)
  case arrayStart => exact .firstValue
  all_goals exact .next .refl

theorem RecordMemberText.leads {columns : List Column} {key : CString} {draft draft' : RecordDraft}
    {ts : List JsonToken} (h : RecordMemberText p columns key draft ts draft') (S : List Bracket) :
    Leads (.value, S) ts (Landed Deeper S) := by
  unfold RecordMemberText at h
  split_ifs at h
  · obtain ⟨t, rfl, -⟩ := h
    exact leads_token t S
  · obtain ⟨us, rfl, values, hvalues, -⟩ := h
    have hobject := hvalues.leads leavesOpen_deeper (fun hv S => by
      obtain ⟨t, rfl, -⟩ := hv
      exact leads_token t S) S
    exact .step rfl (hobject.mono fun _ h => h.landed)
  · exact (h.1.leads S).mono fun _ h => (ended_of_eq leavesOpen_deeper h).landed

theorem RecordsText.leads {i : Nat} {s s' : Store} {ts : List JsonToken}
    (h : RecordsText p i s ts s') (S : List Bracket) :
    Leads (.value, S) ts fun s' => s' = (.next, S) := by
  obtain ⟨t, -, us, rfl, hus⟩ := h
  refine .step rfl (hus.leads ?_ S)
  rintro _ _ _ ⟨draft, hmembers, -⟩ S
  exact hmembers.leads leavesOpen_deeper (fun hv => hv.leads) S

theorem SiblingText.leads {i : Nat} {key : CString} {s s' : Store} {ts : List JsonToken}
    (h : SiblingText p i key s ts s') (S : List Bracket) :
    Leads (.value, S) ts fun s' => s' = (.next, S) := by
  unfold SiblingText at h
  split_ifs at h
  · exact h.leads S
  · exact h.1.leads S

theorem SiblingsText.leads {i : Nat} {s s' : Store} {ts : List JsonToken}
    (h : SiblingsText p i s ts s') (S : List Bracket) :
    Leads (.next, .object :: S) ts fun s' => s' = (.next, S) := by
  induction h with
  | close => exact .step rfl (leads_nil rfl)
  | more hv _ ih =>
    refine .step rfl (.step rfl (.step rfl ((hv.leads _).append ?_)))
    rintro _ rfl
    exact ih

/-! ### The array of tables -/

/-- What is open behind a table, if `K` is behind the array: the array goes on, it has ended, or the
next table has begun.  A table with an open brace goes on with a key, which no table begins with. -/
inductive TableLeft (K : List Bracket) : AfterTable → Place × List Bracket → Prop
  | arrayEnd : TableLeft K .arrayEnd (.next, K)
  | element : TableLeft K .element (.value, .array :: K)
  | key {T : List Bracket} : TableLeft K .element (.key, T)
  | table : TableLeft K .table (.firstKey, .object :: .array :: K)

variable {K : List Bracket}

theorem OuterEnd.leads {t : JsonToken} {after : AfterTable} (ht : OuterEnd t after)
    {T : List Bracket} (hT : Deeper (.array :: K) T) : Leads (.next, T) [t] (TableLeft K after) := by
  cases ht with
  | comma =>
    cases hT with
    | refl => exact .step rfl (leads_nil .element)
    | object => exact .step rfl (leads_nil .key)
  | arrayEnd =>
    cases hT with
    | refl => exact .step rfl (leads_nil .arrayEnd)
    | object => exact leads_of_none rfl

theorem TableText.leads {after : AfterTable} {s s' : Store} {ts : List JsonToken}
    (h : TableText p s ts after s') :
    Leads (.firstKey, .object :: .array :: K) ts (TableLeft K after) := by
  cases h with
  | flatLast hv =>
    refine (hv.leads _).append ?_
    rintro ⟨_, T⟩ ⟨rfl, hT⟩
    exact OuterEnd.arrayEnd.leads hT
  | outer hv ht =>
    refine (hv.leads _).append ?_
    rintro ⟨_, T⟩ ⟨rfl, hT⟩
    cases hT with
    | refl => exact leads_of_none rfl
    | object hT => exact .step rfl (ht.leads hT)
  | flat hv =>
    refine (hv.leads _).append ?_
    rintro ⟨_, T⟩ ⟨rfl, hT⟩
    cases hT with
    | refl => exact .step rfl (.step rfl (leads_nil .table))
    | object => exact .step rfl (leads_of_none rfl)
  | flatComma hv =>
    refine (hv.leads _).append ?_
    rintro ⟨_, T⟩ ⟨rfl, hT⟩
    cases hT <;> exact .step rfl (leads_of_none rfl)
  | siblings hv hw hts ht =>
    refine (hv.leads _).append ?_
    rintro ⟨_, T⟩ ⟨rfl, hT⟩
    cases hT with
    | refl => exact .step rfl (.step rfl (leads_of_none rfl))
    | @object T hT =>
      refine .step rfl (.step rfl (.step rfl ((hw.leads _).append ?_)))
      rintro _ rfl
      refine (hts.leads T).append ?_
      rintro _ rfl
      exact ht.leads hT

/-- Where the loop over the tables may begin a round. -/
inductive TablesStart (K : List Bracket) : Bool → Place × List Bracket → Prop
  | first : TablesStart K false (.firstValue, .array :: K)
  | element : TablesStart K false (.value, .array :: K)
  | key {T : List Bracket} : TablesStart K false (.key, T)
  | table : TablesStart K true (.firstKey, .object :: .array :: K)

/-- The brace of a table, if it has not been read. -/
theorem TablesStart.openTable {started : Bool} {s : Place × List Bracket}
    (h : TablesStart K started s) {ts : List JsonToken} {Q : Place × List Bracket → Prop}
    (hts : Leads (.firstKey, .object :: .array :: K) ts Q) : Leads s (openTable started ts) Q := by
  cases h with
  | first => exact .step rfl hts
  | element => exact .step rfl hts
  | key => exact leads_of_none (placeAfter_key_none (by simp))
  | table => exact hts

theorem TablesText.leads {started : Bool} {s s' : Store} {ts : List JsonToken}
    (h : TablesText p started s ts s') {q : Place × List Bracket} (hq : TablesStart K started q) :
    Leads q ts fun s' => s' = (.next, K) := by
  induction h generalizing q with
  | close =>
    cases hq with
    | first => exact .step rfl (leads_nil rfl)
    | element => exact leads_of_none rfl
    | key => exact leads_of_none (placeAfter_key_none (by simp))
  | last hv =>
    refine hq.openTable (hv.leads.mono ?_)
    rintro _ ⟨⟩
    rfl
  | next hv _ ih =>
    refine hq.openTable (hv.leads.append ?_)
    rintro _ ⟨⟩
    · exact ih .element
    · exact ih .key
  | flat hv _ ih =>
    refine hq.openTable (hv.leads.append ?_)
    rintro _ ⟨⟩
    exact ih .table

theorem TopMemberText.leads {key : CString} {s s' : Store} {ts : List JsonToken}
    (h : TopMemberText p key s ts s') (S : List Bracket) :
    Leads (.value, S) ts fun s' => s' = (.next, S) := by
  unfold TopMemberText at h
  split_ifs at h
  · exact h.1.leads S
  · obtain ⟨us, rfl, hus⟩ := h
    exact .step rfl (hus.leads .first)
  · exact h.1.leads S

/-- **A document whose tokens have a place** is a whole object. -/
theorem Document.leads {s s' : Store} {ts : List JsonToken} (h : Document p s ts s') :
    Leads (.value, []) ts fun s' => s' = (.next, []) := by
  obtain ⟨us, rfl, hus⟩ := h
  have hobject := hus.leads leavesOpen_eq (fun hv S =>
    (hv.leads S).mono fun _ h => (ended_of_eq leavesOpen_eq h).landed) []
  refine .step rfl (hobject.mono ?_)
  rintro ⟨_, _⟩ ⟨rfl, rfl⟩
  rfl

/-- So such a reading, with nothing but white space behind it, has read a JSON text. -/
theorem Document.jsonText {s s' : Store} {ts : List JsonToken} {text rest : List UInt8}
    (h : Document p s ts s') (hplaces : InPlace ts) (hspelled : Spelled ts text rest)
    (hblank : IsJsonBlank rest) : JsonText text := by
  obtain ⟨q, hq⟩ := Option.isSome_iff_exists.mp hplaces
  obtain rfl := h.leads q hq
  obtain ⟨us, rfl, -⟩ := h
  exact (Completes.done hblank).jsonText hspelled hq

/-! ### The only reading of a JSON text -/

/-- Of two readings of a text one goes on where the other stops. -/
theorem Spans.extends_or {ts us : List JsonToken} {l r r' : List UInt8} (h : Spans ts l r)
    (h' : Spans us l r') :
    (∃ vs, us = ts ++ vs ∧ Spans vs r r') ∨ ∃ v vs, ts = us ++ v :: vs ∧ Spans (v :: vs) r' r := by
  induction ts generalizing us l with
  | nil =>
    obtain rfl : l = r := h
    exact .inl ⟨us, rfl, h'⟩
  | cons t ts ih =>
    cases us with
    | nil =>
      obtain rfl : l = r' := h'
      exact .inr ⟨t, ts, rfl, h⟩
    | cons u us =>
      obtain ⟨m, hm, h⟩ := h
      obtain ⟨m', hm', h'⟩ := h'
      obtain ⟨rfl, rfl⟩ := Prod.mk.inj (hm.symm.trans hm')
      rcases ih h h' with ⟨vs, rfl, hvs⟩ | ⟨v, vs, rfl, hvs⟩
      · exact .inl ⟨vs, rfl, hvs⟩
      · exact .inr ⟨v, vs, rfl, hvs⟩

theorem Spans.unique {ts : List JsonToken} {l r r' : List UInt8} (h : Spans ts l r)
    (h' : Spans ts l r') : r = r' := by
  induction ts generalizing l with
  | nil => exact Eq.trans (Eq.symm h) h'
  | cons t ts ih =>
    obtain ⟨m, hm, h⟩ := h
    obtain ⟨m', hm', h'⟩ := h'
    obtain ⟨-, rfl⟩ := Prod.mk.inj (hm.symm.trans hm')
    exact ih h h'

/-- White space has no tokens. -/
theorem Spans.eq_eof {ts : List JsonToken} {l r : List UInt8} (h : Spans ts l r)
    (hl : ∀ c ∈ l, isSpace c = true) : ∀ t ∈ ts, t = .eof := by
  induction ts generalizing l with
  | nil => exact fun t ht => absurd ht List.not_mem_nil
  | cons t ts ih =>
    obtain ⟨m, hm, h⟩ := h
    have heof : jsonParseToken l = (.eof, []) := by
      rw [← List.append_nil l, parseToken_blank hl]
      rfl
    obtain ⟨rfl, rfl⟩ := Prod.mk.inj (hm.symm.trans heof)
    exact List.forall_mem_cons.mpr ⟨rfl, ih h (by simp)⟩

/-- **A reading of a JSON text**, up to a closing brace, finds tokens in their places, spelled as in
JSON, and leaves what completes the text. -/
theorem JsonText.reading {ts : List JsonToken} {text rest : List UInt8} (hjson : JsonText text)
    (hend : EndsObject ts) (hspan : Spans ts text rest) :
    ∃ q, placesAfter (.value, []) ts = some q ∧ Spelled ts text rest ∧ Completes q rest := by
  obtain ⟨us, rest', hspelled, hplaces, hblank⟩ := jsonText_iff_spelled.mp hjson
  have hsome : (placesAfter (.value, []) (.objectStart :: us)).isSome = true := by rw [hplaces]; rfl
  have hread : Spans (.objectStart :: us) text rest' := by
    rw [← List.append_nil (_ :: us)] at hspelled hsome
    obtain ⟨m, -, hspan', hnil⟩ := hspelled.spans hblank hsome
    cases hnil
    exact hspan'
  rcases hspan.extends_or hread with ⟨vs, hvs, -⟩ | ⟨v, vs, rfl, hmore⟩
  · -- what is read is the beginning of the text
    rw [hvs] at hspelled hplaces hsome
    obtain ⟨m, hts, hspan', hrest⟩ := hspelled.spans hblank hsome
    obtain rfl := hspan.unique hspan'
    rw [placesAfter_append] at hplaces
    obtain ⟨q, hq, hend⟩ := Option.bind_eq_some_iff.mp hplaces
    exact ⟨q, hq, hts, (Completes.done hblank).of_spelled hrest hend⟩
  · -- it does not go on with white space
    obtain ⟨init, hinit⟩ := hend
    have hlast := congrArg List.getLast? hinit
    have hmem : JsonToken.objectEnd ∈ v :: vs := by
      rw [List.getLast?_append_cons, List.getLast?_concat] at hlast
      exact List.mem_of_getLast? hlast
    have heof := hmore.eq_eof (isSpace_of_blank hblank) _ hmem
    cases heof

theorem Document.endsObject {s s' : Store} {ts : List JsonToken} (h : Document p s ts s') :
    EndsObject ts := by
  obtain ⟨us, rfl, hus⟩ := h
  exact hus.endsObject.cons _

/-- **A document that is read from a JSON text** is the whole text. -/
theorem Document.strict {s s' : Store} {ts : List JsonToken} {text rest : List UInt8}
    (h : Document p s ts s') (hspan : Spans ts text rest) (hjson : JsonText text) :
    InPlace ts ∧ Spelled ts text rest ∧ IsJsonBlank rest := by
  obtain ⟨q, hq, hspelled, hrest⟩ := hjson.reading h.endsObject hspan
  obtain rfl := h.leads q hq
  cases hrest with
  | done hblank => exact ⟨Option.isSome_iff_exists.mpr ⟨_, hq⟩, hspelled, hblank⟩

/-! ### What is loaded -/

/-- **When only JSON is loaded.**  The loader turns a text down that is not JSON, and returns,
exactly if there is no memory for it or the one reading it makes needs nothing that JSON has not: in
the document it has read each token has its place and its spelling and only white space follows, and
so it is with the tokens up to a schema that ends the program, which the rest completes. -/
theorem load_strict_iff (p : Platform) (counter : Int) (text : List UInt8) :
    (¬JsonText text → dbLoadFromFile p counter (some text) = some none ∧
        loadCrashes p counter (some text) = false) ↔
      (p.malloc (text.length + 1) = true →
        (∀ ts rest s, Spans ts text rest → Document p ⟨dbCreate, counter⟩ ts s →
          InPlace ts ∧ Spelled ts text rest ∧ IsJsonBlank rest) ∧
        (∀ ts rest, Spans ts text rest → NamelessDocument p ⟨dbCreate, counter⟩ ts →
          ∃ q, placesAfter (.value, []) ts = some q ∧ Spelled ts text rest ∧ Completes q rest)) := by
  -- the load ends, so it returns a database or a null pointer
  have hnull : dbLoadFromFile p counter (some text) = some none ↔
      ∀ s, dbLoadFromFile p counter (some text) ≠ some (some s) := by
    have hends := dbLoadFromFile_ne_none p counter (some text)
    cases h : dbLoadFromFile p counter (some text) with
    | none => exact absurd h hends
    | some r =>
      cases r with
      | none => simp
      | some s => simp
  rw [hnull, ← Bool.not_eq_true, loadCrashes_iff]
  constructor
  · intro h hmalloc
    by_cases hjson : JsonText text
    · exact ⟨fun ts rest s hspan hdoc => hdoc.strict hspan hjson,
        fun ts rest hspan hdoc => hjson.reading hdoc.endsObject hspan⟩
    · -- another text is not loaded, so it has no such beginning
      obtain ⟨hload, hcrash⟩ := h hjson
      exact ⟨fun ts rest s hspan hdoc =>
          absurd (load_iff.mpr ⟨hmalloc, ts, rest, hdoc, hspan⟩) (hload s),
        fun ts rest hspan hdoc => absurd ⟨hmalloc, ts, rest, hdoc, hspan⟩ hcrash⟩
  · intro h hnot
    constructor
    · intro s hload
      obtain ⟨hmalloc, ts, rest, hdoc, hspan⟩ := load_iff.mp hload
      obtain ⟨hplaces, hspelled, hblank⟩ := (h hmalloc).1 ts rest s hspan hdoc
      exact hnot (hdoc.jsonText hplaces hspelled hblank)
    · rintro ⟨hmalloc, _, rest, ⟨us, rfl, hus⟩, hspan⟩
      obtain ⟨q, hq, hspelled, hrest⟩ := (h hmalloc).2 _ rest hspan ⟨us, rfl, hus⟩
      exact hnot (hrest.jsonText hspelled hq)

/-- A JSON text ends with its closing brace or with white space. -/
theorem JsonText.exists_getLast {l : List UInt8} (h : JsonText l) :
    ∃ c ∈ l.getLast?, c ∈ ascii "\x7d \t\n\r" := by
  obtain ⟨a, v, b, rfl, -, hv, hb⟩ := h
  obtain ⟨w, rfl⟩ : ∃ w, v = w ++ [125] := by
    cases hv with
    | empty ha => exact ⟨123 :: _, rfl⟩
    | members hm => exact ⟨123 :: _, rfl⟩
  rcases List.eq_nil_or_concat b with rfl | ⟨b, c, rfl⟩
  · refine ⟨125, ?_, by decide⟩
    simp
  · have hblank : c ∈ ascii " \t\n\r" := hb c (by simp)
    have hlast : (a ++ (w ++ [125] ++ b.concat c)).getLast? = some c := by
      rw [List.concat_eq_append, ← List.append_assoc, ← List.append_assoc]
      exact List.getLast?_concat
    refine ⟨c, hlast, ?_⟩
    have hsub : ascii " \t\n\r" ⊆ ascii "\x7d \t\n\r" := by decide
    exact hsub hblank

/-- The text `{}x` is loaded as an empty database. -/
theorem trailing_text_loaded : ¬JsonText (ascii "\x7b\x7dx") ∧
    dbLoadFromFile Platform.epoch 1000 (some (ascii "\x7b\x7dx")) = some (some ⟨dbCreate, 1000⟩) := by
  refine ⟨fun h => ?_, by rfl⟩
  obtain ⟨c, hlast, hc⟩ := h.exists_getLast
  obtain rfl : 120 = c := Option.some.inj hlast
  exact absurd hc (by decide)

end Luminix
