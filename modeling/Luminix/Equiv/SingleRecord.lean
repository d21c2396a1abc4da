import Luminix.Equiv.Layout
import Luminix.Equiv.RecordText
import Luminix.Equiv.RoundTrip

/-!
# A record on its own loses its tags

`json_to_record` reads what `record_to_json` wrote, the id and every value (`record_values_return`).
But it reads into zeroed fields and stores no type other than `TYPE_NULL`, so no tag comes back, and
no record does (`record_never_returns`).
-/

namespace Luminix

open CLib TokenReader

variable (p : Platform)

/-! ### The loop over an object -/

/-- What every member keeps, the loop keeps. -/
theorem parseMembers_invariant {σ : Type}
    {member : CString → σ → List UInt8 → Except Failure (σ × List UInt8)} (inv : σ → Prop)
    (hmember : ∀ key s l s' l', inv s → member key s l = .ok (s', l') → inv s') {fuel : Nat}
    {s s' : σ} {l l' : List UInt8} (h : inv s) (hok : parseMembers member fuel s l = .ok (s', l')) :
    inv s' := by
  induction fuel generalizing s l with
  | zero => cases hok
  | succ fuel ih =>
    rw [parseMembers] at hok
    split at hok
    · cases hok
      exact h
    · split at hok
      · split at hok
        next hvalue =>
          have hkept := hmember _ _ _ _ _ h hvalue
          split at hok
          · exact ih hkept hok
          · cases hok
            exact hkept
          · cases hok
        · cases hok
      · cases hok
    · cases hok

/-- A member ends, and leaves at most the characters that it found. -/
theorem steady_objectMember (columns : List Column) (key : CString) (draft : RecordDraft)
    (l : List UInt8) : Steady l.length (objectMember p columns key draft l) := by
  unfold objectMember
  split_ifs
  · split
    next h => exact length_of_parseToken h
    · exact steady_invalid
  · split
    next l₁ h =>
      have hvalues := steady_parseMembers (steady_recordField p columns) (l₁.length + 1) draft.values
        l₁ (Nat.lt_succ_self _)
      refine Steady.mono ?_ (length_of_parseToken h)
      exact hvalues.map fun _ => rfl
    · exact steady_invalid
  · exact length_parseToken_le l

/-! ### Tags -/

/-- The fields have no type, or are NULL. -/
def Untagged (values : List Field) : Prop := ∀ f ∈ values, f.type = .unknown ∨ f.type = .null

theorem untagged_zeroedValues (columns : List Column) : Untagged (zeroedValues columns) := by
  intro f hf
  obtain ⟨c, -, rfl⟩ := List.mem_map.mp hf
  exact .inl rfl

theorem type_storeParsed {f : Field} (h : f.type = .unknown ∨ f.type = .null) (type : FieldType)
    (value : FieldValue) :
    (storeParsed f type value).type = .unknown ∨ (storeParsed f type value).type = .null := by
  unfold storeParsed
  split_ifs
  · exact .inr rfl
  · exact h

/-- **Reading a value stores no other type.** -/
theorem Untagged.loadedField {columns : List Column} {values : List Field} (h : Untagged values)
    (key : CString) (t : JsonToken) : Untagged (loadedField p columns values key t) := by
  intro f hf
  unfold Luminix.loadedField at hf
  split at hf
  next j _ =>
    obtain ⟨i, hi, rfl⟩ := List.mem_iff_getElem.mp hf
    dsimp only at hi ⊢
    rw [List.length_modify] at hi
    have hold := h values[i] (List.getElem_mem hi)
    rw [List.getElem_modify]
    by_cases hj : j = i
    · rw [if_pos hj]
      exact type_storeParsed hold _ _
    · rw [if_neg hj]
      exact hold
  · exact h f hf

theorem Untagged.objectMember {columns : List Column} {key : CString} {draft draft' : RecordDraft}
    {l l' : List UInt8} (h : Untagged draft.values)
    (hok : objectMember p columns key draft l = .ok (draft', l')) : Untagged draft'.values := by
  unfold Luminix.objectMember at hok
  split_ifs at hok
  · split at hok
    · cases hok
      exact h
    · cases hok
  · split at hok
    next m _ =>
      cases hfields : parseMembers (recordField p columns) (m.length + 1) draft.values m with
      | error e =>
        rw [hfields] at hok
        cases hok
      | ok r =>
        rw [hfields] at hok
        cases hok
        refine parseMembers_invariant Untagged (fun key values l values' l' hvalues hfield => ?_) h
          hfields
        rw [recordField_eq] at hfield
        cases hfield
        exact hvalues.loadedField p key _
    · cases hok
  · cases hok
    exact h

/-- **No record that is read has a tag**, whatever the text. -/
theorem untagged_jsonToRecord {jsonStr : Option CString} {table : Option Table} {r : Record}
    (h : jsonToRecord p jsonStr table = some r) : Untagged r.fields := by
  unfold jsonToRecord at h
  split at h
  · cases h
  · cases h
  next text t =>
    split at h
    next l _ =>
      split at h
      · cases h
      next draft l' hok =>
        split_ifs at h
        obtain rfl := Option.some.inj h
        exact parseMembers_invariant (fun draft : RecordDraft => Untagged draft.values)
          (fun key draft l draft' l' => Untagged.objectMember p) (untagged_zeroedValues t.columns) hok
    · cases h

/-! ### The record that comes back -/

/-- A record of the table as the two functions are meant for: distinct and plain column names (every
identifier is plain), columns of the types `INT`, `STRING` and `BOOL`, tags as the columns have
them, an id, and strings that need no escape. -/
structure Record.Simple (t : Table) (r : Record) : Prop where
  names : ∀ c ∈ t.columns, Plain c.name.bytes
  names_nodup : (t.columns.map Column.name).Nodup
  types : ∀ c ∈ t.columns, c.type = .int ∨ c.type = .bool ∨ c.type = .string
  tags : r.fields.map Field.type = t.columns.map Column.type
  isInt : IsInt r.id
  id_ne : r.id ≠ -1
  strings : ∀ f ∈ r.fields, f.type = .string →
    Plain f.value.stringValue.bytes ∧ f.value.stringValue.length < maxFieldLen

instance (t : Table) (r : Record) : Decidable (r.Simple t) :=
  decidable_of_iff ((∀ c ∈ t.columns, Plain c.name.bytes) ∧ (t.columns.map Column.name).Nodup ∧
    (∀ c ∈ t.columns, c.type = .int ∨ c.type = .bool ∨ c.type = .string) ∧
    r.fields.map Field.type = t.columns.map Column.type ∧ IsInt r.id ∧ r.id ≠ -1 ∧
    ∀ f ∈ r.fields, f.type = .string →
      Plain f.value.stringValue.bytes ∧ f.value.stringValue.length < maxFieldLen)
    ⟨fun h => ⟨h.1, h.2.1, h.2.2.1, h.2.2.2.1, h.2.2.2.2.1, h.2.2.2.2.2.1, h.2.2.2.2.2.2⟩,
      fun h => ⟨h.names, h.names_nodup, h.types, h.tags, h.isInt, h.id_ne, h.strings⟩⟩

namespace Record.Simple

variable {p} {t : Table} {r : Record} (h : r.Simple t)

include h

theorem length_eq : r.fields.length = t.columns.length :=
  length_eq_of_tags h.tags

theorem field_type {f : Field} (hf : f ∈ r.fields) :
    f.type = .int ∨ f.type = .bool ∨ f.type = .string := by
  obtain ⟨c, hc, hcf⟩ := exists_type_of_tags h.tags hf
  rw [← hcf]
  exact h.types c hc

theorem isKey {c : Column} (hc : c ∈ t.columns) : IsKey c.name :=
  .inl (quotable_of_plain (h.names c hc))

/-- The columns with their fields. -/
theorem pair_cases {x : Column × Field} (hx : x ∈ fieldPairs t.columns r.fields) :
    x.1 ∈ t.columns ∧ x.2 ∈ r.fields := by
  rw [fieldPairs_eq_zip h.length_eq] at hx
  exact List.of_mem_zip hx

theorem readable : r.Readable t.columns := by
  intro x hx
  obtain ⟨hc, hf⟩ := h.pair_cases hx
  refine ⟨quotable_of_plain (h.names x.1 hc), ?_⟩
  -- no value is a floating-point number
  rcases h.field_type hf with hty | hty | hty <;>
    exact ⟨fun hd => by simp [hd] at hty, fun hd => by simp [hd] at hty⟩

theorem timesConvert : r.TimesConvert p t.columns := by
  intro x hx htime
  rcases h.field_type (h.pair_cases hx).2 with hty | hty | hty <;> simp [htime] at hty

theorem zero_notMem (pretty : Bool) : (0 : UInt8) ∉ recordText p pretty t.columns r := by
  refine zero_notMem_recordText fun x hx => ?_
  unfold fieldText
  rcases h.field_type (h.pair_cases hx).2 with hty | hty | hty
  · rw [hty]
    exact zero_notMem_decimal _
  · rw [hty]
    dsimp only
    split_ifs <;> decide
  · rw [hty]
    have hnul := (escaped x.2.value.stringValue).nulFree
    simpa using hnul

end Record.Simple

/-! ### Reading it back -/

variable {p}

/-- The object `fields` is read as in a table. -/
theorem objectMember_fields (columns : List Column) (draft : RecordDraft) :
    objectMember p columns (cstr "fields") draft = recordMember p columns (cstr "fields") draft := by
  have hne : cstr "fields" ≠ cstr "id" := by decide
  ext1 l
  rw [objectMember, recordMember, if_neg hne, if_neg hne]
  exact (if_pos rfl).trans (if_pos rfl).symm

/-- The two members of the record, of which the values are read into `columns`. -/
def objectParts (p : Platform) (columns saved : List Column) (r : Record) : List (Part RecordDraft) :=
  [.of (cstr "id") [.number (CString.ofBytes (decimal r.id))]
      fun draft => some { draft with id := atoi (decimal r.id) },
    .of (cstr "fields") (.objectStart :: fieldsTokens p (fieldPairs saved r.fields))
      fun draft => (loadedFields p columns (fieldPairs saved r.fields) draft.values).map fun values =>
        { draft with values }]

theorem readBy_objectParts (columns saved : List Column) (r : Record) :
    ∀ m ∈ objectParts p columns saved r, m.ReadBy (objectMember p columns) := by
  rw [objectParts, List.forall_mem_cons, List.forall_mem_singleton]
  refine ⟨Part.readBy_of fun draft rest l l' h => ?_, ?_⟩
  · obtain ⟨l₁, hnumber, hrest⟩ := h.head (by simp)
    show Yields rest l' _ (objectMember p columns (cstr "id") draft l)
    rw [objectMember, if_pos rfl, hnumber]
    dsimp only
    rw [CString.bytes_ofBytes (zero_notMem_decimal r.id)]
    exact .done hrest
  · have hparts := readBy_recordParts p columns saved r
    rw [recordParts, List.forall_mem_cons, List.forall_mem_cons] at hparts
    refine hparts.2.1.imp (fun hread => ⟨hread.1, fun draft => ?_⟩) id
    have hfields := hread.2 draft
    rw [Part.of] at hfields ⊢
    rwa [objectMember_fields]

/-- The values of a record that is read into zeroed fields. -/
def returnedValues (p : Platform) (t : Table) (r : Record) : List Field :=
  (fieldPairs t.columns r.fields).foldl
    (fun values x => loadedField p t.columns values x.1.name (readToken p x)) (zeroedValues t.columns)

/-- **The record that comes back.** -/
theorem jsonToRecord_recordText (hp : p.Faithful) {t : Table} {r : Record} (h : r.Simple t)
    (pretty : Bool) :
    jsonToRecord p (some (CString.ofBytes (recordText p pretty t.columns r))) (some t) =
      some ⟨r.id, returnedValues p t r, t.fieldCount, p.now, 1⟩ := by
  have hreads : Reads jsonParseToken .none
      (.objectStart :: (partsTail (objectParts p t.columns t.columns r) ++ []))
      (recordText p pretty t.columns r) [] := by
    have hlex := lexes_recordText pretty hp (fun c => h.isKey) r [] (by simp)
    rw [List.append_nil] at hlex
    convert hlex using 1
    simp [objectParts, Part.of, partsTail, objectTail, sepBy, openTokens]
  obtain ⟨l₁, hstart, hrest⟩ := hreads.head (by simp)
  have hmembers := parses_members (steady_objectMember p t.columns) _
    (readBy_objectParts t.columns t.columns r) ⟨-1, zeroedValues t.columns⟩
    (Nat.lt_succ_self l₁.length) hrest
  have hrun : runParts (objectParts p t.columns t.columns r) ⟨-1, zeroedValues t.columns⟩ =
      some ⟨r.id, returnedValues p t r⟩ := by
    rw [objectParts, Part.of, Part.of, runParts_cons, Option.bind_some, runParts_cons]
    dsimp only
    rw [loadedFields_eq_foldl h.readable, atoi_decimal h.isInt]
    rfl
  rw [hrun] at hmembers
  obtain ⟨l₂, hok, -⟩ := hmembers.ok
  rw [jsonToRecord, CString.bytes_ofBytes (h.zero_notMem pretty), hstart]
  dsimp only
  rw [hok]
  exact if_neg h.id_ne

theorem readToken_ne_null {t : Table} {r : Record} (h : r.Simple t) {c : Column} {f : Field}
    (hc : c ∈ t.columns) (hf : f ∈ r.fields) : readToken p (c, f) ≠ .null := by
  rw [readToken, fieldToken, if_pos (quotable_of_plain (h.names c hc)), valueToken]
  rcases h.field_type hf with hty | hty | hty
  all_goals
    rw [valueTokens, hty]
    simp

/-- **Each value comes back, without a tag.** -/
theorem getElem?_returnedValues {t : Table} {r : Record} (h : r.Simple t) {j : Nat} {c : Column}
    (hc : t.columns[j]? = some c) :
    ∃ v, (returnedValues p t r)[j]? = some ⟨default, .unknown, v⟩ ∧
      ∀ name, Field.content ⟨name, c.type, v⟩ = (r.field j).content := by
  have hlt : j < t.columns.length := (List.getElem?_eq_some_iff.mp hc).1
  have hf : r.fields[j]? = some (r.field j) := getElem?_fieldAt (h.length_eq ▸ hlt)
  have hzero : (zeroedValues t.columns)[j]? = some .zero := by
    rw [zeroedValues, List.getElem?_map, hc]
    rfl
  have hmem := List.mem_of_getElem? hc
  have hmem' := List.mem_of_getElem? hf
  have hindex : ∀ i d, t.columns[i]? = some d → (columnIndex t.columns d.name = some j ↔ i = j) := by
    intro i d hd
    rw [columnIndex_of_nodup h.names_nodup hd]
    exact Option.some_inj
  refine ⟨tokenValue p c.type (readToken p (c, r.field j)), ?_, fun name => ?_⟩
  · -- the type of the column is not stored, for no value is read as `TYPE_NULL`
    have hnull : c.type ≠ .null := by
      rcases h.types c hmem with hty | hty | hty <;> simp [hty]
    rw [returnedValues, fieldPairs_eq_zip h.length_eq, getElem?_foldl_zip hc hc hf hzero hindex,
      if_neg (readToken_ne_null h hmem hmem'), storeParsed, if_neg hnull]
    rfl
  · have hty := type_eq_of_tags h.tags hc hf
    have hstring (hc : c.type = .string) := h.strings _ hmem' (hty.trans hc)
    exact content_storedField hty (h.types c hmem) hstring (quotable_of_plain (h.names c hmem)) name

/-- **What is written is read back with its id and its values**, in both layouts; only the tags are
gone. -/
theorem record_values_return (hp : p.Faithful) {t : Table} {r : Record} (h : r.Simple t)
    (options : Option JsonSerializeOptions) : ∃ json r',
      recordToJson p (some r) (some t) options = some json ∧
      jsonToRecord p (some json) (some t) = some r' ∧ r'.id = r.id ∧
      ∀ j c, t.columns[j]? = some c → (r'.field j).type = .unknown ∧
        Field.content ⟨(r'.field j).name, c.type, (r'.field j).value⟩ = (r.field j).content := by
  refine ⟨_, _, recordToJson_eq hp h.timesConvert options, jsonToRecord_recordText hp h _, rfl,
    fun j c hc => ?_⟩
  obtain ⟨v, hv, hcontent⟩ := getElem?_returnedValues (p := p) h hc
  have hfield : Record.field ⟨r.id, returnedValues p t r, t.fieldCount, p.now, 1⟩ j =
      ⟨default, .unknown, v⟩ :=
    fieldAt_of_getElem? hv
  rw [hfield]
  exact ⟨rfl, hcontent default⟩

/-! ### The round trip -/

/-- The record that is written comes back: its id, and field by field the tag and the value. -/
def Record.Returns (p : Platform) (t : Table) (r : Record) (options : Option JsonSerializeOptions) :
    Prop :=
  ∃ json r', recordToJson p (some r) (some t) options = some json ∧
    jsonToRecord p (some json) (some t) = some r' ∧ r'.id = r.id ∧
    ∀ j < t.columns.length,
      (r'.field j).type = (r.field j).type ∧ (r'.field j).content = (r.field j).content

/-- **No record comes back**: the first field has lost its tag. -/
theorem record_never_returns (p : Platform) (t : Table) (r : Record) (h : r.Simple t)
    (options : Option JsonSerializeOptions) : ¬r.Returns p t options := by
  rintro ⟨json, r', -, hread, -, hfields⟩
  have htag := (hfields 0 t.columns_pos).1
  have hlt : 0 < r.fields.length := by
    rw [h.length_eq]
    exact t.columns_pos
  have hfield : r.field 0 ∈ r.fields := List.mem_of_getElem? (getElem?_fieldAt hlt)
  have hread' : (r'.field 0).type = .unknown ∨ (r'.field 0).type = .null := by
    rw [Record.field, fieldAt_zero]
    cases hr' : r'.fields with
    | nil => exact .inl rfl
    | cons f fs =>
      refine untagged_jsonToRecord p hread f ?_
      rw [hr']
      exact List.mem_cons_self
  rw [htag] at hread'
  rcases h.field_type hfield with hty | hty | hty <;> rw [hty] at hread' <;> simp at hread'

/-! ### A table with a column of each type -/

def taskTable : Table :=
  newTable (cstr "tasks") [(cstr "id", .int), (cstr "text", .string), (cstr "done", .bool)] (by decide)
    (by decide)

def task : Record :=
  ⟨5, [Field.ofInt 5, ⟨default, .string, FieldValue.zero.setString (cstr "milk")⟩,
    ⟨default, .bool, FieldValue.zero.setBool true⟩], 3, 0, 1⟩

theorem record_never_returns_task : task.Simple taskTable ∧
    ¬task.Returns .epoch taskTable none ∧ ¬task.Returns .epoch taskTable (some ⟨true⟩) := by
  have h : task.Simple taskTable := by decide
  exact ⟨h, record_never_returns .epoch taskTable task h none,
    record_never_returns .epoch taskTable task h (some ⟨true⟩)⟩

def taskText : CString :=
  cstr "\x7b\"id\": 5,\"fields\": \x7b\"id\": 5,\"text\": \"milk\",\"done\": true\x7d\x7d"

/-- The text is as it should be, and what is read from it has the id and the values, but no tags. -/
theorem tags_lost : task.Simple taskTable ∧
    recordToJson .epoch (some task) (some taskTable) none = some taskText ∧
    jsonToRecord .epoch (some taskText) (some taskTable) =
      some ⟨5, task.fields.map fun f => ⟨default, .unknown, f.value⟩, 3, 0, 1⟩ ∧
    ¬task.Returns .epoch taskTable none := by
  have hwrite : recordToJson .epoch (some task) (some taskTable) none = some taskText := by
    decide
  have hread : jsonToRecord .epoch (some taskText) (some taskTable) =
      some ⟨5, task.fields.map fun f => ⟨default, .unknown, f.value⟩, 3, 0, 1⟩ := by rfl
  refine ⟨by decide, hwrite, hread, ?_⟩
  rintro ⟨json, r', hjson, hr', -, hfields⟩
  obtain rfl := Option.some.inj (hwrite.symm.trans hjson)
  obtain rfl := Option.some.inj (hread.symm.trans hr')
  exact absurd (hfields 0 (by decide)).1 (by decide)

end Luminix
