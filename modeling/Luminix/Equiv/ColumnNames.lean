import Luminix.Equiv.Document

/-!
# The names of the columns

A field definition without a member `name` leaves a null pointer in `field_names`, and
`json_parse_table_schema` calls `db_add_table` with it.  What matters is which keys the definitions
have: reading the keys only runs side by side with reading the schema (`SchemaRuns.simulate`), and so
all columns have a name exactly if each definition has the key `name` (`columns_named_iff`).
-/

namespace Luminix

open CLib

variable {σ τ : Type}

/-! ### Reading side by side -/

/-- Members that change two states in step. -/
theorem Members.simulate {R : σ → τ → Prop} {value : CString → σ → List JsonToken → σ → Prop}
    {value' : CString → τ → List JsonToken → τ → Prop}
    {s s' : σ} {t : τ} {ts : List JsonToken} (h : Members value s ts s') (hR : R s t)
    (hvalue : ∀ key s t v s', R s t → value key s v s' → ∃ t', value' key t v t' ∧ R s' t') :
    ∃ t', Members value' t ts t' ∧ R s' t' := by
  induction h generalizing t with
  | close => exact ⟨t, .close, hR⟩
  | last hv =>
    obtain ⟨t', hv', hR'⟩ := hvalue _ _ t _ _ hR hv
    exact ⟨t', .last hv', hR'⟩
  | more hv _ ih =>
    obtain ⟨t₁, hv', hR₁⟩ := hvalue _ _ t _ _ hR hv
    obtain ⟨t', hrest, hR'⟩ := ih hR₁
    exact ⟨t', .more hv' hrest, hR'⟩

theorem Elements.simulate {R : σ → τ → Prop} {element : σ → List JsonToken → σ → Prop}
    {element' : τ → List JsonToken → τ → Prop}
    {s s' : σ} {t : τ} {ts : List JsonToken} (h : Elements element s ts s') (hR : R s t)
    (helement : ∀ s t v s', R s t → element s v s' → ∃ t', element' t v t' ∧ R s' t') :
    ∃ t', Elements element' t ts t' ∧ R s' t' := by
  induction h generalizing t with
  | close => exact ⟨t, .close, hR⟩
  | last hv =>
    obtain ⟨t', hv', hR'⟩ := helement _ t _ _ hR hv
    exact ⟨t', .last hv', hR'⟩
  | more hv _ ih =>
    obtain ⟨t₁, hv', hR₁⟩ := helement _ t _ _ hR hv
    obtain ⟨t', hrest, hR'⟩ := ih hR₁
    exact ⟨t', .more hv' hrest, hR'⟩

/-- The loop over a schema, with `value` for what a member of it does. -/
inductive SchemaRuns (value : CString → σ → List JsonToken → σ → Prop) :
    σ → List JsonToken → σ → Prop
  | close {s : σ} : SchemaRuns value s [.objectEnd] s
  | nested {s s' : σ} {ts : List JsonToken} (h : SchemaRuns value s ts s') :
      SchemaRuns value s (.string (cstr "schema") :: .colon :: .objectStart :: ts) s'
  | last {key : CString} {s s' : σ} {v : List JsonToken} (hkey : key ≠ cstr "schema")
      (h : value key s v s') : SchemaRuns value s (.string key :: .colon :: (v ++ [.objectEnd])) s'
  | more {key : CString} {s s' s'' : σ} {v ts : List JsonToken} (hkey : key ≠ cstr "schema")
      (h : value key s v s') (hrest : SchemaRuns value s' ts s'') :
      SchemaRuns value s (.string key :: .colon :: (v ++ .comma :: ts)) s''

theorem SchemaRuns.simulate {R : σ → τ → Prop} {value : CString → σ → List JsonToken → σ → Prop}
    {value' : CString → τ → List JsonToken → τ → Prop}
    {s s' : σ} {t : τ} {ts : List JsonToken} (h : SchemaRuns value s ts s') (hR : R s t)
    (hvalue : ∀ key s t v s', R s t → value key s v s' → ∃ t', value' key t v t' ∧ R s' t') :
    ∃ t', SchemaRuns value' t ts t' ∧ R s' t' := by
  induction h generalizing t with
  | close => exact ⟨t, .close, hR⟩
  | nested _ ih =>
    obtain ⟨t', hrest, hR'⟩ := ih hR
    exact ⟨t', .nested hrest, hR'⟩
  | last hkey hv =>
    obtain ⟨t', hv', hR'⟩ := hvalue _ _ t _ _ hR hv
    exact ⟨t', .last hkey hv', hR'⟩
  | more hkey hv _ ih =>
    obtain ⟨t₁, hv', hR₁⟩ := hvalue _ _ t _ _ hR hv
    obtain ⟨t', hrest, hR'⟩ := ih hR₁
    exact ⟨t', .more hkey hv' hrest, hR'⟩

theorem schemaText_iff {draft draft' : SchemaDraft} {ts : List JsonToken} :
    SchemaText draft ts draft' ↔ SchemaRuns SchemaMemberText draft ts draft' := by
  constructor
  · intro h
    induction h with
    | close => exact .close
    | nested _ ih => exact .nested ih
    | last hkey hv => exact .last hkey hv
    | more hkey hv _ ih => exact .more hkey hv ih
  · intro h
    induction h with
    | close => exact .close
    | nested _ ih => exact .nested ih
    | last hkey hv => exact .last hkey hv
    | more hkey hv _ ih => exact .more hkey hv ih

/-! ### The keys of the definitions -/

/-- The value of a member of a field definition, and its key at the end of the list. -/
def KeyText (key : CString) (keys : List CString) (v : List JsonToken) (keys' : List CString) :
    Prop :=
  (if key = cstr "name" ∨ key = cstr "type" then ∃ s, v = [.string s] else Skimmed v) ∧
    keys' = keys ++ [key]

/-- A field definition, after its `{`, and the list of its keys. -/
def DefinitionKeys (definitions : List (List CString)) (ts : List JsonToken)
    (definitions' : List (List CString)) : Prop :=
  ∃ keys, Members KeyText [] ts keys ∧ definitions' = definitions ++ [keys]

/-- The name of a table, and the keys of each of its field definitions. -/
structure SchemaKeys where
  name : CString
  definitions : List (List CString)

/-- The value of a member of a schema. -/
def SchemaKeyText (key : CString) (schema : SchemaKeys) (v : List JsonToken)
    (schema' : SchemaKeys) : Prop :=
  if key = cstr "name" then ∃ name, v = [.string name] ∧ schema' = { schema with name }
  else if key = cstr "fields" then
    ∃ us, v = .arrayStart :: us ∧ ∃ definitions,
      Elements DefinitionKeys schema.definitions us definitions ∧
        schema' = { schema with definitions }
  else Skimmed v ∧ schema' = schema

/-- The text starts with a schema of this name and with these field definitions. -/
def StartsWithSchema (l : List UInt8) (schema : SchemaKeys) : Prop :=
  ∃ us l', SchemaRuns SchemaKeyText ⟨cstr "", []⟩ us schema ∧
    (Spans us l l' ∨ Spans (.objectStart :: us) l l')

/-! ### Drafts and keys -/

/-- The field has a name as far as its definition has the key. -/
def NamedBy (field : Option CString × FieldType) (keys : List CString) : Prop :=
  field.1.isSome ↔ cstr "name" ∈ keys

/-- The same for a whole schema; its name fits into the buffer. -/
def DraftOf (draft : SchemaDraft) (schema : SchemaKeys) : Prop :=
  draft.name = schema.name.truncate (maxTableName - 1) ∧
    List.Forall₂ NamedBy draft.fields schema.definitions

theorem NamedBy.other {field : Option CString × FieldType} {keys : List CString} {key : CString}
    (h : NamedBy field keys) (hkey : key ≠ cstr "name") (type : FieldType) :
    NamedBy (field.1, type) (keys ++ [key]) := by
  have hmem : cstr "name" ∈ keys ++ [key] ↔ cstr "name" ∈ keys := by
    rw [List.mem_append, List.mem_singleton]
    exact or_iff_left (Ne.symm hkey)
  exact Iff.trans h hmem.symm

theorem NamedBy.named (name : CString) (type : FieldType) (keys : List CString) :
    NamedBy (some name, type) (keys ++ [cstr "name"]) :=
  iff_of_true rfl (List.mem_append_right keys (List.mem_singleton_self _))

theorem keyText_of_fieldMemberText {key : CString} {field field' : Option CString × FieldType}
    {keys : List CString} {v : List JsonToken} (hR : NamedBy field keys)
    (h : FieldMemberText key field v field') :
    ∃ keys', KeyText key keys v keys' ∧ NamedBy field' keys' := by
  refine ⟨keys ++ [key], ?_⟩
  unfold FieldMemberText at h
  split_ifs at h with hname htype
  · obtain ⟨name, rfl, rfl⟩ := h
    rw [hname]
    exact ⟨⟨by rw [if_pos (Or.inl rfl)]; exact ⟨name, rfl⟩, rfl⟩, .named name _ _⟩
  · obtain ⟨type, rfl, rfl⟩ := h
    exact ⟨⟨by rw [if_pos (Or.inr htype)]; exact ⟨type, rfl⟩, rfl⟩, hR.other hname _⟩
  · obtain ⟨hskim, rfl⟩ := h
    exact ⟨⟨by rwa [if_neg (not_or.mpr ⟨hname, htype⟩)], rfl⟩, hR.other hname _⟩

theorem fieldMemberText_of_keyText {key : CString} {field : Option CString × FieldType}
    {keys keys' : List CString} {v : List JsonToken} (hR : NamedBy field keys)
    (h : KeyText key keys v keys') :
    ∃ field', FieldMemberText key field v field' ∧ NamedBy field' keys' := by
  obtain ⟨hv, rfl⟩ := h
  unfold FieldMemberText
  split_ifs with hname htype
  · rw [if_pos (Or.inl hname)] at hv
    obtain ⟨name, rfl⟩ := hv
    rw [hname]
    exact ⟨_, ⟨name, rfl, rfl⟩, .named name _ _⟩
  · rw [if_pos (Or.inr htype)] at hv
    obtain ⟨type, rfl⟩ := hv
    exact ⟨_, ⟨type, rfl, rfl⟩, hR.other hname _⟩
  · rw [if_neg (not_or.mpr ⟨hname, htype⟩)] at hv
    exact ⟨field, ⟨hv, rfl⟩, hR.other hname _⟩

/-- Without a member, a definition has no name. -/
theorem namedBy_nil (type : FieldType) : NamedBy (none, type) [] :=
  iff_of_false Bool.false_ne_true List.not_mem_nil

theorem definitionKeys_of_text {fields fields' : List (Option CString × FieldType)}
    {definitions : List (List CString)} {v : List JsonToken}
    (hR : List.Forall₂ NamedBy fields definitions) (h : FieldDefinitionText fields v fields') :
    ∃ definitions', DefinitionKeys definitions v definitions' ∧
      List.Forall₂ NamedBy fields' definitions' := by
  obtain ⟨field, hfield, rfl⟩ := h
  obtain ⟨keys, hkeys, hnamed⟩ := hfield.simulate (namedBy_nil .string)
    fun _ _ _ _ _ => keyText_of_fieldMemberText
  exact ⟨_, ⟨keys, hkeys, rfl⟩, List.rel_append hR (.cons hnamed .nil)⟩

theorem text_of_definitionKeys {fields : List (Option CString × FieldType)}
    {definitions definitions' : List (List CString)} {v : List JsonToken}
    (hR : List.Forall₂ NamedBy fields definitions) (h : DefinitionKeys definitions v definitions') :
    ∃ fields', FieldDefinitionText fields v fields' ∧ List.Forall₂ NamedBy fields' definitions' := by
  obtain ⟨keys, hkeys, rfl⟩ := h
  obtain ⟨field, hfield, hnamed⟩ := hkeys.simulate (R := fun keys field => NamedBy field keys)
    (namedBy_nil .string) fun _ _ _ _ _ => fieldMemberText_of_keyText
  exact ⟨_, ⟨field, hfield, rfl⟩, List.rel_append hR (.cons hnamed .nil)⟩

theorem schemaKeyText_of_memberText {key : CString} {draft draft' : SchemaDraft}
    {schema : SchemaKeys} {v : List JsonToken} (hR : DraftOf draft schema)
    (h : SchemaMemberText key draft v draft') :
    ∃ schema', SchemaKeyText key schema v schema' ∧ DraftOf draft' schema' := by
  unfold SchemaMemberText at h
  unfold SchemaKeyText
  split_ifs at h ⊢ with hname hfields
  · obtain ⟨name, rfl, rfl⟩ := h
    exact ⟨_, ⟨name, rfl, rfl⟩, rfl, hR.2⟩
  · obtain ⟨us, rfl, fields, helements, rfl⟩ := h
    obtain ⟨definitions, hkeys, hnamed⟩ := helements.simulate hR.2
      fun _ _ _ _ => definitionKeys_of_text
    exact ⟨_, ⟨us, rfl, definitions, hkeys, rfl⟩, hR.1, hnamed⟩
  · obtain ⟨hskim, rfl⟩ := h
    exact ⟨schema, ⟨hskim, rfl⟩, hR⟩

theorem memberText_of_schemaKeyText {key : CString} {draft : SchemaDraft}
    {schema schema' : SchemaKeys} {v : List JsonToken} (hR : DraftOf draft schema)
    (h : SchemaKeyText key schema v schema') :
    ∃ draft', SchemaMemberText key draft v draft' ∧ DraftOf draft' schema' := by
  unfold SchemaKeyText at h
  unfold SchemaMemberText
  split_ifs at h ⊢ with hname hfields
  · obtain ⟨name, rfl, rfl⟩ := h
    exact ⟨_, ⟨name, rfl, rfl⟩, rfl, hR.2⟩
  · obtain ⟨us, rfl, definitions, helements, rfl⟩ := h
    obtain ⟨fields, htext, hnamed⟩ := helements.simulate
      (R := fun definitions fields => List.Forall₂ NamedBy fields definitions) hR.2
      fun _ _ _ _ => text_of_definitionKeys
    exact ⟨_, ⟨us, rfl, fields, htext, rfl⟩, hR.1, hnamed⟩
  · obtain ⟨hskim, rfl⟩ := h
    exact ⟨draft, ⟨hskim, rfl⟩, hR⟩

theorem draftOf_empty : DraftOf ⟨cstr "", []⟩ ⟨cstr "", []⟩ := ⟨by decide, .nil⟩

/-! ### The call of `db_add_table` -/

/-- The arguments with which `json_parse_table_schema` calls `db_add_table`, if it does. -/
def addTableCall (l : List UInt8) : Option SchemaDraft :=
  match schemaLoop (l.length + 1) ⟨cstr "", []⟩ (schemaStart l).1 (schemaStart l).2 with
  | .error _ => none
  | .ok (draft, _) =>
    if 0 < draft.name.length ∧ 0 < draft.fields.length then some draft else none

/-- A table is added by this call only. -/
theorem jsonParseTableSchema_iff {db db' : Database} {l : List UInt8} :
    (∃ l', jsonParseTableSchema db l = .ok (db', l')) ↔
      ∃ draft, addTableCall l = some draft ∧
        dbAddTable db (some draft.name) (some draft.fields) = (.success, db') := by
  rw [jsonParseTableSchema, addTableCall]
  cases schemaLoop (l.length + 1) ⟨cstr "", []⟩ (schemaStart l).1 (schemaStart l).2 with
  | error e => simp
  | ok r =>
    dsimp only
    split_ifs with hdraft
    · cases hadd : dbAddTable db (some r.1.name) (some r.1.fields) with
      | mk e db₁ => cases e <;> simp [hadd]
    · simp [invalid]

theorem addTableCall_eq_some_iff {l : List UInt8} {draft : SchemaDraft} :
    addTableCall l = some draft ↔ 0 < draft.name.length ∧ 0 < draft.fields.length ∧
      ∃ us l', SchemaText ⟨cstr "", []⟩ us draft ∧
        (Spans us l l' ∨ Spans (.objectStart :: us) l l') := by
  constructor
  · intro h
    unfold addTableCall at h
    split at h
    next => cases h
    next draft' l' hloop =>
      split_ifs at h with hdraft
      obtain rfl := Option.some.inj h
      obtain ⟨us, hus, hspan⟩ := schemaStart_iff.mp hloop
      exact ⟨hdraft.1, hdraft.2, us, l', hus, hspan⟩
  · rintro ⟨hname, hfields, us, l', hus, hspan⟩
    rw [addTableCall, schemaStart_iff.mpr ⟨us, hus, hspan⟩]
    exact if_pos ⟨hname, hfields⟩

/-- **When every column has a name.** -/
theorem columns_named_iff (l : List UInt8) :
    (∀ draft, addTableCall l = some draft → ∀ field ∈ draft.fields, field.1 ≠ none) ↔
      ∀ schema, StartsWithSchema l schema → 0 < schema.name.length →
        ∀ keys ∈ schema.definitions, cstr "name" ∈ keys := by
  have htruncate (name : CString) :
      0 < (name.truncate (maxTableName - 1)).length ↔ 0 < name.length := by
    show 0 < (name.bytes.take 63).length ↔ 0 < name.bytes.length
    rw [List.length_take]
    omega
  constructor
  · rintro h schema ⟨us, l', hruns, hspan⟩ hname keys hkeys
    obtain ⟨draft, htext, hdraft⟩ := hruns.simulate (R := fun schema draft => DraftOf draft schema)
      draftOf_empty fun _ _ _ _ _ => memberText_of_schemaKeyText
    have hlength := hdraft.2.length_eq
    have hcall : addTableCall l = some draft := by
      refine addTableCall_eq_some_iff.mpr ⟨?_, ?_, us, l', schemaText_iff.mpr htext, hspan⟩
      · rw [hdraft.1]
        exact (htruncate _).mpr hname
      · rw [hlength]
        exact List.length_pos_of_mem hkeys
    obtain ⟨j, hj, rfl⟩ := List.getElem_of_mem hkeys
    have hj' : j < draft.fields.length := hlength.symm ▸ hj
    have hnamed : NamedBy draft.fields[j] schema.definitions[j] := hdraft.2.get hj' hj
    exact hnamed.mp (Option.ne_none_iff_isSome.mp (h draft hcall _ (List.getElem_mem hj')))
  · intro h draft hcall field hfield
    obtain ⟨hname, -, us, l', htext, hspan⟩ := addTableCall_eq_some_iff.mp hcall
    obtain ⟨schema, hruns, hdraft⟩ := (schemaText_iff.mp htext).simulate draftOf_empty
      fun _ _ _ _ _ => schemaKeyText_of_memberText
    rw [hdraft.1, htruncate] at hname
    obtain ⟨j, hj, rfl⟩ := List.getElem_of_mem hfield
    have hj' : j < schema.definitions.length := hdraft.2.length_eq ▸ hj
    have hnamed : NamedBy draft.fields[j] schema.definitions[j] := hdraft.2.get hj hj'
    exact Option.ne_none_iff_isSome.mpr
      (hnamed.mpr (h schema ⟨us, l', hruns, hspan⟩ hname _ (List.getElem_mem hj')))

/-- `{"name": "t", "fields": [{"type": "INT"}]}` -/
def namelessSchema : List UInt8 :=
  ascii "\x7b\"name\": \"t\", \"fields\": [\x7b\"type\": \"INT\"\x7d]\x7d"

/-- The only column has no name. -/
theorem nameless_column : addTableCall namelessSchema = some ⟨cstr "t", [(none, .int)]⟩ ∧
    ¬∀ draft, addTableCall namelessSchema = some draft → ∀ field ∈ draft.fields, field.1 ≠ none := by
  have hcall : addTableCall namelessSchema = some ⟨cstr "t", [(none, .int)]⟩ := by decide
  exact ⟨hcall, fun h => h _ hcall _ List.mem_cons_self rfl⟩

end Luminix
