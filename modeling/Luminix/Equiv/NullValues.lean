import Luminix.Equiv.FiniteMap
import Luminix.Equiv.Layout
import Luminix.Machine.PartialFold

/-!
# NULL in a column

The loader keeps the tag of a JSON `null` up to the insert (`null_insertedValues`), and the
serializer writes `null` exactly for a field with the tag `TYPE_NULL` (`writesNull_iff`).  Between
them `table_insert_record` copies the payload only and takes the tag from the column, so that NULL
is kept only in a column that has the type `TYPE_NULL` itself (`null_kept_iff`).
-/

namespace Luminix

open CLib PartialFold TokenReader

/-! ### Writing -/

/-- `json_serialize_field_value` writes the value as `null`. -/
def WritesNull (p : Platform) (f : Field) : Prop :=
  Writes (fun s => jsonSerializeFieldValue p s f) (ascii "null")

/-- Only a NULL starts with the token `null`. -/
theorem head?_valueTokens (p : Platform) (f : Field) :
    (valueTokens p f).head? = some .null ↔ f.type = .null := by
  have hfloat : ∀ F bits text, (floatTokens F bits text).head? ≠ some .null := by
    intro F bits text
    unfold floatTokens
    split_ifs <;> simp
  unfold valueTokens
  cases hf : f.type
  case float => simpa using hfloat binary32 f.value.floatBits (floatText f)
  case double => simpa using hfloat binary64 f.value.doubleBits (floatText f)
  all_goals simp

/-- **The serializer writes `null` for NULL, and for nothing else.** -/
theorem writesNull_iff {p : Platform} (hp : p.Faithful) (f : Field) :
    WritesNull p f ↔ f.type = .null := by
  constructor
  · intro h
    -- what is written is read as the tokens of the value
    obtain ⟨s₁, hs₁, -, hbuffer⟩ := h ⟨[], 0, 0, true⟩
    have htime : f.TimeConverts p := requires_fieldValue f _ _ hs₁
    obtain ⟨s₂, text, hs₂, -, htext, hlex, -⟩ := emits_fieldValue hp htime ⟨[], 0, 0, true⟩ rfl
    obtain rfl : s₁ = s₂ := Except.ok.inj (hs₁.symm.trans hs₂)
    obtain rfl : ascii "null" = text := List.append_cancel_left (hbuffer.symm.trans htext)
    have hreads := hlex.alone
    have hnull : jsonParseToken (ascii "null") = (.null, []) := rfl
    rw [← head?_valueTokens p f]
    cases htoks : valueTokens p f with
    | nil =>
      rw [htoks] at hreads
      cases hreads with
      | done heq => cases heq
    | cons t ts =>
      rw [htoks] at hreads
      cases hreads with
      | token _ heq _ => rw [(Prod.mk.inj (hnull.symm.trans heq)).1]; rfl
      | stuck heq _ => cases hnull.symm.trans heq
  · intro hf
    unfold WritesNull jsonSerializeFieldValue
    rw [hf]
    exact writes_append hp rfl

/-! ### Loading -/

variable (p : Platform)

/-- The record object gives null as the value of a field. -/
def GivesNull (name : CString) (es : List RecordEntry) : Prop :=
  ∃ fs f, RecordEntry.fields fs ∈ es ∧ f ∈ fs ∧ f.1 = name ∧ f.2.token = .null

/-- The value of column `j` is NULL. -/
def NullAt (values : List Field) (j : Nat) : Prop := (values[j]?.map Field.type) = some .null

theorem NullAt.fieldAt {values : List Field} {j : Nat} (h : NullAt values j) :
    (fieldAt values j).type = .null := by
  obtain ⟨f, hf, ht⟩ := Option.map_eq_some_iff.mp h
  rw [fieldAt_of_getElem? hf]
  exact ht

/-- A value that is NULL stays so, whatever is read for it. -/
theorem NullAt.loadedField {values : List Field} {j : Nat} (h : NullAt values j)
    (columns : List Column) (key : CString) (t : JsonToken) :
    NullAt (loadedField p columns values key t) j := by
  unfold Luminix.loadedField
  cases columnIndex columns key with
  | none => exact h
  | some k =>
    obtain ⟨f, hf, ht⟩ := Option.map_eq_some_iff.mp h
    dsimp only
    unfold NullAt
    by_cases hk : k = j
    · subst hk
      rw [List.getElem?_modify_eq, hf]
      show some (if _ then _ else f.type) = _
      rw [ht, ite_self]
    · rw [List.getElem?_modify_ne _ _ hk]
      exact h

/-- The token `null` makes it NULL. -/
theorem nullAt_loadedField {columns : List Column} {values : List Field}
    (hlen : values.length = columns.length) {key : CString} {j : Nat}
    (hj : columnIndex columns key = some j) :
    NullAt (loadedField p columns values key .null) j := by
  have hlt : j < columns.length := (List.findIdx?_eq_some_iff_findIdx_eq.mp hj).1
  obtain ⟨f, hf⟩ : ∃ f, values[j]? = some f := ⟨_, List.getElem?_eq_getElem (hlen ▸ hlt)⟩
  unfold loadedField NullAt
  rw [hj]
  dsimp only
  rw [List.getElem?_modify_eq, hf]
  rfl

/-- **A null in the text is NULL in the draft.** -/
theorem nullAt_recordDraft {columns : List Column} {es : List RecordEntry} {name : CString}
    (h : GivesNull name es) {j : Nat} (hj : columnIndex columns name = some j) :
    NullAt (recordDraft p columns es).values j := by
  obtain ⟨fs, f, hfs, hf, rfl, hnull⟩ := h
  -- before the null the values only keep their number, from it on they keep the NULL
  have hlength : ∀ (fs : List (CString × Scalar)) (values : List Field),
      values.length = columns.length →
      (fs.foldl (fun values f => loadedField p columns values f.1 f.2.token) values).length =
        columns.length := by
    intro fs values hlen
    refine foldl_invariant (P := fun values : List Field => values.length = columns.length) ?_ fs
      hlen
    intro values f hlen
    rw [length_loadedField, hlen]
  have hkeep : ∀ (fs : List (CString × Scalar)) (values : List Field), NullAt values j →
      NullAt (fs.foldl (fun values f => loadedField p columns values f.1 f.2.token) values) j := by
    intro fs values hat
    exact foldl_invariant (P := fun values : List Field => NullAt values j)
      (fun values f hat => hat.loadedField p columns f.1 f.2.token) fs hat
  obtain ⟨es₁, es₂, rfl⟩ := List.append_of_mem hfs
  obtain ⟨fs₁, fs₂, rfl⟩ := List.append_of_mem hf
  have hbefore : (es₁.foldl (RecordEntry.apply p columns)
      ⟨-1, initialValues columns⟩).values.length = columns.length := by
    refine foldl_invariant (P := fun d : RecordDraft => d.values.length = columns.length) ?_ es₁ ?_
    · intro d e hlen
      cases e with
      | id t =>
        obtain ⟨t, ht⟩ := t
        cases t <;> exact hlen
      | fields fs => exact hlength fs d.values hlen
      | other m => exact hlen
    · exact List.length_map _
  unfold recordDraft
  rw [List.foldl_append, List.foldl_cons]
  refine foldl_invariant (P := fun d : RecordDraft => NullAt d.values j) ?_ es₂ ?_
  · intro d e hat
    cases e with
    | id t =>
      obtain ⟨t, ht⟩ := t
      cases t <;> exact hat
    | fields fs => exact hkeep fs d.values hat
    | other m => exact hat
  · show NullAt ((fs₁ ++ f :: fs₂).foldl _ _) j
    rw [List.foldl_append, List.foldl_cons, hnull]
    exact hkeep fs₂ _ (nullAt_loadedField p (hlength fs₁ _ hbefore) hj)

/-- The key is written into the first primary key column only. -/
theorem NullAt.setKeyField {columns : List Column} {values : List Field} {j : Nat} {c : Column}
    (h : NullAt values j) (hc : columns[j]? = some c) (hkey : c.constraint.primaryKey = false)
    (id : Int) : NullAt (setKeyField id columns values) j := by
  induction columns generalizing values j with
  | nil => cases hc
  | cons d columns ih =>
    cases values with
    | nil => cases h
    | cons f values =>
      rw [Luminix.setKeyField]
      cases j with
      | zero =>
        obtain rfl : d = c := Option.some.inj hc
        rw [if_neg (by simp [hkey])]
        exact h
      | succ j =>
        split_ifs
        · exact h
        · exact ih h hc

/-- **The loader supplies NULL to the insert**, except for a key. -/
theorem null_insertedValues {columns : List Column} {es : List RecordEntry} {j : Nat} {c : Column}
    (hnull : GivesNull c.name es) (hj : columnIndex columns c.name = some j)
    (hc : columns[j]? = some c) (hkey : c.constraint.primaryKey = false) :
    (fieldAt (insertedValues p columns es) j).type = .null :=
  ((nullAt_recordDraft p hnull hj).setKeyField hc hkey (recordId es)).fieldAt

/-! ### The law -/

/-- **NULL is kept exactly in a column of type `TYPE_NULL`**: for an insert that supplies NULL, and
for a JSON `null`, for which the loader does supply it. -/
theorem null_kept_iff {p : Platform} (hp : p.Faithful) :
    (∀ (t t' : Table) (counter counter' now id : Int) (vs : List Field),
      tableInsertRecord t counter now (some vs) = (.ok id, t', counter') →
      ∀ j c, t.columns[j]? = some c → c.constraint.nullable = true →
        c.constraint.primaryKey = false → (fieldAt vs j).type = .null →
        ∃ r, tableFindRecord t' id = some r ∧ ((r.field j).type = .null ↔ c.type = .null)) ∧
    ∀ (i : Nat) (s s' : Store) (t : Table) (rs : List (List RecordEntry)) (rest : List JsonToken)
      (l l' l₁ : List UInt8),
      s.db.tables[i]? = some t → Reads jsonParseToken .none (recordsTokens rs ++ rest) l l' →
      jsonParseTableRecords p i s l = .ok (s', l₁) →
      ∃ t' loaded, s'.db.tables = s.db.tables.set i t' ∧ t.Loaded p rs t' loaded ∧
        ∀ x ∈ loaded, ∀ j c, t.columns[j]? = some c → columnIndex t.columns c.name = some j →
          c.constraint.nullable = true → c.constraint.primaryKey = false → GivesNull c.name x.1 →
          (fieldAt (insertedValues p t.columns x.1) j).type = .null ∧
          (WritesNull p (x.2.field j) ↔ c.type = .null) := by
  constructor
  · intro t t' counter counter' now id vs h j c hc _ _ _
    rcases tableInsertRecord_cases t counter now (some vs) with
      ⟨e, k, heq⟩ | ⟨vs', id', k, hvs, -, -, -, heq⟩
    · rw [heq] at h
      cases h
    · obtain rfl := Option.some.inj hvs
      rw [heq] at h
      cases h
      refine ⟨newRecord t id now vs, ?_, ?_⟩
      · rw [find_linkRecord, Function.update_self]
      · rw [field_newRecord hc]
        exact Iff.rfl
  · intro i s s' t rs rest l l' l₁ ht hreads hok
    have hrecords := settles_insertRecords p i rs s hreads
    rw [hok] at hrecords
    cases hins : insertRecords p i s rs with
    | none =>
      rw [hins] at hrecords
      cases hrecords
    | some s₁ =>
      rw [hins] at hrecords
      obtain ⟨l₂, heq, -⟩ := hrecords.ok
      cases heq
      rw [insertRecords, ht, Option.bind_some] at hins
      obtain ⟨t', loaded, htables, hloaded⟩ := exists_loaded p ht rfl hins
      refine ⟨t', loaded, htables, hloaded, fun x hx j c hc hj _ hkey hnull => ?_⟩
      refine ⟨null_insertedValues p hnull hj hc hkey, ?_⟩
      rw [writesNull_iff hp, hloaded.field x hx j c hc]
      exact Iff.rfl

/-- A table with an `INT` key and a column that is nullable. -/
def nullableTable : Table :=
  newTable (cstr "t") [(cstr "id", .int), (cstr "b", .int)] (by decide) (by decide)

/-- A record object with a null. -/
def nullObject : List RecordEntry :=
  [.id (.number (cstr "5")), .fields [(cstr "b", .null)]]

/-- The store of a database with that table only. -/
def nullableStore : Store where
  db := { dbCreate with tables := [nullableTable], tables_le := by decide }
  globalCounter := 1000

/-- The text of an array with that object only. -/
def nullText : List UInt8 := ascii "[\x7b\"id\": 5, \"fields\": \x7b\"b\": null\x7d\x7d]"

/-- The key 5, and NULL. -/
def nullRow : List Field := [.ofInt 5, ⟨default, .null, .zero⟩]

theorem insert_nullRow : tableInsertRecord nullableTable 1000 0 (some nullRow) =
    (.ok 5, linkRecord nullableTable 5 0 nullRow, 1000) := by
  have hid : chooseRecordId nullableTable 1000 nullRow = (5, 1000) := by decide
  rw [tableInsertRecord_of_accepted (by decide) (by decide), hid]

/-- NULL is inserted into an `INT` column, and loaded. -/
theorem null_kept_iff_int :
    (∃ r, tableFindRecord (linkRecord nullableTable 5 0 nullRow) 5 = some r ∧
      ((r.field 1).type = .null ↔ FieldType.int = .null)) ∧
    ∃ s' t' loaded, (∃ l₁, jsonParseTableRecords .epoch 0 nullableStore nullText = .ok (s', l₁)) ∧
      s'.db.tables = [t'] ∧ nullableTable.Loaded .epoch [nullObject] t' loaded ∧
        ∀ x ∈ loaded, GivesNull (cstr "b") x.1 →
          (WritesNull .epoch (x.2.field 1) ↔ FieldType.int = .null) := by
  constructor
  · exact (null_kept_iff Platform.epoch_faithful).1 nullableTable _ 1000 1000 0 5 nullRow
      insert_nullRow 1 ⟨cstr "b", .int, defaultConstraint 1⟩ (by decide) (by decide) (by decide)
      (by decide)
  · have hreads : Reads jsonParseToken .none (recordsTokens [nullObject] ++ []) nullText [] :=
      reads_of_skipTokens (by decide) (by decide)
    -- the text is read, so the call succeeds if the insert does
    have hsettles := settles_insertRecords .epoch 0 [nullObject] nullableStore hreads
    have hsome : insertRecords .epoch 0 nullableStore [nullObject] ≠ none := by decide
    obtain ⟨s', hs'⟩ := Option.ne_none_iff_exists'.mp hsome
    rw [hs'] at hsettles
    obtain ⟨l₁, hok, -⟩ := hsettles.ok
    obtain ⟨t', loaded, htables, hloaded, hnull⟩ := (null_kept_iff Platform.epoch_faithful).2
      0 nullableStore s' nullableTable [nullObject] [] nullText [] l₁ rfl hreads hok
    refine ⟨s', t', loaded, ⟨l₁, hok⟩, htables, hloaded, fun x hx hgives => ?_⟩
    exact (hnull x hx 1 ⟨cstr "b", .int, defaultConstraint 1⟩ (by decide) (by decide) (by decide)
      (by decide) hgives).2

/-- NULL that is inserted into an `INT` column is no longer NULL. -/
theorem null_lost :
    ¬∀ (t t' : Table) (counter counter' now id : Int) (vs : List Field),
      tableInsertRecord t counter now (some vs) = (.ok id, t', counter') →
      ∀ j c, t.columns[j]? = some c → c.constraint.nullable = true →
        c.constraint.primaryKey = false → (fieldAt vs j).type = .null →
        ∃ r, tableFindRecord t' id = some r ∧ (r.field j).type = .null := by
  intro h
  obtain ⟨r, hr, hnull⟩ := h nullableTable _ 1000 1000 0 5 nullRow insert_nullRow 1
    ⟨cstr "b", .int, defaultConstraint 1⟩ (by decide) (by decide) (by decide) (by decide)
  have hint : (newRecord nullableTable 5 0 nullRow).field 1 =
      copiedField ⟨cstr "b", .int, defaultConstraint 1⟩ (fieldAt nullRow 1) :=
    field_newRecord rfl 5 0 nullRow
  rw [find_linkRecord, Function.update_self] at hr
  rw [← Option.some.inj hr, hint] at hnull
  cases hnull

end Luminix
