import Luminix.Equiv.Records

/-!
# Values in the first column

The loader writes the record id into the value of the primary key, whatever its type, and
`table_insert_record` gives the value the type of the column again.  A `BOOL` then has the lowest
byte of the id, and a `STRING` has the bytes of the id in place of its first four.  A lookup compares
two `BOOL`s by their bytes, so of the nonzero ones only 1 is the value `true` that was saved.
-/

namespace Luminix

open CLib KeyedList Machine

variable {p : Platform}

/-! ### What is read from the first column -/

/-- A value as it is told from others: that of a `BOOL` is its byte. -/
def Field.identity (f : Field) : UInt8 ⊕ Content :=
  if f.type = .bool then .inl f.value.boolByte else .inr f.content

/-- The value of the first column of the record with the id. -/
def firstIdentity (t : Table) (id : Int) : Option (UInt8 ⊕ Content) :=
  (tableFindRecord t id).bind fun r => r.fields.head?.map Field.identity

/-- The value of the first column of the record with this id of the `i`-th table is the same after a
save and a load. -/
def FirstValueSurvives (p : Platform) (counter : Int) (db : Database) (i : Nat) (id : Int) : Prop :=
  ∃ s t t', dbLoadFromFile p counter (dbSaveToFile p db).2 = some (some s) ∧
    db.tables[i]? = some t ∧ s.db.tables[i]? = some t' ∧ firstIdentity t' id = firstIdentity t id

/-- The id agrees with the value: its lowest byte is that of the `BOOL`, or its bytes are the first
four of the `STRING`. -/
def IdAgrees (id : Int) (c : Column) (f : Field) : Prop :=
  (c.type = .bool → (f.value.boolByte.toNat : Int) = id % 256) ∧
  (c.type = .string → f.value.stringValue.length < maxFieldLen ∧
    f.value.stringValue.bytes.take 4 = (CString.ofBytes (intBytes id)).bytes)

instance (id : Int) (c : Column) (f : Field) : Decidable (IdAgrees id c f) :=
  inferInstanceAs (Decidable (_ ∧ _))

/-- A string with an id written over it still ends within the buffer. -/
theorem length_stringValue_setInt_lt (v : FieldValue) (s : CString) (n : Int) :
    ((v.setString s).setInt n).stringValue.length < maxFieldLen := by
  have hzero : (0 : UInt8) ∈ ((v.setString s).setInt n).bytes := by
    have hle : (s.bytes.take (maxFieldLen - 1)).length ≤ maxFieldLen - 1 := List.length_take_le _ _
    have hlen : ((v.setString s).bytes).length = maxFieldLen := (v.setString s).size_eq
    have hlast : (v.setString s).bytes[maxFieldLen - 1]? = some 0 := by
      rw [FieldValue.bytes_setString, List.getElem?_append_right hle, List.getElem?_replicate]
      have : 0 < maxFieldLen := by decide
      rw [if_pos (by omega)]
    rw [FieldValue.bytes_setInt]
    refine List.mem_append_right _ (List.mem_of_getElem? (i := maxFieldLen - 1 - 4) ?_)
    rw [List.getElem?_drop]
    exact hlast
  have hsize := ((v.setString s).setInt n).size_eq
  generalize (v.setString s).setInt n = w at hzero hsize
  show (w.bytes.takeWhile (· ≠ 0)).length < maxFieldLen
  have hbefore := List.takeWhile_prefix (p := fun b : UInt8 => decide (b ≠ 0)) (l := w.bytes)
  apply Nat.lt_of_le_of_ne (hsize ▸ hbefore.length_le)
  intro heq
  have hall := List.takeWhile_eq_self_iff.mp (hbefore.eq_of_length (heq.trans hsize.symm))
  exact absurd (hall 0 hzero) (by decide)

/-- The first column, and the first value of a record. -/
structure FirstValue (t : Table) (r : Record) (c : Column) (f : Field) : Prop where
  column : t.columns.head? = some c
  mem : r ∈ t.records
  value : r.fields.head? = some f

/-- The name of the first column is plain, and no other column has it. -/
structure ReadByName (t : Table) (c : Column) : Prop where
  plain : Plain c.name.bytes
  single : ∀ d ∈ t.columns.tail, d.name ≠ c.name

section

variable {t : Table} {r : Record} {c : Column} {f : Field}
  (htype : c.type = .string ∨ c.type = .bool)

include htype

/-- The first column of a loaded table. -/
theorem head_freshTable (hc : t.columns.head? = some c) (hplain : Plain c.name.bytes) :
    (freshTable t).columns[0]? = some ⟨c.name, c.type, defaultConstraint 0⟩ := by
  obtain ⟨cs, hcs⟩ : ∃ cs, t.columns = c :: cs := by
    cases h : t.columns with
    | nil => simp [h] at hc
    | cons d cs =>
      rw [h] at hc
      exact ⟨cs, by rw [Option.some.inj hc]⟩
  have hread : stringToFieldType (escaped (fieldTypeToString c.type)) = c.type := by
    apply (stringToFieldType_fieldTypeToString_iff c.type).mpr
    rcases htype with h | h <;> simp [h]
  show (newColumns 0 (loadedNamed t))[0]? = _
  rw [loadedNamed, hcs, List.map_cons, newColumns, hread, escaped_of_plain hplain]
  rfl

/-- The first value of a loaded record: what was read, and the id written over it. -/
theorem head_fields_loadedRecord (h : FirstValue t r c f) (hc : ReadByName t c)
    (hlen : r.fields.length = t.columns.length) (hint : IsInt r.id) :
    (loadedRecord p (freshTable t) t.columns r).fields.head? =
      some ⟨c.name.truncate (maxFieldLen - 1), c.type,
        (tokenValue p c.type (readToken p (c, f))).setInt r.id⟩ := by
  have hcol := head_freshTable htype h.column hc.plain
  have hsaved : t.columns[0]? = some c := List.head?_eq_getElem? ▸ h.column
  have hfield : r.fields[0]? = some f := List.head?_eq_getElem? ▸ h.value
  -- No other column is read into the first one.
  have hindex : ∀ i d, t.columns[i]? = some d →
      (columnIndex (freshTable t).columns d.name = some 0 ↔ i = 0) := by
    intro i d hd
    have hzero : columnIndex (freshTable t).columns d.name = some 0 ↔ d.name = c.name := by
      unfold columnIndex
      obtain ⟨hlt, hget⟩ := List.getElem?_eq_some_iff.mp hcol
      constructor
      · intro hfound
        obtain ⟨hlt', heq, -⟩ := List.findIdx?_eq_some_iff_getElem.mp hfound
        rw [hget] at heq
        exact (of_decide_eq_true heq).symm
      · intro heq
        refine List.findIdx?_eq_some_iff_getElem.mpr ⟨hlt, ?_, fun j hj => absurd hj (by omega)⟩
        rw [hget]
        exact decide_eq_true heq.symm
    rw [hzero]
    constructor
    · intro heq
      by_contra hne
      obtain ⟨k, rfl⟩ := Nat.exists_eq_succ_of_ne_zero hne
      have hmem : d ∈ t.columns.tail := by
        refine List.mem_of_getElem? (i := k) ?_
        rw [List.getElem?_tail]
        exact hd
      exact hc.single d hmem heq
    · rintro rfl
      rw [Option.some.inj (hd.symm.trans hsaved)]
  have hv := getElem?_loadedValues (p := p) hcol hsaved hfield hlen hindex
  rw [List.head?_eq_getElem?]
  exact head_loadedRecord (isNewColumns_freshTable t) hcol hint hv

/-- **When the first value of a record comes back.** -/
theorem identity_head_loadedRecord (h : FirstValue t r c f) (hc : ReadByName t c)
    (hlen : r.fields.length = t.columns.length) (hint : IsInt r.id)
    (hplain : f.type = .string → Plain f.value.stringValue.bytes) :
    (loadedRecord p (freshTable t) t.columns r).fields.head?.map Field.identity =
        some f.identity ↔
      f.type = c.type ∧ IdAgrees r.id c f := by
  rw [head_fields_loadedRecord htype h hc hlen hint, Option.map_some, Option.some_inj]
  have hkey : quotable false c.name.bytes = true := quotable_of_plain hc.plain
  rcases htype with htype | htype
  · by_cases hf : f.type = .string
    · have hread : readToken p (c, f) = .string f.value.stringValue := by
        have htokens : valueTokens p f = [.string f.value.stringValue] := by
          rw [valueTokens, hf, escaped_of_plain (hplain hf)]
        rw [readToken, fieldToken, if_pos hkey, valueToken, htokens]
        rfl
      have hidentity : f.identity = .inr (.string f.value.stringValue) := by
        rw [Field.identity, Field.content, hf]
        rfl
      have hvalue : tokenValue p c.type (readToken p (c, f)) =
          FieldValue.zero.setString f.value.stringValue := by
        rw [hread, htype]
        rfl
      rw [hvalue, hidentity]
      simp only [Field.identity, Field.content, htype, hf, IdAgrees, Content.string.injEq,
        Sum.inr.injEq, reduceCtorEq, if_false, false_implies, true_and, true_implies]
      constructor
      · intro heq
        have hlt : f.value.stringValue.length < maxFieldLen := by
          rw [← heq]
          exact length_stringValue_setInt_lt _ _ _
        exact ⟨hlt, (FieldValue.stringValue_setInt_setString_iff _ hlt r.id).mp heq⟩
      · rintro ⟨hlt, htake⟩
        exact (FieldValue.stringValue_setInt_setString_iff _ hlt r.id).mpr htake
    · refine ⟨fun heq => absurd ?_ hf, fun hagree => absurd (hagree.1.trans htype) hf⟩
      unfold Field.identity Field.content at heq
      rw [htype] at heq
      cases hty : f.type <;> rw [hty] at heq <;> first | rfl | cases heq
  · have hloaded : ∀ v : FieldValue, Field.identity ⟨c.name.truncate (maxFieldLen - 1), c.type, v⟩ =
        .inl v.boolByte := fun v => if_pos htype
    rw [hloaded]
    by_cases hf : f.type = .bool
    · have hidentity : f.identity = .inl f.value.boolByte := if_pos hf
      rw [hidentity, Sum.inl.injEq, ← UInt8.toNat_inj, ← Int.ofNat_inj,
        FieldValue.boolByte_setInt, eq_comm]
      simp [IdAgrees, htype, hf]
    · have hidentity : f.identity = .inr f.content := if_neg hf
      rw [hidentity]
      exact ⟨fun heq => absurd heq Sum.inl_ne_inr, fun hagree => absurd (hagree.1.trans htype) hf⟩

end

/-! ### After a save and a load -/

/-- The condition on a record: it has an id, its first value is tagged as the column is, and the id
agrees with it. -/
def KeepsFirstValue (r : Record) (c : Column) (f : Field) : Prop :=
  r.id ≠ -1 ∧ f.type = c.type ∧ IdAgrees r.id c f

instance (r : Record) (c : Column) (f : Field) : Decidable (KeepsFirstValue r c f) :=
  inferInstanceAs (Decidable (_ ∧ _))

/-- What a loaded table has in its first column. -/
theorem firstIdentity_loadedTable {t : Table} {r : Record} {c : Column} {f : Field}
    (htype : c.type = .string ∨ c.type = .bool) (hinv : t.Inv) (hint : t.IntIds)
    (h : FirstValue t r c f) (hc : ReadByName t c)
    (hplain : f.type = .string → Plain f.value.stringValue.bytes) :
    firstIdentity (loadedTable p t) r.id = firstIdentity t r.id ↔ KeepsFirstValue r c f := by
  have hfound : tableFindRecord t r.id = some r := by
    rw [tableFindRecord_eq]
    exact lookup_of_mem hinv.ids_nodup h.mem
  have hbefore : firstIdentity t r.id = some f.identity := by
    rw [firstIdentity, hfound, Option.bind_some, h.value]
    rfl
  have hidentity := identity_head_loadedRecord (p := p) htype h hc (hinv.fields_length r h.mem).1
    (hint r h.mem) hplain
  unfold KeepsFirstValue
  rw [hbefore, firstIdentity, find_loadedTable hinv.ids_nodup hint, hfound]
  split_ifs with hnone
  · simp [hnone]
  · rw [Option.map_some, Option.bind_some, hidentity]
    simp [hnone]

section

variable (hp : p.Faithful) {s : Store} (hs : s.Reachable) {i : Nat} {t : Table}
  (ht : s.db.tables[i]? = some t) {r : Record} {c : Column} {f : Field} (h : FirstValue t r c f)
  (htype : c.type = .string ∨ c.type = .bool)
  (hplain : f.type = .string → Plain f.value.stringValue.bytes) (counter : Int)

include hp hs ht h htype hplain

/-- In a database that can be written and loaded again. -/
theorem firstValueSurvives_iff (hkeys : s.db.HasKeys) (hc : ReadByName t c) :
    FirstValueSurvives p counter s.db i r.id ↔
      s.db.Reloadable ∧ s.db.TimesConvert p ∧ KeepsFirstValue r c f := by
  have hinv := (hs.table ht).inv
  have hint := hs.isInt.2 t (List.mem_of_getElem? ht)
  have hidentity := firstIdentity_loadedTable (p := p) htype hinv hint h hc hplain
  unfold FirstValueSurvives
  by_cases htimes : s.db.TimesConvert p
  · rw [load_save hp counter hkeys htimes]
    by_cases hready : s.db.Reloadable
    · obtain ⟨s', hs', htables, -⟩ : ∃ s', reload p counter s.db = some s' ∧
          s'.db.tables = s.db.tables.map (loadedTable p) ∧ s'.globalCounter = counter :=
        reload_eq hs.room hready
      have hloaded : s'.db.tables[i]? = some (loadedTable p t) := by
        rw [htables, List.getElem?_map, ht]
        rfl
      rw [hs', ← hidentity]
      constructor
      · rintro ⟨s'', t1, t2, heq, ht1, ht2, hsame⟩
        obtain rfl := Option.some.inj (Option.some.inj heq)
        obtain rfl := Option.some.inj (ht.symm.trans ht1)
        obtain rfl := Option.some.inj (hloaded.symm.trans ht2)
        exact ⟨hready, htimes, hsame⟩
      · rintro ⟨-, -, hsame⟩
        exact ⟨s', t, loadedTable p t, rfl, ht, hloaded, hsame⟩
    · rw [reload_eq_none hs.room hready]
      constructor
      · rintro ⟨s', t1, t2, heq, -⟩
        cases heq
      · exact fun hcond => absurd hcond.1 hready
  · constructor
    · rintro ⟨s', t1, t2, heq, -⟩
      exact absurd (timesConvert_of_load_save heq) htimes
    · exact fun hcond => absurd hcond.2.1 htimes

/-- **When a value in a `STRING` or `BOOL` first column comes back.** -/
theorem keyValue_survives_iff :
    (s.db.Reloadable → s.db.TimesConvert p → ReadByName t c → KeepsFirstValue r c f →
      FirstValueSurvives p counter s.db i r.id) ∧
    (s.db.HasKeys → ReadByName t c → FirstValueSurvives p counter s.db i r.id →
      s.db.Reloadable ∧ s.db.TimesConvert p ∧ KeepsFirstValue r c f) :=
  ⟨fun hready htimes hc hkeeps =>
    (firstValueSurvives_iff hp hs ht h htype hplain counter hready.hasKeys hc).mpr
      ⟨hready, htimes, hkeeps⟩,
    fun hkeys hc => (firstValueSurvives_iff hp hs ht h htype hplain counter hkeys hc).mp⟩

end

/-- A table whose first column has this type, with one record, and a column of times beside it.  The
counter stands at the given id before. -/
def keyedStore (id : Int) (type : FieldType) (value : FieldValue) : Store :=
  run Store.step ⟨dbCreate, 1000⟩
    [.addTable (some (cstr "t")) (some [(some (cstr "k"), type), (some (cstr "at"), .datetime)]),
      .moveCounter id,
      .tableInsert 0 0 (some [⟨default, type, value⟩,
        ⟨default, .datetime, FieldValue.zero.setTime 951782400⟩])]

theorem keyedStore_reachable (id : Int) (type : FieldType) (value : FieldValue) :
    (keyedStore id type value).Reachable := by
  have hinit : Store.Init ⟨dbCreate, 1000⟩ := rfl
  exact Reach.run (.start hinit) (Admits.of_forall (fun _ _ => trivial) _ _)

/-- What is needed of the record of `keyedStore`. -/
structure KeyedRecord (id : Int) (type : FieldType) (value : FieldValue) (t : Table) (r : Record)
    (f : Field) : Prop where
  table : (keyedStore id type value).db.tables[0]? = some t
  first : FirstValue t r ⟨cstr "k", type, defaultConstraint 0⟩ f
  named : ReadByName t ⟨cstr "k", type, defaultConstraint 0⟩
  type_eq : f.type = type
  value_eq : f.value = value
  id_eq : r.id = id

theorem keyedStore_true : ∃ t r f, KeyedRecord 1025 .bool (FieldValue.zero.setBool true) t r f :=
  ⟨_, _, _, rfl, ⟨rfl, List.mem_cons_self, rfl⟩, ⟨by decide, by decide⟩, rfl, rfl, rfl⟩

theorem keyedStore_alice :
    ∃ t r f, KeyedRecord 1000 .string (FieldValue.zero.setString (cstr "Alice")) t r f :=
  ⟨_, _, _, rfl, ⟨rfl, List.mem_cons_self, rfl⟩, ⟨by decide, by decide⟩, rfl, rfl, rfl⟩

/-- The lowest byte of the id 1025 is that of the value `true`. -/
theorem keyValue_survives_iff_true :
    FirstValueSurvives .epoch 1000 (keyedStore 1025 .bool (FieldValue.zero.setBool true)).db 0
      1025 := by
  obtain ⟨t, r, f, h⟩ := keyedStore_true
  have hready : (keyedStore 1025 .bool (FieldValue.zero.setBool true)).db.Reloadable := by decide
  have htimes : (keyedStore 1025 .bool (FieldValue.zero.setBool true)).db.TimesConvert .epoch := by
    decide +kernel
  have hkeeps : KeepsFirstValue r ⟨cstr "k", .bool, defaultConstraint 0⟩ f := by
    refine ⟨by rw [h.id_eq]; decide, h.type_eq, fun _ => ?_, nofun⟩
    rw [h.value_eq, h.id_eq, FieldValue.boolByte_setBool]
    rfl
  have hplain : f.type = .string → Plain f.value.stringValue.bytes := by
    rw [h.type_eq]
    exact nofun
  have hsurvives := (keyValue_survives_iff Platform.epoch_faithful (keyedStore_reachable _ _ _)
    h.table h.first (.inr rfl) hplain 1000).1 hready htimes h.named hkeeps
  rwa [h.id_eq] at hsurvives

/-- The lowest byte of the id 1000 is 232: what is loaded is no value of a `BOOL`. -/
example : ¬IdAgrees 1000 ⟨cstr "k", .bool, defaultConstraint 0⟩
    ⟨default, .bool, FieldValue.zero.setBool true⟩ := by decide

/-- The first bytes of a name are overwritten with the id. -/
theorem keyValue_lost :
    ¬∀ s : Store, s.Reachable → ∀ i t r c f, s.db.tables[i]? = some t → FirstValue t r c f →
      (c.type = .string ∨ c.type = .bool) →
      (f.type = .string → Plain f.value.stringValue.bytes) → ∀ p : Platform, p.Faithful →
      s.db.TimesConvert p → ∀ counter, FirstValueSurvives p counter s.db i r.id := by
  intro hall
  obtain ⟨t, r, f, h⟩ := keyedStore_alice
  have hreach := keyedStore_reachable 1000 .string (FieldValue.zero.setString (cstr "Alice"))
  have hstring : f.value.stringValue = cstr "Alice" := by
    rw [h.value_eq, FieldValue.stringValue_setString]
    exact CString.truncate_eq_self (by decide)
  have hplain : f.type = .string → Plain f.value.stringValue.bytes := by
    intro _
    rw [hstring]
    decide
  have hkeys :
      (keyedStore 1000 .string (FieldValue.zero.setString (cstr "Alice"))).db.HasKeys := by
    decide
  have htimes : (keyedStore 1000 .string (FieldValue.zero.setString (cstr "Alice"))).db.TimesConvert
      .epoch := by
    decide +kernel
  have hsurvives := hall _ hreach 0 t r _ f h.table h.first (.inl rfl) hplain _
    Platform.epoch_faithful htimes 1000
  have hkeeps := ((firstValueSurvives_iff Platform.epoch_faithful hreach h.table h.first (.inl rfl)
    hplain 1000 hkeys h.named).mp hsurvives).2.2
  have hagrees := (hkeeps.2.2.2 rfl).2
  rw [hstring, h.id_eq] at hagrees
  exact absurd hagrees (by decide)

end Luminix
