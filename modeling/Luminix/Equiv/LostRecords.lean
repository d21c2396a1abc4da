import Luminix.Equiv.PrimaryKey
import Luminix.Equiv.Records
import Luminix.Equiv.UnknownFields
import Mathlib.Data.List.ReduceOption

/-!
# Records that are lost on load

A load that succeeds enters the record objects of an array one after another.  One without an id and
one whose id is taken are passed over without a word; of one that is entered, the value of the key
column gives way to the id, and NULL to the zero of the column.  Where none of this happens, and
only there, every object is in the table afterwards (`records_kept_iff`).
-/

namespace Luminix

open CLib TokenReader

variable (p : Platform)

/-! ### Entering a record -/

/-- The object is entered into the table: it has an id, and the id that the insert chooses is
free. -/
def Enters (t : Table) (counter : Int) (es : List RecordEntry) : Prop :=
  recordId es ≠ -1 ∧
    tableFindRecord t (chooseRecordId t counter (insertedValues p t.columns es)).1 = none

instance (t : Table) (counter : Int) (es : List RecordEntry) : Decidable (Enters p t counter es) :=
  inferInstanceAs (Decidable (_ ∧ _))

/-- The record that is entered for the object. -/
def enteredRecord (t : Table) (counter : Int) (es : List RecordEntry) : Record :=
  newRecord t (chooseRecordId t counter (insertedValues p t.columns es)).1 p.now
    (insertedValues p t.columns es)

/-- **An insert that is not an error enters the record, or passes over it.** -/
theorem insertDraftKept_ok {i : Nat} {s s' : Store} {t : Table} {es : List RecordEntry}
    (ht : s.db.tables[i]? = some t)
    (h : insertDraftKept p i t.columns (recordDraft p t.columns es) s = (s', .ok ())) :
    (Enters p t s.globalCounter es ∧ s'.db.tables = s.db.tables.set i (linkRecord t
        (chooseRecordId t s.globalCounter (insertedValues p t.columns es)).1 p.now
        (insertedValues p t.columns es))) ∨
      (¬Enters p t s.globalCounter es ∧ s'.db.tables = s.db.tables.set i t) := by
  have hlt : i < s.db.tables.length := (List.getElem?_eq_some_iff.mp ht).1
  have hset : s.db.tables.set i t = s.db.tables := by
    rw [← (List.getElem?_eq_some_iff.mp ht).2]
    exact List.set_getElem_self hlt
  have hvs : setKeyField (recordId es) t.columns (recordDraft p t.columns es).values =
      insertedValues p t.columns es := rfl
  rw [insertDraftKept, id_recordDraft, hvs, insertInto_eq ht] at h
  by_cases hid : recordId es = -1
  · rw [if_pos hid] at h
    cases h
    exact Or.inr ⟨fun henters => henters.1 hid, hset.symm⟩
  · rw [if_neg hid] at h
    by_cases hcheck : insertCheck t (insertedValues p t.columns es) = .success
    · by_cases hfree : tableFindRecord t
          (chooseRecordId t s.globalCounter (insertedValues p t.columns es)).1 = none
      · have hlookup := hfree
        rw [tableFindRecord_eq] at hlookup
        rw [tableInsertRecord_of_accepted hcheck hlookup] at h
        cases h
        exact Or.inl ⟨⟨hid, hfree⟩, rfl⟩
      · rw [tableInsertRecord, hcheck] at h
        dsimp only at h
        rw [if_pos (Option.isSome_iff_ne_none.mpr hfree)] at h
        cases h
        exact Or.inr ⟨fun henters => hfree henters.2, rfl⟩
    · -- every other error is passed on
      have hne := insertCheck_ne_duplicateKey t (insertedValues p t.columns es)
      rw [tableInsertRecord] at h
      cases hcode : insertCheck t (insertedValues p t.columns es)
      case success => exact absurd hcode hcheck
      case duplicateKey => exact absurd hcode hne
      all_goals
        rw [hcode] at h
        cases h

/-- What becomes of each object of an array: the record that is entered for it, if one is. -/
def enteredRecords (i : Nat) (columns : List Column) (s : Store) :
    List (List RecordEntry) → List (Option Record)
  | [] => []
  | es :: ess =>
    (match s.db.tables[i]? with
      | none => none
      | some t =>
        if Enters p t s.globalCounter es then some (enteredRecord p t s.globalCounter es) else none) ::
      enteredRecords i columns (insertDraftKept p i columns (recordDraft p columns es) s).1 ess

/-- **What a load that succeeds makes of the table.** -/
theorem insertDrafts_ok {i : Nat} {s s' : Store} {t : Table} (ht : s.db.tables[i]? = some t)
    (ess : List (List RecordEntry))
    (h : insertDrafts p i t.columns (ess.map (recordDraft p t.columns)) s = (s', .ok ())) :
    ∃ t', s'.db.tables[i]? = some t' ∧
      t'.records = (enteredRecords p i t.columns s ess).reduceOption.reverse ++ t.records ∧
      t'.recordCount = t.recordCount + (enteredRecords p i t.columns s ess).reduceOption.length := by
  have hlt : i < s.db.tables.length := (List.getElem?_eq_some_iff.mp ht).1
  induction ess generalizing s t with
  | nil =>
    cases h
    exact ⟨t, ht, rfl, (Int.add_zero _).symm⟩
  | cons es ess ih =>
    obtain ⟨s₁, r, hone⟩ : ∃ s₁ r, insertDraftKept p i t.columns (recordDraft p t.columns es) s =
        (s₁, r) := ⟨_, _, rfl⟩
    rw [List.map_cons, insertDrafts, hone] at h
    cases r with
    | error e => cases h
    | ok _ =>
      rw [enteredRecords, ht, hone]
      dsimp only at h ⊢
      rcases insertDraftKept_ok p ht hone with ⟨henters, htables⟩ | ⟨hpasses, htables⟩
      · have ht₁ := congrArg (fun l : List Table => l[i]?) htables
        rw [List.getElem?_set_self hlt] at ht₁
        have hlt₁ : i < s₁.db.tables.length := (List.getElem?_eq_some_iff.mp ht₁).1
        obtain ⟨t', ht', hrecords, hcount⟩ := ih ht₁ h hlt₁
        refine ⟨t', ht', ?_, ?_⟩
        · -- the later records are linked in front of this one
          rw [if_pos henters, List.reduceOption_cons_of_some, List.reverse_cons,
            List.append_assoc]
          exact hrecords
        · rw [if_pos henters, List.reduceOption_cons_of_some, List.length_cons]
          refine hcount.trans ?_
          show t.recordCount + 1 + _ = _
          push_cast
          exact (Int.add_assoc _ _ _).trans (congrArg (t.recordCount + ·) (Int.add_comm _ _))
      · rw [if_neg hpasses, List.reduceOption_cons_of_none]
        have ht₁ := congrArg (fun l : List Table => l[i]?) htables
        rw [List.getElem?_set_self hlt] at ht₁
        exact ih ht₁ h (List.getElem?_eq_some_iff.mp ht₁).1

/-! ### The values of an object -/

/-- The fields of an object. -/
def RecordEntry.fieldList : RecordEntry → List (CString × Scalar)
  | .fields fs => fs
  | _ => []

/-- The last of some fields under a key. -/
def lastToken (fs : List (CString × Scalar)) (key : CString) : Option JsonToken :=
  (fs.filter fun f => f.1 = key).getLast?.map fun f => f.2.token

/-- The value of an object for a column: that of the last field under its name. -/
def suppliedToken (es : List RecordEntry) (key : CString) : Option JsonToken :=
  lastToken (es.flatMap RecordEntry.fieldList) key

/-- Reading one field after another. -/
def loadFields (columns : List Column) (values : List Field) (fs : List (CString × Scalar)) :
    List Field :=
  fs.foldl (fun values f => loadedField p columns values f.1 f.2.token) values

theorem values_recordDraft (columns : List Column) (es : List RecordEntry) :
    (recordDraft p columns es).values =
      loadFields p columns (initialValues columns) (es.flatMap RecordEntry.fieldList) := by
  have hfold (draft : RecordDraft) : (es.foldl (RecordEntry.apply p columns) draft).values =
      loadFields p columns draft.values (es.flatMap RecordEntry.fieldList) := by
    induction es generalizing draft with
    | nil => rfl
    | cons e es ih =>
      rw [List.foldl_cons, ih, List.flatMap_cons, loadFields, loadFields, List.foldl_append]
      cases e with
      | id t =>
        obtain ⟨t, ht⟩ := t
        cases t <;> rfl
      | fields fs => rfl
      | other m => rfl
  exact hfold _

theorem length_loadFields (columns : List Column) (values : List Field)
    (fs : List (CString × Scalar)) : (loadFields p columns values fs).length = values.length := by
  induction fs generalizing values with
  | nil => rfl
  | cons f fs ih =>
    show (loadFields p columns (loadedField p columns values f.1 f.2.token) fs).length = _
    rw [ih, length_loadedField]

/-- The name of the column that a key is found at. -/
theorem name_of_columnIndex {columns : List Column} {key : CString} {j : Nat} {c : Column}
    (hj : columnIndex columns key = some j) (hc : columns[j]? = some c) : c.name = key := by
  obtain ⟨hlt, hp, -⟩ := List.findIdx?_eq_some_iff_getElem.mp hj
  obtain ⟨-, rfl⟩ := List.getElem?_eq_some_iff.mp hc
  exact of_decide_eq_true hp

/-- **The last field under the name of a column decides about its value.** -/
theorem value_loadFields {columns : List Column} {j : Nat} {c : Column}
    (hj : columnIndex columns c.name = some j) (hc : columns[j]? = some c) {values : List Field}
    (hlength : values.length = columns.length) (fs : List (CString × Scalar)) :
    (fieldAt (loadFields p columns values fs) j).value =
      match lastToken fs c.name with
      | some t => tokenValue p c.type t
      | none => (fieldAt values j).value := by
  have hlt : j < columns.length := (List.getElem?_eq_some_iff.mp hc).1
  induction fs using List.reverseRecOn with
  | nil => rfl
  | append_singleton fs f ih =>
    have hlast : loadFields p columns values (fs ++ [f]) =
        loadedField p columns (loadFields p columns values fs) f.1 f.2.token := by
      rw [loadFields, List.foldl_append]
      rfl
    rw [hlast, lastToken, List.filter_append]
    by_cases hf : f.1 = c.name
    · have hfilter : [f].filter (fun f => f.1 = c.name) = [f] :=
        List.filter_cons_of_pos (decide_eq_true hf)
      have hvalue : (loadFields p columns values fs)[j]? =
          some (fieldAt (loadFields p columns values fs) j) := by
        apply getElem?_fieldAt
        rwa [length_loadFields, hlength]
      rw [hfilter, List.getLast?_append, fieldAt, List.getD_eq_getElem?_getD,
        getElem?_loadedField (by rw [hf]; exact hj) hc, hvalue]
      rfl
    · have hfilter : [f].filter (fun f => f.1 = c.name) = [] :=
        List.filter_cons_of_neg (by simpa using hf)
      have hne : columnIndex columns f.1 ≠ some j := fun h => hf (name_of_columnIndex h hc).symm
      rw [hfilter, List.append_nil, fieldAt, List.getD_eq_getElem?_getD,
        getElem?_loadedField_of_ne hne, ← List.getD_eq_getElem?_getD]
      exact ih

/-! ### The key column -/

/-- The first primary key column. -/
def keyIndex (columns : List Column) : Option Nat :=
  columns.findIdx? fun c => c.constraint.primaryKey

/-- The id is written into the first primary key column. -/
theorem value_setKeyField (id : Int) {columns : List Column} {values : List Field}
    (hlength : values.length = columns.length) (j : Nat) (hj : j < columns.length) :
    (fieldAt (setKeyField id columns values) j).value =
      if keyIndex columns = some j then (fieldAt values j).value.setInt id
      else (fieldAt values j).value := by
  induction columns generalizing values j with
  | nil => exact absurd hj (Nat.not_lt_zero _)
  | cons c columns ih =>
    obtain ⟨f, values, rfl⟩ : ∃ f fs, values = f :: fs :=
      List.exists_cons_of_ne_nil fun h => by simp [h] at hlength
    rw [setKeyField, keyIndex, List.findIdx?_cons]
    by_cases hkey : c.constraint.primaryKey = true
    · rw [if_pos hkey, if_pos hkey]
      cases j with
      | zero => simp
      | succ j => simp
    · rw [if_neg hkey, if_neg hkey]
      cases j with
      | zero => simp
      | succ j =>
        rw [List.length_cons, List.length_cons, Nat.add_left_inj] at hlength
        have hsucc : ((columns.findIdx? fun c => c.constraint.primaryKey).map (· + 1) = some (j + 1)) ↔
            keyIndex columns = some j := by
          rw [keyIndex]
          cases columns.findIdx? fun c => c.constraint.primaryKey <;> simp
        rw [fieldAt_succ, fieldAt_succ, List.tail_cons, List.tail_cons,
          ih hlength j (Nat.lt_of_succ_lt_succ hj), if_congr hsucc rfl rfl]

/-- Storing an `int` over one that is there already changes nothing. -/
theorem setInt_eq_self_iff (v : FieldValue) {n : Int} (hn : IsInt n) :
    v.setInt n = v ↔ v.intValue = n := by
  constructor
  · intro h
    rw [← h, FieldValue.intValue_setInt v hn]
  · rintro rfl
    have hsize : 4 ≤ v.bytes.length := by
      rw [v.size_eq]
      decide
    ext1
    rw [FieldValue.bytes_setInt, FieldValue.intValue, intBytes_intOfBytes hsize,
      List.take_append_drop]

theorem isInt_recordId (es : List RecordEntry) : IsInt (recordId es) := by
  unfold recordId
  cases h : (es.filterMap RecordEntry.id?).getLast? with
  | none => exact ⟨by decide, by decide⟩
  | some n =>
    obtain ⟨e, -, he⟩ := List.mem_filterMap.mp (List.mem_of_getLast? h)
    cases e with
    | id t =>
      obtain ⟨t, ht⟩ := t
      cases t
      case number s =>
        obtain rfl := Option.some.inj he
        exact isInt_intWrap _
      all_goals cases he
    | fields fs => cases he
    | other m => cases he

/-! ### Objects and records -/

/-- The record holds the values of the object, each as `json_parse_field_value` reads it for the
column. -/
def Represents (columns : List Column) (es : List RecordEntry) (r : Record) : Prop :=
  ∀ j c t, columnIndex columns c.name = some j → columns[j]? = some c →
    suppliedToken es c.name = some t →
      (r.field j).type = (if t = .null then .null else c.type) ∧
        (r.field j).value = tokenValue p c.type t

/-- No value of the object is NULL, unless the column has the type `TYPE_NULL`, and a value for the
key column is the id. -/
def FieldsKept (columns : List Column) (es : List RecordEntry) : Prop :=
  ∀ j c t, columnIndex columns c.name = some j → columns[j]? = some c →
    suppliedToken es c.name = some t →
      (t = .null → c.type = .null) ∧
        (keyIndex columns = some j → (tokenValue p c.type t).intValue = recordId es)

/-- **When a record that is entered holds the values of its object.** -/
theorem represents_enteredRecord_iff (t : Table) (counter : Int) (es : List RecordEntry) :
    Represents p t.columns es (enteredRecord p t counter es) ↔ FieldsKept p t.columns es := by
  have hone {j : Nat} {c : Column} {u : JsonToken} (hj : columnIndex t.columns c.name = some j)
      (hc : t.columns[j]? = some c) (hu : suppliedToken es c.name = some u) :
      (((enteredRecord p t counter es).field j).type = (if u = .null then .null else c.type) ∧
        ((enteredRecord p t counter es).field j).value = tokenValue p c.type u) ↔
      ((u = .null → c.type = .null) ∧
        (keyIndex t.columns = some j → (tokenValue p c.type u).intValue = recordId es)) := by
    have hlength : (initialValues t.columns).length = t.columns.length := List.length_map _
    have hlt : j < t.columns.length := (List.getElem?_eq_some_iff.mp hc).1
    have hread : (fieldAt (recordDraft p t.columns es).values j).value = tokenValue p c.type u := by
      rw [values_recordDraft, value_loadFields p hj hc hlength]
      rw [suppliedToken] at hu
      rw [hu]
    have hdraft : (recordDraft p t.columns es).values.length = t.columns.length := by
      rw [values_recordDraft, length_loadFields, hlength]
    have htype : c.type = (if u = .null then .null else c.type) ↔ (u = .null → c.type = .null) := by
      split_ifs with hnull
      · exact ⟨fun h _ => h, fun h => h hnull⟩
      · exact iff_of_true rfl fun h => absurd h hnull
    have hvalue : (fieldAt (insertedValues p t.columns es) j).value = tokenValue p c.type u ↔
        (keyIndex t.columns = some j → (tokenValue p c.type u).intValue = recordId es) := by
      rw [insertedValues, value_setKeyField _ hdraft j hlt, hread]
      split_ifs with hkey
      · rw [setInt_eq_self_iff _ (isInt_recordId es)]
        exact ⟨fun h _ => h, fun h => h hkey⟩
      · exact iff_of_true rfl fun h => absurd h hkey
    rw [enteredRecord, field_newRecord hc]
    exact and_congr htype hvalue
  constructor
  · exact fun h j c u hj hc hu => (hone hj hc hu).mp (h j c u hj hc hu)
  · exact fun h j c u hj hc hu => (hone hj hc hu).mpr (h j c u hj hc hu)

/-- Each object is entered in its turn, with its values. -/
def AllKept (i : Nat) (columns : List Column) (s : Store) : List (List RecordEntry) → Prop
  | [] => True
  | es :: ess =>
    ((∀ t, s.db.tables[i]? = some t → Enters p t s.globalCounter es) ∧ FieldsKept p columns es) ∧
      AllKept i columns (insertDraftKept p i columns (recordDraft p columns es) s).1 ess

/-- The records of the objects stand in front of those that were there, and are counted. -/
def RecordsKept (t t' : Table) (ess : List (List RecordEntry)) : Prop :=
  (∃ rs, t'.records = rs.reverse ++ t.records ∧ List.Forall₂ (Represents p t.columns) ess rs) ∧
    t'.recordCount = t.recordCount + ess.length

theorem reduceOption_map_some {α : Type} (l : List α) : (l.map some).reduceOption = l := by
  induction l with
  | nil => rfl
  | cons a l ih => rw [List.map_cons, List.reduceOption_cons_of_some, ih]

theorem eq_map_some {α : Type} {l : List (Option α)} (h : ∀ x ∈ l, x.isSome = true) :
    l = l.reduceOption.map some := by
  induction l with
  | nil => rfl
  | cons x l ih =>
    obtain ⟨a, rfl⟩ := Option.isSome_iff_exists.mp (h x List.mem_cons_self)
    rw [List.reduceOption_cons_of_some, List.map_cons,
      ← ih fun x hx => h x (List.mem_cons_of_mem _ hx)]

theorem length_enteredRecords (i : Nat) (columns : List Column) (s : Store)
    (ess : List (List RecordEntry)) :
    (enteredRecords p i columns s ess).length = ess.length := by
  induction ess generalizing s with
  | nil => rfl
  | cons es ess ih => rw [enteredRecords, List.length_cons, ih, List.length_cons]

/-- The records that are entered are those of all objects exactly if each object is. -/
theorem enteredRecords_iff {i : Nat} {s s' : Store} {t : Table} (ht : s.db.tables[i]? = some t)
    (ess : List (List RecordEntry))
    (h : insertDrafts p i t.columns (ess.map (recordDraft p t.columns)) s = (s', .ok ())) :
    (∃ rs, enteredRecords p i t.columns s ess = rs.map some ∧
        List.Forall₂ (Represents p t.columns) ess rs) ↔ AllKept p i t.columns s ess := by
  induction ess generalizing s t with
  | nil => exact iff_of_true ⟨[], rfl, .nil⟩ trivial
  | cons es ess ih =>
    have hlt : i < s.db.tables.length := (List.getElem?_eq_some_iff.mp ht).1
    obtain ⟨s₁, r, hone⟩ : ∃ s₁ r, insertDraftKept p i t.columns (recordDraft p t.columns es) s =
        (s₁, r) := ⟨_, _, rfl⟩
    rw [List.map_cons, insertDrafts, hone] at h
    cases r with
    | error e => cases h
    | ok _ =>
      rw [enteredRecords, AllKept, ht, hone]
      dsimp only at h ⊢
      have hsome : (∀ t', some t = some t' → Enters p t' s.globalCounter es) ↔
          Enters p t s.globalCounter es :=
        ⟨fun h => h t rfl, fun h t' ht' => Option.some.inj ht' ▸ h⟩
      rw [hsome]
      rcases insertDraftKept_ok p ht hone with ⟨henters, htables⟩ | ⟨hpasses, htables⟩
      · have ht₁ := congrArg (fun l : List Table => l[i]?) htables
        rw [List.getElem?_set_self hlt] at ht₁
        have hrest := ih ht₁ h
        rw [if_pos henters]
        constructor
        · rintro ⟨rs, hrs, hall⟩
          cases hall with
          | @cons _ r _ rs hr hall =>
            obtain ⟨hhead, htail⟩ := List.cons.inj hrs
            obtain rfl := Option.some.inj hhead
            exact ⟨⟨henters, (represents_enteredRecord_iff p t _ es).mp hr⟩,
              hrest.mp ⟨rs, htail, hall⟩⟩
        · rintro ⟨⟨-, hfields⟩, hall⟩
          obtain ⟨rs, hrs, hall⟩ := hrest.mpr hall
          exact ⟨enteredRecord p t s.globalCounter es :: rs, congrArg _ hrs,
            .cons ((represents_enteredRecord_iff p t _ es).mpr hfields) hall⟩
      · rw [if_neg hpasses]
        constructor
        · rintro ⟨rs, hrs, hall⟩
          cases hall with
          | cons hr hall => cases hrs
        · exact fun hkept => absurd hkept.1.1 hpasses

/-- **When no record is lost**: each object has an id that is free when its turn comes, no value of
it is NULL in a column of another type, and a value for the key column is the id. -/
theorem records_kept_iff (i : Nat) (s s' : Store) (t : Table) (objs : List (List AnyMember))
    (l l₁ : List UInt8) (ht : s.db.tables[i]? = some t) (h : IsArray objs l)
    (hok : jsonParseTableRecords p i s l = .ok (s', l₁)) :
    (∃ ess, EntriesOf objs ess) ∧ ∃ t', s'.db.tables[i]? = some t' ∧
      ∀ ess, EntriesOf objs ess → (RecordsKept p t t' ess ↔ AllKept p i t.columns s ess) := by
  obtain ⟨m, hreads⟩ := h
  obtain ⟨ess₀, hess₀⟩ := exists_entriesOf (inFormat_of_loaded p hreads hok)
  have hinserts {ess : List (List RecordEntry)} (hess : EntriesOf objs ess) :
      insertDrafts p i t.columns (ess.map (recordDraft p t.columns)) s = (s', .ok ()) := by
    rw [← recordsOutcome_entries p ht hess hreads, recordsOutcome]
    rw [jsonParseTableRecords_eq, dropFailed_eq_ok] at hok
    rw [hok]
    rfl
  obtain ⟨t', ht', -⟩ := insertDrafts_ok p ht ess₀ (hinserts hess₀)
  refine ⟨⟨ess₀, hess₀⟩, t', ht', fun ess hess => ?_⟩
  obtain ⟨t'', ht'', hrecords, hcount⟩ := insertDrafts_ok p ht ess (hinserts hess)
  obtain rfl : t' = t'' := Option.some.inj (ht'.symm.trans ht'')
  rw [← enteredRecords_iff p ht ess (hinserts hess)]
  have hlength := length_enteredRecords p i t.columns s ess
  constructor
  · rintro ⟨⟨rs, hrs, hall⟩, -⟩
    rw [hrecords, List.append_cancel_right_eq, List.reverse_inj] at hrs
    refine ⟨rs, ?_, hall⟩
    have hfull : (enteredRecords p i t.columns s ess).reduceOption.length =
        (enteredRecords p i t.columns s ess).length := by
      rw [hrs, hlength, hall.length_eq]
    rw [← hrs]
    exact eq_map_some (List.reduceOption_length_eq_iff.mp hfull)
  · rintro ⟨rs, hrs, hall⟩
    have hreduce : (enteredRecords p i t.columns s ess).reduceOption = rs := by
      rw [hrs, reduceOption_map_some]
    rw [hreduce] at hrecords hcount
    exact ⟨⟨rs, hrecords, hall⟩, by rw [hcount, hall.length_eq]⟩

/-! ### A table with one column -/

def fiveText : List UInt8 := ascii "[\x7b\"id\": 5, \"fields\": \x7b\"id\": 5\x7d\x7d]"

def fiveRecord : List AnyMember :=
  [.scalar (cstr "id") (.number (cstr "5")),
    fieldsMember [.scalar (cstr "id") (.number (cstr "5"))]]

def fiveEntries : List RecordEntry :=
  [.id (.number (cstr "5")), .fields [(cstr "id", .number (cstr "5"))]]

theorem idStore_table : idStore.db.tables[0]? = some keyedTable := by decide

theorem entriesOf_five : EntriesOf [fiveRecord] [fiveEntries] := .cons rfl .nil

/-- A record with the id 5, and 5 in the key column, is kept. -/
theorem records_kept_iff_five : ∃ s' l₁ t',
    jsonParseTableRecords .epoch 0 idStore fiveText = .ok (s', l₁) ∧
      s'.db.tables[0]? = some t' ∧ RecordsKept .epoch keyedTable t' [fiveEntries] := by
  have harray : IsArray [fiveRecord] fiveText :=
    ⟨[], reads_of_skipTokens (by decide) (by decide)⟩
  have hloads : (jsonParseTableRecords .epoch 0 idStore fiveText).toOption ≠ none := by
    decide
  obtain ⟨⟨s', l₁⟩, hok⟩ : ∃ r, jsonParseTableRecords .epoch 0 idStore fiveText = .ok r := by
    cases hr : jsonParseTableRecords .epoch 0 idStore fiveText with
    | error e =>
      rw [hr] at hloads
      exact absurd rfl hloads
    | ok r => exact ⟨r, rfl⟩
  obtain ⟨-, t', ht', hkept⟩ :=
    records_kept_iff .epoch 0 idStore s' keyedTable [fiveRecord] fiveText l₁ idStore_table harray hok
  refine ⟨s', l₁, t', hok, ht', (hkept [fiveEntries] entriesOf_five).mpr ⟨⟨?_, ?_⟩, trivial⟩⟩
  · intro t ht
    rw [idStore_table] at ht
    obtain rfl := Option.some.inj ht
    decide
  · intro j c u hj hc hu
    cases j with
    | zero =>
      obtain rfl := Option.some.inj hc
      obtain rfl : u = .number (cstr "5") := by
        have hfive : suppliedToken fiveEntries (cstr "id") = some (.number (cstr "5")) := by
          decide
        exact Option.some.inj (hu.symm.trans hfive)
      refine ⟨fun hnull => ?_, fun _ => ?_⟩
      · cases hnull
      · decide
    | succ j => cases hc

def noIdText : List UInt8 := ascii "[\x7b\"fields\": \x7b\"id\": 5\x7d\x7d]"

def noIdRecord : List AnyMember := [fieldsMember [.scalar (cstr "id") (.number (cstr "5"))]]

/-- A record object without an id is passed over, and the load succeeds. -/
theorem record_without_id_lost : IsArray [noIdRecord] noIdText ∧
    idStore.db.tables[0]? = some keyedTable ∧ keyedTable.recordCount = 0 ∧
    jsonParseTableRecords .epoch 0 idStore noIdText = .ok (idStore, []) ∧
    ∀ ess, EntriesOf [noIdRecord] ess → ¬RecordsKept .epoch keyedTable keyedTable ess := by
  refine ⟨⟨[], reads_of_skipTokens (by decide) (by decide)⟩, idStore_table, rfl,
    by decide, fun ess hess hkept => ?_⟩
  have hlength := hess.length_eq
  have hcount : keyedTable.recordCount = keyedTable.recordCount + ess.length := hkept.2
  rw [← hlength] at hcount
  exact absurd hcount (by decide)

end Luminix
