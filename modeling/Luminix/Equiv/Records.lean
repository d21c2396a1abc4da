import Luminix.Equiv.FiniteMap
import Luminix.Equiv.Schema

/-!
# What becomes of a record

Records are entered in the order they are saved in, each at the head of the list, so that the list
of a loaded table is the reverse of the saved one (`records_enterRecords`).  A value that is read
under the name of its own column, and of no other, is the value of that column afterwards
(`getElem?_loadedValues`).
-/

namespace Luminix

open CLib KeyedList

variable {p : Platform}

/-! ### The list of records -/

theorem loadedRecord_congr {t t' : Table} (h : t'.columns = t.columns) (saved : List Column)
    (r : Record) : loadedRecord p t' saved r = loadedRecord p t saved r := by
  unfold loadedRecord newRecord Table.fieldCount
  rw [h]

@[simp] theorem id_loadedRecord (t : Table) (saved : List Column) {r : Record} (h : IsInt r.id) :
    (loadedRecord p t saved r).id = r.id := atoi_decimal h

/-- **The records of a loaded table**: those with an id, in reverse order. -/
theorem records_enterRecords {saved : List Column} {t : Table} {rs : List Record}
    (hnd : (rs.map Record.id).Nodup) (hint : ∀ r ∈ rs, IsInt r.id)
    (hfree : ∀ r ∈ rs, lookup Record.id t.records r.id = none) :
    (enterRecords p saved t rs).records =
      ((rs.filter (·.id ≠ -1)).map (loadedRecord p t saved)).reverse ++ t.records := by
  induction rs generalizing t with
  | nil => rfl
  | cons r rs ih =>
    rw [List.map_cons, List.nodup_cons] at hnd
    have hid : atoi (decimal r.id) = r.id := atoi_decimal (hint r List.mem_cons_self)
    have hint' : ∀ r' ∈ rs, IsInt r'.id := fun r' hr' => hint r' (List.mem_cons_of_mem r hr')
    show (enterRecords p saved (enterRecord p saved t r) rs).records = _
    -- a record with the id -1 counts as one without an id and is left out
    by_cases hnone : r.id = -1
    · have henter : enterRecord p saved t r = t := by
        rw [enterRecord, hid, if_pos (.inl hnone)]
      rw [henter, ih hnd.2 hint' fun r' hr' => hfree r' (List.mem_cons_of_mem r hr'),
        List.filter_cons_of_neg (by simpa using hnone)]
    · have henter : (enterRecord p saved t r).records = loadedRecord p t saved r :: t.records := by
        rw [enterRecord, hid, if_neg (by simp [hnone, hfree r List.mem_cons_self]), loadedRecord, hid]
        rfl
      have hfree' : ∀ r' ∈ rs, lookup Record.id (enterRecord p saved t r).records r'.id = none := by
        intro r' hr'
        have hne : r'.id ≠ (loadedRecord p t saved r).id := by
          rw [id_loadedRecord t saved (hint r List.mem_cons_self)]
          exact fun heq => hnd.1 (heq ▸ List.mem_map_of_mem hr')
        rw [henter, lookup_cons, Function.update_of_ne hne]
        exact hfree r' (List.mem_cons_of_mem r hr')
      have hsame : ∀ r', loadedRecord p (enterRecord p saved t r) saved r' = loadedRecord p t saved r' :=
        loadedRecord_congr (columns_enterRecord p saved t r) saved
      rw [ih hnd.2 hint' hfree', henter, List.filter_cons_of_pos (by simpa using hnone), List.map_cons,
        List.reverse_cons, List.append_assoc, List.singleton_append]
      congr 2
      exact List.map_congr_left fun r' _ => hsame r'

section

variable {t : Table} (hnd : (t.records.map Record.id).Nodup) (hint : t.IntIds)

include hnd hint

/-- The records of a table, saved and loaded. -/
theorem records_loadedTable : (loadedTable p t).records =
    ((t.records.filter (·.id ≠ -1)).map (loadedRecord p (freshTable t) t.columns)).reverse := by
  have h : (enterRecords p t.columns (freshTable t) t.records).records =
      ((t.records.filter (·.id ≠ -1)).map (loadedRecord p (freshTable t) t.columns)).reverse ++
        (freshTable t).records := records_enterRecords hnd hint fun _ _ => rfl
  rw [loadedTable, h]
  exact List.append_nil _

/-- **A record of a loaded table is found under the id it was saved with.** -/
theorem find_loadedTable (k : Int) : tableFindRecord (loadedTable p t) k =
    if k = -1 then none
    else (tableFindRecord t k).map (loadedRecord p (freshTable t) t.columns) := by
  have hid : ∀ r ∈ t.records.filter (·.id ≠ -1),
      (loadedRecord p (freshTable t) t.columns r).id = r.id :=
    fun r hr => id_loadedRecord _ _ (hint r (List.mem_of_mem_filter hr))
  have hnd' : ((t.records.filter (·.id ≠ -1)).map Record.id).Nodup :=
    hnd.sublist (List.filter_sublist.map Record.id)
  have hkeys : ((t.records.filter (·.id ≠ -1)).map (loadedRecord p (freshTable t) t.columns)).map
      Record.id = (t.records.filter (·.id ≠ -1)).map Record.id := by
    rw [List.map_map]
    exact List.map_congr_left hid
  -- Leaving out the records without an id only changes what is found under -1.
  have hfilter : lookup Record.id (t.records.filter (·.id ≠ -1)) k =
      if k = -1 then none else lookup Record.id t.records k := by
    split_ifs with hnone
    · rw [lookup_eq_none_iff, hnone]
      intro r hr
      simpa using (List.mem_filter.mp hr).2
    · cases hl : lookup Record.id t.records k with
      | none =>
        rw [lookup_eq_none_iff] at hl ⊢
        exact fun r hr => hl r (List.mem_of_mem_filter hr)
      | some r =>
        obtain rfl := key_of_lookup hl
        exact lookup_of_mem hnd' (List.mem_filter.mpr ⟨mem_of_lookup hl, by simpa using hnone⟩)
  rw [tableFindRecord_eq, tableFindRecord_eq, records_loadedTable hnd hint,
    lookup_reverse (hkeys ▸ hnd'), lookup_map hid, hfilter]
  split_ifs <;> rfl

end

/-! ### The values of a record -/

theorem getElem?_loadedField {columns : List Column} {key : CString} {j : Nat} {c : Column}
    (h : columnIndex columns key = some j) (hc : columns[j]? = some c) (values : List Field)
    (t : JsonToken) : (loadedField p columns values key t)[j]? = values[j]?.map fun f =>
      storeParsed f (if t = .null then .null else c.type) (tokenValue p c.type t) := by
  unfold loadedField
  rw [h]
  dsimp only
  rw [List.getElem?_modify_eq, hc]
  rfl

theorem getElem?_loadedField_of_ne {columns : List Column} {key : CString} {j : Nat}
    (h : columnIndex columns key ≠ some j) (values : List Field) (t : JsonToken) :
    (loadedField p columns values key t)[j]? = values[j]? := by
  unfold loadedField
  split
  next k hk =>
    have hne : k ≠ j := fun heq => h (heq ▸ hk)
    exact List.getElem?_modify_ne _ _ hne
  · rfl

/-- Values that are read under other names leave a value as it is. -/
theorem getElem?_foldl_loadedField {columns : List Column} {pairs : List (Column × Field)} {j : Nat}
    (h : ∀ x ∈ pairs, columnIndex columns x.1.name ≠ some j) (values : List Field) :
    (pairs.foldl (fun values x => loadedField p columns values x.1.name (readToken p x))
      values)[j]? = values[j]? := by
  induction pairs generalizing values with
  | nil => rfl
  | cons x pairs ih =>
    rw [List.foldl_cons, ih fun y hy => h y (List.mem_cons_of_mem x hy),
      getElem?_loadedField_of_ne (h x List.mem_cons_self)]

/-- The value of column `j`, stored from a token. -/
def storedField (p : Platform) (c : Column) (t : JsonToken) : Field :=
  storeParsed ⟨default, c.type, .zero⟩ (if t = .null then .null else c.type) (tokenValue p c.type t)

/-- **The value of a column** is the one that is read under its name, if no other is. -/
theorem getElem?_foldl_zip {columns saved : List Column} {fields values : List Field} {j : Nat}
    {c d : Column} {f v : Field} (hc : columns[j]? = some c) (hd : saved[j]? = some d)
    (hf : fields[j]? = some f) (hv : values[j]? = some v)
    (hindex : ∀ i d', saved[i]? = some d' → (columnIndex columns d'.name = some j ↔ i = j)) :
    ((saved.zip fields).foldl (fun values x => loadedField p columns values x.1.name (readToken p x))
      values)[j]? = some (storeParsed v (if readToken p (d, f) = .null then .null else c.type)
        (tokenValue p c.type (readToken p (d, f)))) := by
  have hx : (saved.zip fields)[j]? = some (d, f) := by
    rw [List.getElem?_zip_eq_some]
    exact ⟨hd, hf⟩
  obtain ⟨hlt, hget⟩ := List.getElem?_eq_some_iff.mp hx
  -- The fields before and after this one are read into other columns.
  have hother : ∀ x ∈ (saved.zip fields).take j, columnIndex columns x.1.name ≠ some j := by
    intro x hx hj
    obtain ⟨i, hi, rfl⟩ := List.mem_take_iff_getElem.mp hx
    have hi' : saved[i]? = some (saved.zip fields)[i].1 := by
      rw [List.getElem_zip]
      exact List.getElem?_eq_getElem _
    have := (hindex i _ hi').mp hj
    omega
  have hafter : ∀ x ∈ (saved.zip fields).drop (j + 1), columnIndex columns x.1.name ≠ some j := by
    intro x hx hj
    obtain ⟨i, hi, rfl⟩ := List.mem_drop_iff_getElem.mp hx
    have hi' : saved[j + 1 + i]? = some (saved.zip fields)[j + 1 + i].1 := by
      rw [List.getElem_zip]
      exact List.getElem?_eq_getElem _
    have := (hindex _ _ hi').mp hj
    omega
  have hsplit : saved.zip fields =
      (saved.zip fields).take j ++ (d, f) :: (saved.zip fields).drop (j + 1) := by
    rw [← hget, ← List.drop_eq_getElem_cons hlt, List.take_append_drop]
  have hj : columnIndex columns d.name = some j := (hindex j d hd).mpr rfl
  rw [hsplit, List.foldl_append, List.foldl_cons, getElem?_foldl_loadedField hafter,
    getElem?_loadedField hj hc, getElem?_foldl_loadedField hother, hv]
  rfl

theorem getElem?_loadedValues {columns saved : List Column} {r : Record} {j : Nat} {c d : Column}
    {f : Field} (hc : columns[j]? = some c) (hd : saved[j]? = some d) (hf : r.fields[j]? = some f)
    (hlen : r.fields.length = saved.length)
    (hindex : ∀ i d', saved[i]? = some d' → (columnIndex columns d'.name = some j ↔ i = j)) :
    (loadedValues p columns saved r)[j]? = some (storedField p c (readToken p (d, f))) := by
  have hinit : (initialValues columns)[j]? = some ⟨default, c.type, .zero⟩ := by
    rw [initialValues, List.getElem?_map, hc]
    rfl
  rw [loadedValues, fieldPairs_eq_zip hlen]
  exact getElem?_foldl_zip hc hd hf hinit hindex

/-- The first value of a loaded record, over which its id has been written. -/
theorem head_loadedRecord {t : Table} (hcols : IsNewColumns t.columns) {saved : List Column}
    {r : Record} {c : Column} {v : Field} (hc : t.columns[0]? = some c) (hint : IsInt r.id)
    (hv : (loadedValues p t.columns saved r)[0]? = some v) :
    (loadedRecord p t saved r).fields[0]? =
      some ⟨c.name.truncate (maxFieldLen - 1), c.type, v.value.setInt r.id⟩ := by
  obtain ⟨f, fs, hvalues, hkey⟩ := setKeyField_eq hcols r.id
    (length_loadedValues p t.columns saved r)
  obtain rfl : f = v := by
    rw [hvalues] at hv
    exact Option.some.inj hv
  show (copyFields t.columns (setKeyField (atoi (decimal r.id)) t.columns
    (loadedValues p t.columns saved r)))[0]? = _
  rw [getElem?_copyFields, hc, atoi_decimal hint, hkey]
  rfl

/-- The other values are copied. -/
theorem tail_loadedRecord {t : Table} (hcols : IsNewColumns t.columns) {saved : List Column}
    {r : Record} {j : Nat} {c : Column} {v : Field} (hc : t.columns[j + 1]? = some c)
    (hv : (loadedValues p t.columns saved r)[j + 1]? = some v) :
    (loadedRecord p t saved r).fields[j + 1]? =
      some ⟨c.name.truncate (maxFieldLen - 1), c.type, v.value⟩ := by
  obtain ⟨f, fs, hvalues, hkey⟩ := setKeyField_eq hcols (atoi (decimal r.id))
    (length_loadedValues p t.columns saved r)
  rw [hvalues, List.getElem?_cons_succ] at hv
  have hat : fieldAt ({ f with value := f.value.setInt (atoi (decimal r.id)), type := .int } :: fs)
      (j + 1) = v := by
    rw [fieldAt_succ, List.tail_cons, fieldAt_of_getElem? hv]
  show (copyFields t.columns (setKeyField (atoi (decimal r.id)) t.columns
    (loadedValues p t.columns saved r)))[j + 1]? = _
  rw [getElem?_copyFields, hc, hkey, hat]
  rfl

/-! ### The contents of a value -/

/-- A printable value of one of the types `INT`, `BOOL` and `STRING`, read as that type again. -/
theorem content_storedField {c d : Column} {f : Field} (htype : f.type = c.type)
    (hbasic : c.type = .int ∨ c.type = .bool ∨ c.type = .string)
    (hstring : c.type = .string →
      Plain f.value.stringValue.bytes ∧ f.value.stringValue.length < maxFieldLen)
    (hd : quotable false d.name.bytes = true) (name : CString) :
    Field.content ⟨name, c.type, (storedField p c (readToken p (d, f))).value⟩ = f.content := by
  have htoken : ∀ {t : JsonToken}, valueTokens p f = [t] → t ≠ .none → readToken p (d, f) = t := by
    intro t ht hne
    have hvalue : valueToken p f = some t := by
      rw [valueToken, ht]
      cases t <;> first | exact absurd rfl hne | rfl
    rw [readToken, fieldToken, if_pos hd, hvalue]
    rfl
  rcases hbasic with h | h | h
  · have hread := htoken (t := .number (CString.ofBytes (decimal f.value.intValue)))
      (by rw [valueTokens, htype, h]) (by simp)
    have hbytes := CString.bytes_ofBytes (zero_notMem_decimal f.value.intValue)
    rw [hread, h, Field.content, Field.content, htype, h, storedField, h]
    show Content.int (FieldValue.zero.setInt
      (atoi (CString.ofBytes (decimal f.value.intValue)).bytes)).intValue = _
    have hint := f.value.isInt_intValue
    rw [hbytes, atoi_decimal hint, FieldValue.intValue_setInt _ hint]
  · have hread := htoken (t := .boolean f.value.boolValue) (by rw [valueTokens, htype, h]) (by simp)
    rw [hread, h, Field.content, Field.content, htype, h, storedField, h]
    show Content.bool (FieldValue.zero.setBool f.value.boolValue).boolValue = _
    rw [FieldValue.boolValue_setBool]
  · obtain ⟨hplain, hlen⟩ := hstring h
    have hread := htoken (t := .string f.value.stringValue)
      (by rw [valueTokens, htype, h, escaped_of_plain hplain]) (by simp)
    rw [hread, h, Field.content, Field.content, htype, h, storedField, h]
    show Content.string (FieldValue.zero.setString f.value.stringValue).stringValue = _
    rw [FieldValue.stringValue_setString, CString.truncate_eq_self (Nat.le_sub_one_of_lt hlen)]

end Luminix
