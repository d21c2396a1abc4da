import Luminix.Query

/-!
# What the parser makes of a statement

A statement of one of the documented forms, written with single blanks, is parsed as what it says
exactly if certain letters and words do not occur in it (`parse_query_iff`).  A token ends at the
first letter of the next keyword, in the cases that `parse_query` lists: the fields of a `SELECT` at
an `f` and its table at a `w`, the table of an `UPDATE` at `S` and that of a `DELETE` at `W`.  And a
`where` anywhere in the text, with an operator somewhere behind it, counts as a condition.
-/

namespace Luminix

open CLib

/-! ### Identifiers -/

/-- A name that `validate_table_name` accepts. -/
abbrev Identifier := { name : CString // validateTableName name = true }

namespace Identifier

abbrev bytes (t : Identifier) : List UInt8 := t.1.bytes

/-- None of these characters occurs in the name. -/
def Avoids (t : Identifier) (characters : List UInt8) : Prop := ∀ c ∈ characters, c ∉ t.bytes

end Identifier

/-- A character of a name. -/
def isWordByte (c : UInt8) : Bool := isAlpha c || isDigit c || c == 95

variable {l : List UInt8}

/-- A text that consists of such characters. -/
def Word (l : List UInt8) : Prop := ∀ c ∈ l, isWordByte c = true

theorem Identifier.word (t : Identifier) : Word t.bytes := by
  obtain ⟨⟨bytes, hnul⟩, hvalid⟩ := t
  unfold validateTableName at hvalid
  cases bytes with
  | nil => exact nofun
  | cons c rest =>
    simp only [Bool.and_eq_true, List.all_eq_true] at hvalid
    obtain ⟨⟨⟨-, hfirst⟩, hrest⟩, -⟩ := hvalid
    intro d hd
    rcases List.mem_cons.mp hd with rfl | hd
    · unfold isWordByte
      rcases Bool.or_eq_true_iff.mp hfirst with h | h
      · rw [h]
        rfl
      · rw [h, Bool.or_true]
    · exact hrest d hd

theorem Identifier.ne_nil (t : Identifier) : t.bytes ≠ [] := by
  obtain ⟨⟨bytes, hnul⟩, hvalid⟩ := t
  rintro rfl
  exact absurd hvalid Bool.false_ne_true

/-- Any other character does not occur in a name. -/
theorem Word.notMem (h : Word l) {c : UInt8} (hc : isWordByte c = false) : c ∉ l := fun hmem =>
  Bool.false_ne_true (hc.symm.trans (h c hmem))

/-- White space does not occur in names. -/
theorem isWordByte_of_isSpace {c : UInt8} (h : isSpace c = true) : isWordByte c = false := by
  simp only [isSpace, isWordByte, isAlpha, isDigit, Bool.or_eq_true, Bool.or_eq_false_iff,
    Bool.and_eq_true, Bool.and_eq_false_iff, beq_iff_eq, beq_eq_false_iff_ne, decide_eq_true_eq,
    decide_eq_false_iff_not, UInt8.le_iff_toNat_le, ← UInt8.toNat_inj, ne_eq,
    UInt8.reduceToNat] at *
  omega

theorem Word.notSpace (h : Word l) {c : UInt8} (hc : c ∈ l) : isSpace c = false := by
  by_contra hspace
  rw [Bool.not_eq_false] at hspace
  exact h.notMem (isWordByte_of_isSpace hspace) hc

/-! ### Trimming -/

theorem dropWhile_word_append (h : Word l) (hne : l ≠ []) (rest : List UInt8) :
    (l ++ rest).dropWhile isSpace = l ++ rest := by
  obtain ⟨c, l, rfl⟩ := List.exists_cons_of_ne_nil hne
  apply List.dropWhile_cons_of_neg
  rw [h.notSpace List.mem_cons_self]
  exact Bool.false_ne_true

theorem rdropWhile_append_word {a : List UInt8} (h : Word l) (hne : l ≠ []) :
    (a ++ l).rdropWhile isSpace = a ++ l := by
  rw [List.rdropWhile_eq_self_iff]
  intro hl
  rw [List.getLast_append_of_ne_nil hl hne, h.notSpace (List.getLast_mem hne)]
  exact Bool.false_ne_true

/-- A name is not trimmed. -/
theorem trimSpaces_word (h : Word l) (hne : l ≠ []) : trimSpaces l = l := by
  have hdrop := dropWhile_word_append h hne []
  have hrdrop : ([] ++ l).rdropWhile isSpace = [] ++ l := rdropWhile_append_word h hne
  rw [List.append_nil] at hdrop
  rw [trimSpaces, hdrop]
  exact hrdrop

/-- Between two words, a blank at the end is cut off. -/
theorem trimSpaces_blank {w rest l' w' : List UInt8} (hstart : l = w ++ rest) (hend : l = l' ++ w')
    (hw : Word w) (hw' : Word w') (hne : w ≠ []) (hne' : w' ≠ []) : trimSpaces (l ++ [32]) = l := by
  have hdrop : (l ++ [32]).dropWhile isSpace = l ++ [32] := by
    rw [hstart, List.append_assoc]
    exact dropWhile_word_append hw hne _
  rw [trimSpaces, hdrop, List.rdropWhile_concat_pos _ _ _ rfl, hend]
  exact rdropWhile_append_word hw' hne'

theorem mem_of_mem_trimSpaces {c : UInt8} (h : c ∈ trimSpaces l) : c ∈ l :=
  (List.dropWhile_suffix isSpace).subset ((List.rdropWhile_prefix isSpace _).subset h)

/-! ### Conditions -/

/-- An operator occurs. -/
def hasOp (l : List UInt8) : Bool := l.any (ascii "=<>").contains

theorem hasOp_append (a b : List UInt8) : hasOp (a ++ b) = (hasOp a || hasOp b) := List.any_append

theorem hasOp_of_subset {a b : List UInt8} (hab : a ⊆ b) (h : hasOp a = true) : hasOp b = true := by
  obtain ⟨c, hc, hop⟩ := List.any_eq_true.mp h
  exact List.any_eq_true.mpr ⟨c, hab hc, hop⟩

/-- Each operator of the list contains a character of `=<>`, and these are operators of the list. -/
theorem isSome_parseCondition : (parseCondition l).isSome = hasOp l := by
  rw [parseCondition, Option.isSome_map, Bool.eq_iff_iff, List.findSome?_isSome_iff]
  simp only [Option.isSome_map]
  constructor
  · rintro ⟨op, hop, hsome⟩
    have hchar : ∀ op ∈ conditionOps, ∃ c ∈ op, (ascii "=<>").contains c = true := by decide
    obtain ⟨c, hc, hcop⟩ := hchar op hop
    exact List.any_eq_true.mpr ⟨c, mem_of_strstr hc hsome, hcop⟩
  · intro h
    obtain ⟨c, hc, hcop⟩ := List.any_eq_true.mp h
    have hop : ∀ c ∈ ascii "=<>", [c] ∈ conditionOps := List.forall_iff_forall_mem.mp (by decide)
    exact ⟨[c], hop c (List.contains_iff_mem.mp hcop), isSome_strstr_singleton.mpr hc⟩

/-- White space does not matter for the operators. -/
theorem hasOp_dropWhile : hasOp (l.dropWhile isSpace) = hasOp l := by
  induction l with
  | nil => rfl
  | cons c l ih =>
    rw [List.dropWhile_cons]
    split_ifs with hspace
    · have hc : (ascii "=<>").contains c = false := by
        rw [Bool.eq_false_iff]
        intro hmem
        have hops : ∀ c ∈ ascii "=<>", isSpace c = false :=
          List.forall_iff_forall_mem.mp (by decide)
        rw [hops c (List.contains_iff_mem.mp hmem)] at hspace
        exact Bool.false_ne_true hspace
      rw [ih, hasOp, hasOp, List.any_cons, hc, Bool.false_or]
    · rfl

/-- A `where`, in any case, has an operator somewhere behind it. -/
def WhereOp (l : List UInt8) : Prop :=
  ∃ a keyword b, l = a ++ (keyword ++ b) ∧ keyword.map toLower = ascii "where" ∧ hasOp b = true

/-- The first `where` is the one to look at: what stands behind another one stands behind it. -/
theorem whereOp_iff : WhereOp l ↔
    ∃ i, strstr (ascii "where") (l.map toLower) = some i ∧ hasOp (l.drop (i + 5)) = true := by
  constructor
  · rintro ⟨a, keyword, b, rfl, hkeyword, hop⟩
    have hlength : keyword.length = 5 := by
      rw [← List.length_map (f := toLower), hkeyword]
      rfl
    have hpre : ascii "where" <+: ((a ++ (keyword ++ b)).map toLower).drop a.length := by
      rw [← List.map_drop, List.drop_left, List.map_append, hkeyword]
      exact List.prefix_append _ _
    obtain ⟨i, hle, hi⟩ := exists_strstr_le hpre
    have hbehind : (a ++ (keyword ++ b)).drop (a.length + 5) = b := by
      rw [← List.drop_drop, List.drop_left, ← hlength, List.drop_left]
    have hsubset : (a ++ (keyword ++ b)).drop (a.length + 5) ⊆ (a ++ (keyword ++ b)).drop (i + 5) :=
      (List.drop_sublist_drop_left _ (Nat.add_le_add_right hle 5)).subset
    rw [hbehind] at hsubset
    exact ⟨i, hi, hasOp_of_subset hsubset hop⟩
  · rintro ⟨i, hi, hop⟩
    obtain ⟨b, hb⟩ := prefix_drop_of_strstr hi
    rw [← List.map_drop, eq_comm, List.map_eq_append_iff] at hb
    obtain ⟨keyword, b', hdrop, hkeyword, -⟩ := hb
    have hlength : keyword.length = 5 := by
      rw [← List.length_map (f := toLower), hkeyword]
      rfl
    refine ⟨l.take i, keyword, b', ?_, hkeyword, ?_⟩
    · rw [← hdrop, List.take_append_drop]
    · rwa [← List.drop_drop, hdrop, ← hlength, List.drop_left] at hop

theorem isSome_parseWhere : (parseWhere l).isSome ↔ WhereOp l := by
  rw [whereOp_iff, parseWhere]
  cases strstr (ascii "where") (l.map toLower) with
  | none => simp
  | some i => simp [isSome_parseCondition, hasOp_dropWhile]

/-- **A clause at the end** counts if it contains an operator, or if there is a `where` before it.
-/
theorem whereOp_append_where (b c : List UInt8) :
    WhereOp (b ++ (ascii " WHERE " ++ c)) ↔ WhereOp b ∨ hasOp c = true := by
  have hsplit : (b ++ (ascii " WHERE " ++ c)).map toLower =
      b.map toLower ++ 32 :: (ascii "where " ++ c.map toLower) := by
    rw [List.map_append, List.map_append]
    rfl
  have hclause : strstr (ascii "where") (ascii "where " ++ c.map toLower) = some 0 :=
    strstr_of_isPrefixOf (List.isPrefixOf_iff_prefix.mpr ⟨32 :: c.map toLower, rfl⟩)
  rw [whereOp_iff, whereOp_iff, hsplit, strstr_append_cons (by decide) (by decide), hclause]
  cases hb : strstr (ascii "where") (b.map toLower) with
  | none =>
    -- the clause is the first `where`
    have hbehind : (b ++ (ascii " WHERE " ++ c)).drop (b.length + 1 + 5) = 32 :: c := by
      rw [Nat.add_assoc, ← List.drop_drop, List.drop_left]
      rfl
    have hop : hasOp (32 :: c) = hasOp c := rfl
    simp [hbehind, hop]
  | some i =>
    have hle : i + 5 ≤ b.length := by
      have hlength := (prefix_drop_of_strstr hb).length_le
      rw [List.length_drop, List.length_map] at hlength
      have hfive : (ascii "where").length = 5 := rfl
      omega
    have hop : hasOp (ascii " WHERE " ++ c) = hasOp c := rfl
    simp [List.drop_append_of_le_length hle, hasOp_append, hop]

/-! ### Tokens -/

/-- A keyword that is found behind `a` leaves `rest` to be read. -/
theorem extractToken_eq {a keyword rest endCharacters : List UInt8} {pos : Nat}
    (hpos : strstr (keyword.map toLower) ((a ++ rest).map toLower) = some pos)
    (ha : a.length = pos + keyword.length) :
    extractToken (a ++ rest) keyword endCharacters =
      some (trimSpaces ((rest.dropWhile isSpace).takeWhile fun c => !endCharacters.contains c)) := by
  rw [extractToken, hpos, Option.map_some, ← ha, List.drop_left]

theorem takeWhile_avoids {characters rest : List UInt8} (h : ∀ c ∈ characters, c ∉ l) :
    (l ++ rest).takeWhile (fun c => !characters.contains c) =
      l ++ rest.takeWhile fun c => !characters.contains c := by
  apply List.takeWhile_append_of_pos
  intro c hc
  rw [Bool.not_eq_true', Bool.eq_false_iff]
  exact fun hmem => h c (List.contains_iff_mem.mp hmem) hc

theorem notMem_takeWhile {characters : List UInt8} {c : UInt8} (hc : c ∈ characters) :
    c ∉ l.takeWhile fun c => !characters.contains c := by
  intro hmem
  have h := List.mem_takeWhile_imp hmem
  rw [List.contains_iff_mem.mpr hc] at h
  exact Bool.false_ne_true h

/-- **A name is read as it is** exactly if none of the end characters occurs in it. -/
theorem nameToken_iff (t : Identifier) {characters tail : List UInt8} (hblank : 32 ∈ characters)
    (htail : tail = [] ∨ ∃ l, tail = 32 :: l) :
    trimSpaces (((32 :: (t.bytes ++ tail)).dropWhile isSpace).takeWhile
        fun c => !characters.contains c) = t.bytes ↔ t.Avoids characters := by
  have hdrop : (32 :: (t.bytes ++ tail)).dropWhile isSpace = t.bytes ++ tail := by
    rw [List.dropWhile_cons_of_pos rfl]
    exact dropWhile_word_append t.word t.ne_nil tail
  rw [hdrop]
  constructor
  · intro heq c hc hmem
    rw [← heq] at hmem
    exact notMem_takeWhile hc (mem_of_mem_trimSpaces hmem)
  · intro havoids
    have hend : tail.takeWhile (fun c => !characters.contains c) = [] := by
      rcases htail with rfl | ⟨l, rfl⟩
      · rfl
      · apply List.takeWhile_cons_of_neg
        rw [List.contains_iff_mem.mpr hblank]
        exact Bool.false_ne_true
    rw [takeWhile_avoids havoids, hend, List.append_nil, trimSpaces_word t.word t.ne_nil]

/-- The name behind a keyword. -/
theorem extractToken_name_iff (t : Identifier) {a keyword characters tail : List UInt8} {pos : Nat}
    (hpos : strstr (keyword.map toLower) ((a ++ 32 :: (t.bytes ++ tail)).map toLower) = some pos)
    (ha : a.length = pos + keyword.length) (hblank : 32 ∈ characters)
    (htail : tail = [] ∨ ∃ l, tail = 32 :: l) :
    extractToken (a ++ 32 :: (t.bytes ++ tail)) keyword characters = some t.bytes ↔
      t.Avoids characters := by
  rw [extractToken_eq hpos ha, Option.some_inj]
  exact nameToken_iff t hblank htail

theorem Identifier.avoids_of_all (t : Identifier) {blanks : List UInt8}
    (h : blanks.all (!isWordByte ·) = true) : t.Avoids blanks := by
  intro c hc
  have hword := List.all_eq_true.mp h c hc
  rw [Bool.not_eq_true'] at hword
  exact t.word.notMem hword

/-- Of the end characters, only the letters matter to a name. -/
theorem Identifier.avoids_append_iff (t : Identifier) {blanks letters : List UInt8}
    (h : blanks.all (!isWordByte ·) = true) : t.Avoids (blanks ++ letters) ↔ t.Avoids letters := by
  constructor
  · exact fun havoids c hc => havoids c (List.mem_append_right blanks hc)
  · intro havoids c hc
    rcases List.mem_append.mp hc with hc | hc
    · exact t.avoids_of_all h c hc
    · exact havoids c hc

/-! ### Fields -/

/-- Names with a comma and a blank between them. -/
def commaList (names : List (List UInt8)) : List UInt8 := (ascii ", ").intercalate names

variable {name : List UInt8} {names : List (List UInt8)}

theorem commaList_cons_cons (a b : List UInt8) (ls : List (List UInt8)) :
    commaList (a :: b :: ls) = a ++ (ascii ", " ++ commaList (b :: ls)) := by
  rw [commaList, List.intercalate_cons_cons, List.append_assoc]
  rfl

/-- Each character of the list is one of a name or stands between two names. -/
theorem mem_commaList {c : UInt8} (h : c ∈ commaList names) :
    c ∈ ascii ", " ∨ ∃ name ∈ names, c ∈ name := by
  induction names with
  | nil => exact absurd h List.not_mem_nil
  | cons a names ih =>
    cases names with
    | nil =>
      rw [commaList, List.intercalate_singleton] at h
      exact Or.inr ⟨a, List.mem_cons_self, h⟩
    | cons b names =>
      rw [commaList_cons_cons, List.mem_append, List.mem_append] at h
      rcases h with h | h | h
      · exact Or.inr ⟨a, List.mem_cons_self, h⟩
      · exact Or.inl h
      · rcases ih h with h | ⟨name, hname, hc⟩
        · exact Or.inl h
        · exact Or.inr ⟨name, List.mem_cons_of_mem a hname, hc⟩

/-- The list ends with a name. -/
theorem exists_commaList_eq (hne : names ≠ []) :
    ∃ a, ∃ name ∈ names, commaList names = a ++ name := by
  induction names with
  | nil => exact absurd rfl hne
  | cons b names ih =>
    cases names with
    | nil => exact ⟨[], b, List.mem_cons_self, List.intercalate_singleton⟩
    | cons c names =>
      obtain ⟨a, name, hname, heq⟩ := ih (List.cons_ne_nil c names)
      refine ⟨b ++ (ascii ", " ++ a), name, List.mem_cons_of_mem b hname, ?_⟩
      rw [commaList_cons_cons, heq, List.append_assoc, List.append_assoc]

/-- A cut at the commas leaves the blanks in front of the names. -/
theorem splitOn_commaList (hcomma : ∀ name ∈ names, 44 ∉ name) (h : 44 ∉ name) :
    (commaList (name :: names)).splitOn 44 = name :: names.map (32 :: ·) := by
  have hblank : commaList (name :: names) =
      [44].intercalate (name :: names.map (32 :: ·)) := by
    clear hcomma h
    induction names generalizing name with
    | nil => rw [commaList, List.intercalate_singleton, List.map_nil, List.intercalate_singleton]
    | cons a names ih =>
      have hsep : ascii ", " = [44, 32] := rfl
      rw [commaList_cons_cons, ih, hsep]
      cases names with
      | nil => simp
      | cons b names => simp [List.intercalate_cons_cons]
  rw [hblank, List.splitOn_intercalate _ _ (List.cons_ne_nil _ _)]
  intro l hl
  rcases List.mem_cons.mp hl with rfl | hl
  · exact h
  · obtain ⟨l', hl', rfl⟩ := List.mem_map.mp hl
    rw [List.mem_cons, not_or]
    exact ⟨by decide, hcomma l' hl'⟩

/-- What is cut out of a text consists of its characters. -/
theorem mem_of_mem_strtokCommas {c : UInt8} (hname : name ∈ strtokCommas l) (hc : c ∈ name) :
    c ∈ l := by
  have hsplit : name ∈ l.splitOn 44 := List.mem_of_mem_filter hname
  clear hname
  induction l generalizing name with
  | nil =>
    rw [List.splitOn_nil, List.mem_singleton] at hsplit
    rwa [hsplit] at hc
  | cons d l ih =>
    rw [List.splitOn_cons_eq_if_modifyHead] at hsplit
    split_ifs at hsplit with hd
    · rcases List.mem_cons.mp hsplit with rfl | hsplit
      · exact absurd hc List.not_mem_nil
      · exact List.mem_cons_of_mem d (ih hc hsplit)
    · obtain ⟨first, others, hcons⟩ := List.exists_cons_of_ne_nil (List.splitOn_ne_nil 44 l)
      rw [hcons, List.modifyHead_cons, List.mem_cons] at hsplit
      rcases hsplit with rfl | hsplit
      · rcases List.mem_cons.mp hc with rfl | hc
        · exact List.mem_cons_self
        · exact List.mem_cons_of_mem d (ih hc (by rw [hcons]; exact List.mem_cons_self))
      · exact List.mem_cons_of_mem d (ih hc (by rw [hcons]; exact List.mem_cons_of_mem _ hsplit))

/-- **The names of a list are found again**, without the blanks. -/
theorem map_trimSpaces_strtokCommas (field : Identifier) (fields : List Identifier) :
    (strtokCommas (commaList ((field :: fields).map Identifier.bytes))).map trimSpaces =
      (field :: fields).map Identifier.bytes := by
  have hcomma : ∀ f : Identifier, 44 ∉ f.bytes := fun f => f.word.notMem (by decide)
  have hcommas : ∀ name ∈ fields.map Identifier.bytes, 44 ∉ name := by
    intro name hname
    obtain ⟨f, -, rfl⟩ := List.mem_map.mp hname
    exact hcomma f
  have hfilter : (field.bytes :: (fields.map Identifier.bytes).map (32 :: ·)).filter (· ≠ []) =
      field.bytes :: (fields.map Identifier.bytes).map (32 :: ·) := by
    apply List.filter_eq_self.mpr
    intro tok htok
    rcases List.mem_cons.mp htok with rfl | htok
    · exact decide_eq_true field.ne_nil
    · obtain ⟨name, -, rfl⟩ := List.mem_map.mp htok
      rfl
  rw [strtokCommas, List.map_cons, splitOn_commaList hcommas (hcomma field), hfilter, List.map_cons,
    trimSpaces_word field.word field.ne_nil, List.map_map, List.map_map]
  congr 1
  apply List.map_congr_left
  intro f _
  -- the blank in front of the name is trimmed
  exact trimSpaces_word f.word f.ne_nil

/-- What no field contains does not occur in their list. -/
theorem commaList_avoids {fields : List Identifier} {characters : List UInt8}
    (hcomma : 44 ∉ characters) (hblank : 32 ∉ characters)
    (h : ∀ f ∈ fields, f.Avoids characters) :
    ∀ c ∈ characters, c ∉ commaList (fields.map Identifier.bytes) := by
  intro c hc hmem
  rcases mem_commaList hmem with hsep | ⟨name, hname, hc'⟩
  · rcases List.mem_cons.mp hsep with rfl | hsep
    · exact hcomma hc
    · obtain rfl : c = 32 := List.mem_singleton.mp hsep
      exact hblank hc
  · obtain ⟨f, hf, rfl⟩ := List.mem_map.mp hname
    exact h f hf c hc hc'

/-- **The fields are read as they are** exactly if none of the end characters occurs in them. -/
theorem fieldsToken_iff (field : Identifier) (fields : List Identifier) {characters l : List UInt8}
    {c : UInt8} (hc : c ∈ characters) (hcomma : 44 ∉ characters) (hblank : 32 ∉ characters) :
    (strtokCommas (trimSpaces (((32 :: (commaList ((field :: fields).map Identifier.bytes) ++
        32 :: c :: l)).dropWhile isSpace).takeWhile fun c => !characters.contains c))).map trimSpaces =
      (field :: fields).map Identifier.bytes ↔ ∀ f ∈ field :: fields, f.Avoids characters := by
  set text := commaList ((field :: fields).map Identifier.bytes) with htext
  obtain ⟨rest, hstart⟩ : ∃ rest, text = field.bytes ++ rest := by
    cases fields with
    | nil => exact ⟨[], by rw [htext, List.append_nil]; exact List.intercalate_singleton⟩
    | cons g gs => exact ⟨_, commaList_cons_cons _ _ _⟩
  have hdrop : (32 :: (text ++ 32 :: c :: l)).dropWhile isSpace = text ++ 32 :: c :: l := by
    rw [List.dropWhile_cons_of_pos rfl, hstart, List.append_assoc]
    exact dropWhile_word_append field.word field.ne_nil _
  rw [hdrop]
  constructor
  · intro heq f hf d hd hmem
    have hbytes : f.bytes ∈ (field :: fields).map Identifier.bytes := List.mem_map_of_mem hf
    rw [← heq] at hbytes
    obtain ⟨tok, htok, htrim⟩ := List.mem_map.mp hbytes
    rw [← htrim] at hmem
    have htoken := mem_of_mem_strtokCommas htok (mem_of_mem_trimSpaces hmem)
    exact notMem_takeWhile hd (mem_of_mem_trimSpaces htoken)
  · intro havoids
    have htextAvoids := commaList_avoids hcomma hblank havoids
    obtain ⟨l', name, hname, hend⟩ := exists_commaList_eq
      (List.cons_ne_nil field.bytes (fields.map Identifier.bytes))
    obtain ⟨last, -, rfl⟩ : ∃ f ∈ field :: fields, f.bytes = name := List.mem_map.mp hname
    have htail : (32 :: c :: l).takeWhile (fun c => !characters.contains c) = [32] := by
      rw [List.takeWhile_cons_of_pos, List.takeWhile_cons_of_neg]
      · simpa using hc
      · simpa using hblank
    rw [takeWhile_avoids htextAvoids, htail,
      trimSpaces_blank hstart hend field.word last.word field.ne_nil last.ne_nil, htext,
      map_trimSpaces_strtokCommas]

/-! ### Statements -/

/-- A statement of one of the documented forms. -/
inductive Statement
  | select (field : Identifier) (fields : List Identifier) (table : Identifier)
      (cond : Option CString)
  | insert (table : Identifier) (body : CString)
  | update (table : Identifier) (assignments : CString) (cond : Option CString)
  | delete (table : Identifier) (cond : Option CString)
  | createTable (table : Identifier) (body : CString)
  | dropTable (table : Identifier)

namespace Statement

def type : Statement → QueryType
  | select .. => .select
  | insert .. => .insert
  | update .. => .update
  | delete .. => .delete
  | createTable .. => .createTable
  | dropTable .. => .dropTable

def table : Statement → Identifier
  | select _ _ t _ | insert t _ | update t _ _ | delete t _ | createTable t _ | dropTable t => t

/-- Only a `SELECT` has fields. -/
def fields : Statement → List Identifier
  | select field fields _ _ => field :: fields
  | _ => []

def cond : Statement → Option CString
  | select _ _ _ c | update _ _ c | delete _ c => c
  | _ => none

/-- The text in front of the `WHERE` clause. -/
def main : Statement → List UInt8
  | select field fields t _ => ascii "SELECT " ++
      (commaList ((field :: fields).map Identifier.bytes) ++ (ascii " FROM " ++ t.bytes))
  | insert t body => ascii "INSERT INTO " ++ (t.bytes ++ (ascii " (" ++ (body.bytes ++ ascii ")")))
  | update t assignments _ => ascii "UPDATE " ++ (t.bytes ++ (ascii " SET " ++ assignments.bytes))
  | delete t _ => ascii "DELETE FROM " ++ t.bytes
  | createTable t body =>
      ascii "CREATE TABLE " ++ (t.bytes ++ (ascii " (" ++ (body.bytes ++ ascii ")")))
  | dropTable t => ascii "DROP TABLE " ++ t.bytes

/-- The `WHERE` clause, with the blank in front of it. -/
def clause (s : Statement) : List UInt8 :=
  match s.cond with
  | some c => ascii " WHERE " ++ c.bytes
  | none => []

theorem notMem_main (s : Statement) : 0 ∉ s.main := by
  have hname : ∀ t : Identifier, 0 ∉ t.bytes := fun t => t.1.nulFree
  have hbody : ∀ body : CString, 0 ∉ body.bytes := fun body => body.nulFree
  have hlits : ∀ lit ∈ ["SELECT ", " FROM ", "INSERT INTO ", " (", ")", "UPDATE ", " SET ",
      "DELETE FROM ", "CREATE TABLE ", "DROP TABLE "].map ascii, 0 ∉ lit := by decide
  cases s with
  | select field fields t c =>
    have hfields : 0 ∉ commaList ((field :: fields).map Identifier.bytes) := by
      intro hmem
      rcases mem_commaList hmem with hsep | ⟨name, hfield, h0⟩
      · exact absurd hsep (by decide)
      · obtain ⟨f, -, rfl⟩ := List.mem_map.mp hfield
        exact hname f h0
    simp only [main, List.mem_append, not_or]
    exact ⟨hlits _ (by decide), hfields, hlits _ (by decide), hname t⟩
  | insert t body | createTable t body =>
    simp only [main, List.mem_append, not_or]
    exact ⟨hlits _ (by decide), hname t, hlits _ (by decide), hbody body, hlits _ (by decide)⟩
  | update t assignments c =>
    simp only [main, List.mem_append, not_or]
    exact ⟨hlits _ (by decide), hname t, hlits _ (by decide), hbody assignments⟩
  | delete t c | dropTable t =>
    simp only [main, List.mem_append, not_or]
    exact ⟨hlits _ (by decide), hname t⟩

theorem notMem_clause (s : Statement) : 0 ∉ s.clause := by
  unfold clause
  cases s.cond with
  | none => exact List.not_mem_nil
  | some c =>
    simp only [List.mem_append, not_or]
    exact ⟨by decide, c.nulFree⟩

/-- The statement as text. -/
def text (s : Statement) : CString where
  bytes := s.main ++ s.clause
  nulFree := by
    rw [List.mem_append, not_or]
    exact ⟨s.notMem_main, s.notMem_clause⟩

/-- The query says what the statement says. -/
def ParsedAs (s : Statement) (q : Query) : Prop :=
  q.type = s.type ∧ q.table = some s.table.bytes ∧ q.fields = s.fields.map Identifier.bytes ∧
    (q.conditions.isSome ↔ s.cond.isSome)

/-- The names do not contain the letters that end them. -/
def Uncut : Statement → Prop
  | select field fields t _ =>
      (∀ f ∈ field :: fields, f.Avoids (ascii "Ff")) ∧ t.Avoids (ascii "Ww")
  | update t _ _ => t.Avoids (ascii "S")
  | delete t _ => t.Avoids (ascii "W")
  | insert .. | createTable .. | dropTable .. => True

/-- No `where` of the text is mistaken for a clause, and the clause is one. -/
def ClauseClear (s : Statement) : Prop :=
  match s.cond with
  | some c => hasOp c.bytes = true ∨ WhereOp s.main
  | none => ¬WhereOp s.main

/-! ### The parser -/

variable (s : Statement)

theorem clause_cases : s.clause = [] ∨ ∃ l, s.clause = 32 :: l := by
  unfold clause
  cases s.cond with
  | none => exact Or.inl rfl
  | some c => exact Or.inr ⟨_, rfl⟩

/-- The text starts with a letter. -/
theorem parseQuery_text : parseQuery s.text =
    { parseHead (s.main ++ s.clause) with conditions := parseWhere (s.main ++ s.clause) } := by
  have hdrop : s.text.bytes.dropWhile isSpace = s.main ++ s.clause := by
    cases s <;> rfl
  rw [parseQuery, hdrop]

theorem conditions_iff :
    ((parseWhere (s.main ++ s.clause)).isSome ↔ s.cond.isSome) ↔ s.ClauseClear := by
  rw [isSome_parseWhere, clause, ClauseClear]
  cases s.cond with
  | none => simp
  | some c =>
    simp only [whereOp_append_where, Option.isSome_some, iff_true]
    exact or_comm

theorem mem_of_toLower_eq {c : UInt8} (h : toLower c = 102) : c ∈ ascii "Ff" := by
  unfold toLower at h
  split_ifs at h with hupper
  · have hc : c = 70 := by grind
    rw [hc]
    decide
  · rw [h]
    decide

/-- Without an `f` in the fields, the first `from` is the keyword. -/
theorem strstr_from {names : List UInt8} (rest : List UInt8) (h : ∀ c ∈ ascii "Ff", c ∉ names) :
    strstr (ascii "from") ((ascii "SELECT " ++ names ++ ascii " FROM" ++ 32 :: rest).map toLower) =
      some ((ascii "SELECT " ++ names).length + 1) := by
  have hsplit : (ascii "SELECT " ++ names ++ ascii " FROM" ++ 32 :: rest).map toLower =
      (ascii "SELECT " ++ names).map toLower ++ 32 :: (ascii "from " ++ rest.map toLower) := by
    rw [List.append_assoc, List.map_append, List.map_append]
    rfl
  have hno : 102 ∉ (ascii "SELECT " ++ names).map toLower := by
    intro hmem
    obtain ⟨c, hc, hlower⟩ := List.mem_map.mp hmem
    have hf := mem_of_toLower_eq hlower
    rcases List.mem_append.mp hc with hc | hc
    · have hselect : ∀ c ∈ ascii "Ff", c ∉ ascii "SELECT " :=
        List.forall_iff_forall_mem.mp (by decide)
      exact hselect c hf hc
    · exact h c hf hc
  have hhere : strstr (ascii "from") (ascii "from " ++ rest.map toLower) = some 0 :=
    strstr_of_isPrefixOf (List.isPrefixOf_iff_prefix.mpr ⟨32 :: rest.map toLower, rfl⟩)
  rw [hsplit, strstr_append_cons (by decide) (by decide),
    strstr_eq_none (c := 102) (by decide) hno, hhere, Option.none_or, Option.map_some,
    List.length_map, Nat.zero_add]

/-- The head of a query with `SELECT`, once its list of fields is found. -/
theorem parseHead_selected {rest token : List UInt8}
    (h : extractToken (ascii "SELECT" ++ 32 :: rest) (ascii "select") (ascii "Ff") = some token) :
    parseHead (ascii "SELECT" ++ 32 :: rest) =
      ⟨.select, extractToken (ascii "SELECT" ++ 32 :: rest) (ascii "from")
        (ascii " \t\r\n(" ++ ascii "Ww"), (strtokCommas token).map trimSpaces, none⟩ := by
  have hstarts : (ascii "select").isPrefixOf ((ascii "SELECT" ++ 32 :: rest).map toLower) = true := rfl
  rw [parseHead]
  dsimp only
  rw [if_pos hstarts, h]
  rfl

theorem parseHead_select_iff (field : Identifier) (fields : List Identifier) (t : Identifier)
    (c : Option CString) :
    (parseHead ((select field fields t c).main ++ (select field fields t c).clause)).type = .select ∧
      (parseHead ((select field fields t c).main ++ (select field fields t c).clause)).table =
        some t.bytes ∧
      (parseHead ((select field fields t c).main ++ (select field fields t c).clause)).fields =
        (field :: fields).map Identifier.bytes ↔
    (∀ f ∈ field :: fields, f.Avoids (ascii "Ff")) ∧ t.Avoids (ascii "Ww") := by
  set clause := (select field fields t c).clause with hclause
  have htail : clause = [] ∨ ∃ l, clause = 32 :: l := clause_cases _
  set names := commaList ((field :: fields).map Identifier.bytes)
  set token := trimSpaces (((32 :: (names ++ 32 :: 70 :: (ascii "ROM " ++
    (t.bytes ++ clause)))).dropWhile isSpace).takeWhile fun c => !(ascii "Ff").contains c)
  have htext : (select field fields t c).main ++ clause =
      ascii "SELECT" ++ 32 :: (names ++ 32 :: 70 :: (ascii "ROM " ++ (t.bytes ++ clause))) := by
    show ascii "SELECT " ++ (names ++ (ascii " FROM " ++ t.bytes)) ++ clause = _
    rw [List.append_assoc, List.append_assoc, List.append_assoc]
    rfl
  have htext' : (select field fields t c).main ++ clause =
      ascii "SELECT " ++ names ++ ascii " FROM" ++ 32 :: (t.bytes ++ clause) := by
    rw [htext, List.append_assoc, List.append_assoc]
    rfl
  have hfields : (strtokCommas token).map trimSpaces = (field :: fields).map Identifier.bytes ↔
      ∀ f ∈ field :: fields, f.Avoids (ascii "Ff") :=
    fieldsToken_iff field fields (by decide) (by decide) (by decide)
  have htoken : extractToken ((select field fields t c).main ++ clause) (ascii "select")
      (ascii "Ff") = some token := by
    rw [htext]
    exact extractToken_eq rfl rfl
  have hhead : parseHead ((select field fields t c).main ++ clause) =
      ⟨.select, extractToken ((select field fields t c).main ++ clause) (ascii "from")
        (ascii " \t\r\n(" ++ ascii "Ww"), (strtokCommas token).map trimSpaces, none⟩ := by
    rw [htext] at htoken ⊢
    exact parseHead_selected htoken
  -- where the table is looked for depends on the fields
  have htable (havoids : ∀ f ∈ field :: fields, f.Avoids (ascii "Ff")) :
      extractToken ((select field fields t c).main ++ clause) (ascii "from")
        (ascii " \t\r\n(" ++ ascii "Ww") = some t.bytes ↔ t.Avoids (ascii "Ww") := by
    have hnames : ∀ c ∈ ascii "Ff", c ∉ names := commaList_avoids (by decide) (by decide) havoids
    have hletters : t.Avoids (ascii " \t\r\n(" ++ ascii "Ww") ↔ t.Avoids (ascii "Ww") :=
      t.avoids_append_iff rfl
    rw [htext', ← hletters]
    refine extractToken_name_iff t (strstr_from (t.bytes ++ clause) hnames) ?_ (by decide) htail
    rw [List.length_append]
    rfl
  rw [hhead]
  constructor
  · rintro ⟨-, ht, hf⟩
    exact ⟨hfields.mp hf, (htable (hfields.mp hf)).mp ht⟩
  · rintro ⟨hf, ht⟩
    exact ⟨rfl, (htable hf).mpr ht, hfields.mpr hf⟩

/-- The keyword in front of the table, and what `parse_query` makes of the rest. -/
theorem parseHead_iff : (parseHead (s.main ++ s.clause)).type = s.type ∧
    (parseHead (s.main ++ s.clause)).table = some s.table.bytes ∧
    (parseHead (s.main ++ s.clause)).fields = s.fields.map Identifier.bytes ↔ s.Uncut := by
  have hclause := s.clause_cases
  cases s with
  | select field fields t c => exact parseHead_select_iff field fields t c
  | insert t body =>
    -- the table ends at the blank behind it, and no end character occurs in a name
    have htext : (insert t body).main ++ (insert t body).clause =
        ascii "INSERT INTO" ++ 32 :: (t.bytes ++ (ascii " (" ++ (body.bytes ++ ascii ")"))) :=
      List.append_nil _
    have htable : extractToken (ascii "INSERT INTO" ++ 32 :: (t.bytes ++ (ascii " (" ++
        (body.bytes ++ ascii ")")))) (ascii "into") (ascii " \t\r\n(") = some t.bytes :=
      (extractToken_name_iff t rfl rfl (by decide) (Or.inr ⟨_, rfl⟩)).mpr
        (t.avoids_of_all rfl)
    rw [htext]
    exact ⟨fun _ => trivial, fun _ => ⟨rfl, htable, rfl⟩⟩
  | update t assignments c =>
    -- the `S` that stands for `SET` also ends the table
    set s := update t assignments c
    have htext : s.main ++ s.clause =
        ascii "UPDATE" ++ 32 :: (t.bytes ++ (ascii " SET " ++ (assignments.bytes ++ s.clause))) := by
      show ascii "UPDATE " ++ (t.bytes ++ (ascii " SET " ++ assignments.bytes)) ++ s.clause = _
      rw [List.append_assoc, List.append_assoc, List.append_assoc]
      rfl
    have htable : extractToken (ascii "UPDATE" ++ 32 :: (t.bytes ++ (ascii " SET " ++
        (assignments.bytes ++ s.clause)))) (ascii "update") (ascii " \t\r\n" ++ ascii "S") =
          some t.bytes ↔ t.Avoids (ascii " \t\r\n" ++ ascii "S") :=
      extractToken_name_iff t rfl rfl (by decide) (Or.inr ⟨_, rfl⟩)
    rw [t.avoids_append_iff rfl] at htable
    rw [htext]
    exact ⟨fun h => htable.mp h.2.1, fun h => ⟨rfl, htable.mpr h, rfl⟩⟩
  | delete t c =>
    -- and so does the `W` that stands for `WHERE`
    set s := delete t c
    have htext : s.main ++ s.clause = ascii "DELETE FROM" ++ 32 :: (t.bytes ++ s.clause) := by
      show ascii "DELETE FROM " ++ t.bytes ++ s.clause = _
      rw [List.append_assoc]
      rfl
    have htable : extractToken (ascii "DELETE FROM" ++ 32 :: (t.bytes ++ s.clause)) (ascii "from")
        (ascii " \t\r\n" ++ ascii "W") = some t.bytes ↔ t.Avoids (ascii " \t\r\n" ++ ascii "W") :=
      extractToken_name_iff t rfl rfl (by decide) hclause
    rw [t.avoids_append_iff rfl] at htable
    rw [htext]
    exact ⟨fun h => htable.mp h.2.1, fun h => ⟨rfl, htable.mpr h, rfl⟩⟩
  | createTable t body =>
    have htext : (createTable t body).main ++ (createTable t body).clause =
        ascii "CREATE TABLE" ++ 32 :: (t.bytes ++ (ascii " (" ++ (body.bytes ++ ascii ")"))) :=
      List.append_nil _
    have htable : extractToken (ascii "CREATE TABLE" ++ 32 :: (t.bytes ++ (ascii " (" ++
        (body.bytes ++ ascii ")")))) (ascii "table") (ascii " \t\r\n(") = some t.bytes :=
      (extractToken_name_iff t rfl rfl (by decide) (Or.inr ⟨_, rfl⟩)).mpr
        (t.avoids_of_all rfl)
    rw [htext]
    exact ⟨fun _ => trivial, fun _ => ⟨rfl, htable, rfl⟩⟩
  | dropTable t =>
    have htext : (dropTable t).main ++ (dropTable t).clause =
        ascii "DROP TABLE" ++ 32 :: (t.bytes ++ []) := by
      rw [List.append_nil]
      exact List.append_nil _
    have htable : extractToken (ascii "DROP TABLE" ++ 32 :: (t.bytes ++ [])) (ascii "table")
        (ascii " \t\r\n;") = some t.bytes :=
      (extractToken_name_iff t rfl rfl (by decide) (Or.inl rfl)).mpr
        (t.avoids_of_all rfl)
    rw [htext]
    exact ⟨fun _ => trivial, fun _ => ⟨rfl, htable, rfl⟩⟩

end Statement

/-- **When a statement is parsed as what it says.** -/
theorem parse_query_iff (s : Statement) : s.ParsedAs (parseQuery s.text) ↔ s.Uncut ∧ s.ClauseClear := by
  rw [Statement.ParsedAs, s.parseQuery_text, ← s.parseHead_iff, ← s.conditions_iff, and_assoc, and_assoc]

/-- `SELECT profile FROM users` -/
def selectProfile : Statement :=
  .select ⟨cstr "profile", by decide⟩ [] ⟨cstr "users", by decide⟩ none

/-- The only field is read as `pro`. -/
theorem field_cut_at_letter : (parseQuery selectProfile.text).fields = [ascii "pro"] ∧
    ¬selectProfile.ParsedAs (parseQuery selectProfile.text) :=
  ⟨by decide, fun h => absurd h.2.2.1 (by decide)⟩

end Luminix
