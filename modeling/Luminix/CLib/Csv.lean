import Luminix.CLib.CString

/-!
# Comma-separated values

`decodeCsv` reads a text by the usual rules: the cells of a row are separated by commas, and the rows
by line ends.  A cell that begins with a quote ends with one, and has two quotes for each in it; the
others have no quotes, commas and line breaks in them.  `decode_csvText_iff` says when the cells that
are written without a look at what they hold are read back.
-/

namespace CLib

/-- A character of a cell without quotes. -/
def isCsvText (c : UInt8) : Bool := !(c == 34 || c == 44 || c == 13 || c == 10)

/-! ### Decoding -/

/-- The rest of a cell behind its first quote, and what stands behind the cell. -/
def quotedCell : List UInt8 → Option (List UInt8 × List UInt8)
  | [] => none
  | c :: l =>
    if c = 34 then
      match l with
      | 34 :: l' => (quotedCell l').map (Prod.map (34 :: ·) id)
      | l => some ([], l)
    else (quotedCell l).map (Prod.map (c :: ·) id)

/-- A cell, and what stands behind it. -/
def csvCell (l : List UInt8) : Option (List UInt8 × List UInt8) :=
  match l with
  | 34 :: l => quotedCell l
  | l => some (l.takeWhile isCsvText, l.dropWhile isCsvText)

/-- What stands behind a cell: the other cells of its row, which `row` reads, or a line end. -/
def csvAfterCell (row : List UInt8 → Option (List (List UInt8) × List UInt8)) (l : List UInt8) :
    Option (List (List UInt8) × List UInt8) :=
  match l with
  | [] => some ([], [])
  | 44 :: r => row r
  | 10 :: r => some ([], r)
  | 13 :: 10 :: r => some ([], r)
  | _ => none

/-- A row of at most `fuel` cells, and what stands behind it. -/
def csvRow : (fuel : Nat) → List UInt8 → Option (List (List UInt8) × List UInt8)
  | 0, _ => none
  | fuel + 1, l => do
    let (cell, r) ← csvCell l
    let (cells, r) ← csvAfterCell (csvRow fuel) r
    some (cell :: cells, r)

/-- At most `fuel` rows, up to the end. -/
def csvRows : (fuel : Nat) → List UInt8 → Option (List (List (List UInt8)))
  | 0, _ => none
  | fuel + 1, l =>
    if l = [] then some []
    else do
      let (row, r) ← csvRow (l.length + 1) l
      let rows ← csvRows fuel r
      some (row :: rows)

/-- The rows of a text. -/
def decodeCsv (l : List UInt8) : Option (List (List (List UInt8))) := csvRows (l.length + 1) l

example : decodeCsv (ascii "a,\"b,\"\"\"\r\n,1") = some [[ascii "a", ascii "b,\""], [[], ascii "1"]] := by
  decide

/-! ### Writing -/

/-- A cell that is written as it is, or between quotes. -/
inductive CsvCell
  | plain (content : List UInt8)
  | quoted (content : List UInt8)

namespace CsvCell

def content : CsvCell → List UInt8
  | plain w => w
  | quoted w => w

def text : CsvCell → List UInt8
  | plain w => w
  | quoted w => 34 :: (w ++ [34])

/-- The content does not end the cell. -/
def Safe : CsvCell → Prop
  | plain w => ∀ c ∈ w, isCsvText c = true
  | quoted w => 34 ∉ w

end CsvCell

/-- A row that begins with a cell. -/
def csvRowText (cell : CsvCell) (cells : List CsvCell) : List UInt8 :=
  cell.text ++ (cells.flatMap fun cell => 44 :: cell.text) ++ [10]

/-- Some rows, each of a first cell and others. -/
def csvText (rows : List (CsvCell × List CsvCell)) : List UInt8 :=
  rows.flatMap fun row => csvRowText row.1 row.2

variable {w l r t : List UInt8} {s : UInt8}

/-! ### Cells between quotes -/

/-- The text with two quotes for each. -/
def doubleQuotes (l : List UInt8) : List UInt8 := l.flatMap fun c => if c = 34 then [34, 34] else [c]

theorem doubleQuotes_cons (c : UInt8) (l : List UInt8) :
    doubleQuotes (c :: l) = (if c = 34 then [34, 34] else [c]) ++ doubleQuotes l := rfl

theorem doubleQuotes_append (l l' : List UInt8) :
    doubleQuotes (l ++ l') = doubleQuotes l ++ doubleQuotes l' := List.flatMap_append

theorem doubleQuotes_eq_self (h : 34 ∉ l) : doubleQuotes l = l := by
  induction l with
  | nil => rfl
  | cons c l ih =>
    rw [List.mem_cons, not_or] at h
    rw [doubleQuotes_cons, if_neg (Ne.symm h.1), ih h.2, List.singleton_append]

theorem quotedCell_quotes (l : List UInt8) :
    quotedCell (34 :: 34 :: l) = (quotedCell l).map (Prod.map (34 :: ·) id) := by
  rw [quotedCell, if_pos rfl]

theorem quotedCell_end (h : ∀ l', l ≠ 34 :: l') : quotedCell (34 :: l) = some ([], l) := by
  rw [quotedCell, if_pos rfl]
  exact h

theorem quotedCell_cons {c : UInt8} (hc : c ≠ 34) (l : List UInt8) :
    quotedCell (c :: l) = (quotedCell l).map (Prod.map (c :: ·) id) := by
  conv_lhs => unfold quotedCell
  rw [if_neg hc]

/-- What is read of a cell is what stands there. -/
theorem eq_of_quotedCell (h : quotedCell l = some (w, r)) : l = doubleQuotes w ++ 34 :: r := by
  induction l using quotedCell.induct generalizing w with
  | case1 => cases h
  | case2 l ih =>
    rw [quotedCell_quotes] at h
    obtain ⟨⟨w', r'⟩, hw', hpair⟩ := Option.map_eq_some_iff.mp h
    obtain ⟨rfl, rfl⟩ := Prod.mk.inj hpair
    rw [doubleQuotes_cons, if_pos rfl, ih hw']
    rfl
  | case3 l hl =>
    rw [quotedCell_end fun l' h => hl l' h] at h
    obtain ⟨rfl, rfl⟩ := Prod.mk.inj (Option.some.inj h)
    rfl
  | case4 c l hc ih =>
    rw [quotedCell_cons hc] at h
    obtain ⟨⟨w', r'⟩, hw', hpair⟩ := Option.map_eq_some_iff.mp h
    obtain ⟨rfl, rfl⟩ := Prod.mk.inj hpair
    rw [doubleQuotes_cons, if_neg hc, ih hw']
    rfl

/-- A cell without a quote ends at the first. -/
theorem quotedCell_append (hw : 34 ∉ w) (hl : ∀ l', l ≠ 34 :: l') :
    quotedCell (w ++ 34 :: l) = some (w, l) := by
  induction w with
  | nil => exact quotedCell_end hl
  | cons c w ih =>
    rw [List.mem_cons, not_or] at hw
    rw [List.cons_append, quotedCell_cons (Ne.symm hw.1), ih hw.2]
    rfl

/-- A text that stands, behind some quotes, in front of itself with its quotes doubled is followed by
more quotes than that. -/
theorem quotes_prefix_of_doubled {k : Nat}
    (h : w ++ t = List.replicate (k + 1) 34 ++ (doubleQuotes w ++ 34 :: r)) :
    List.replicate (k + 2) 34 <+: t := by
  induction w generalizing k with
  | nil =>
    rw [List.nil_append] at h
    refine ⟨r, ?_⟩
    rw [h, List.replicate_succ' (n := k + 1), List.append_assoc]
    rfl
  | cons c w ih =>
    rw [List.replicate_succ, List.cons_append, List.cons_append] at h
    obtain ⟨rfl, hrest⟩ := List.cons.inj h
    rw [doubleQuotes_cons, if_pos rfl] at hrest
    have hmore := @ih (k + 1) (by
      rw [hrest, List.replicate_succ' (n := k + 1), List.replicate_succ' (n := k)]
      simp only [List.append_assoc, List.cons_append, List.nil_append])
    have hfewer : List.replicate (k + 2) (34 : UInt8) <+: List.replicate (k + 3) 34 :=
      ⟨[34], List.replicate_succ'.symm⟩
    exact hfewer.trans hmore

/-! ### One cell -/

theorem csvCell_of_ne (h : l.head? ≠ some 34) :
    csvCell l = some (l.takeWhile isCsvText, l.dropWhile isCsvText) := by
  unfold csvCell
  split
  · exact absurd rfl h
  · rfl

theorem csvCell_plain (hw : ∀ c ∈ w, isCsvText c = true) (hs : isCsvText s = false) (hquote : s ≠ 34)
    (l : List UInt8) : csvCell (w ++ s :: l) = some (w, s :: l) := by
  have hhead : (w ++ s :: l).head? ≠ some 34 := by
    cases w with
    | nil => exact fun h => hquote (Option.some.inj h)
    | cons c w =>
      intro h
      obtain rfl : c = 34 := Option.some.inj h
      exact Bool.false_ne_true (hw 34 List.mem_cons_self)
  rw [csvCell_of_ne hhead, List.takeWhile_append_of_pos hw, List.dropWhile_append_of_pos hw,
    List.takeWhile_cons_of_neg (by simp [hs]), List.dropWhile_cons_of_neg (by simp [hs]),
    List.append_nil]

theorem not_two_quotes_prefix_of (hs : s ≠ 34) : ¬List.replicate 2 34 <+: s :: l := by
  rw [List.replicate_succ, List.cons_prefix_cons]
  exact fun h => hs h.1.symm

/-- **A cell is read back** exactly if what it holds does not end it. -/
theorem csvCell_text (cell : CsvCell) (hs : s = 44 ∨ s = 10) (l r : List UInt8) :
    csvCell (cell.text ++ s :: l) = some (cell.content, r) ↔ cell.Safe ∧ r = s :: l := by
  have hquote : s ≠ 34 := by rcases hs with rfl | rfl <;> decide
  have htext : isCsvText s = false := by rcases hs with rfl | rfl <;> rfl
  cases cell with
  | plain w =>
    show csvCell (w ++ s :: l) = some (w, r) ↔ (∀ c ∈ w, isCsvText c = true) ∧ r = s :: l
    constructor
    · intro h
      by_cases hhead : (w ++ s :: l).head? = some 34
      · obtain ⟨t, ht⟩ := List.head?_eq_some_iff.mp hhead
        rw [ht] at h
        rw [eq_of_quotedCell h] at ht
        exact absurd (@quotes_prefix_of_doubled w r (s :: l) 0 ht) (not_two_quotes_prefix_of hquote)
      · rw [csvCell_of_ne hhead] at h
        obtain ⟨htake, hdrop⟩ := Prod.mk.inj (Option.some.inj h)
        refine ⟨fun c hc => ?_, ?_⟩
        · rw [← htake] at hc
          exact List.mem_takeWhile_imp hc
        · have hsplit := List.takeWhile_append_dropWhile (p := isCsvText) (l := w ++ s :: l)
          rw [htake, hdrop] at hsplit
          exact List.append_cancel_left hsplit
    · rintro ⟨hw, rfl⟩
      exact csvCell_plain hw htext hquote l
  | quoted w =>
    have hcell : csvCell ((CsvCell.quoted w).text ++ s :: l) = quotedCell (w ++ 34 :: s :: l) := by
      rw [CsvCell.text, List.cons_append, List.append_assoc]
      rfl
    rw [hcell]
    show quotedCell (w ++ 34 :: s :: l) = some (w, r) ↔ 34 ∉ w ∧ r = s :: l
    have hread : 34 ∉ w → quotedCell (w ++ 34 :: s :: l) = some (w, s :: l) := fun hw =>
      quotedCell_append hw fun l' h => hquote (List.cons.inj h).1
    constructor
    · intro h
      by_cases hw : 34 ∈ w
      · -- the first quote in the cell stands for itself, and what is behind it is read from there
        obtain ⟨a, b, rfl, ha⟩ := List.eq_append_cons_of_mem hw
        have hall := eq_of_quotedCell h
        rw [doubleQuotes_append, doubleQuotes_eq_self ha, doubleQuotes_cons, if_pos rfl,
          List.append_assoc, List.append_assoc] at hall
        obtain ⟨-, hrest⟩ := List.cons.inj (List.append_cancel_left hall)
        exact absurd (@quotes_prefix_of_doubled b r (34 :: s :: l) 0 hrest) fun hpre =>
          hquote (List.cons_prefix_cons.mp (List.cons_prefix_cons.mp hpre).2).1.symm
      · rw [hread hw] at h
        exact ⟨hw, (Prod.mk.inj (Option.some.inj h)).2.symm⟩
    · rintro ⟨hw, rfl⟩
      exact hread hw

/-! ### Rows -/

theorem csvRow_eq_some_iff {fuel : Nat} {cs : List (List UInt8)} :
    csvRow (fuel + 1) l = some (w :: cs, r) ↔
      ∃ l', csvCell l = some (w, l') ∧ csvAfterCell (csvRow fuel) l' = some (cs, r) := by
  constructor
  · intro h
    obtain ⟨⟨w', l'⟩, hcell, hrest⟩ := Option.bind_eq_some_iff.mp h
    obtain ⟨⟨cs', r'⟩, hcells, hrow⟩ := Option.bind_eq_some_iff.mp hrest
    obtain ⟨hcons, rfl⟩ := Prod.mk.inj (Option.some.inj hrow)
    obtain ⟨rfl, rfl⟩ := List.cons.inj hcons
    exact ⟨l', hcell, hcells⟩
  · rintro ⟨l', hcell, hcells⟩
    exact Option.bind_eq_some_iff.mpr ⟨_, hcell, Option.bind_eq_some_iff.mpr ⟨_, hcells, rfl⟩⟩

theorem csvRowText_cons (cell cell' : CsvCell) (cells : List CsvCell) (l : List UInt8) :
    csvRowText cell (cell' :: cells) ++ l = cell.text ++ 44 :: (csvRowText cell' cells ++ l) := by
  simp only [csvRowText, List.flatMap_cons, List.append_assoc, List.cons_append]

/-- A row is read back exactly if all its cells are. -/
theorem csvRow_text (cell : CsvCell) (cells : List CsvCell) {fuel : Nat} (hfuel : cells.length < fuel)
    (l r : List UInt8) :
    csvRow fuel (csvRowText cell cells ++ l) = some ((cell :: cells).map CsvCell.content, r) ↔
      (∀ c ∈ cell :: cells, c.Safe) ∧ r = l := by
  induction cells generalizing cell fuel with
  | nil =>
    obtain ⟨fuel, rfl⟩ := Nat.exists_eq_add_of_lt hfuel
    have htext : csvRowText cell [] ++ l = cell.text ++ 10 :: l := by
      rw [csvRowText, List.flatMap_nil, List.append_nil, List.append_assoc, List.singleton_append]
    rw [htext, List.map_cons, csvRow_eq_some_iff]
    constructor
    · rintro ⟨l', hcell, hrest⟩
      obtain ⟨hsafe, rfl⟩ := (csvCell_text cell (.inr rfl) l l').mp hcell
      exact ⟨List.forall_mem_singleton.mpr hsafe, (Prod.mk.inj (Option.some.inj hrest)).2.symm⟩
    · rintro ⟨hsafe, rfl⟩
      exact ⟨_, (csvCell_text cell (.inr rfl) r _).mpr ⟨hsafe cell List.mem_cons_self, rfl⟩, rfl⟩
  | cons cell' cells ih =>
    rw [List.length_cons] at hfuel
    obtain ⟨fuel, rfl⟩ : ∃ f, fuel = f + 1 := ⟨fuel - 1, by omega⟩
    have hrow := @ih cell' fuel (by omega)
    rw [csvRowText_cons, List.map_cons, csvRow_eq_some_iff, List.forall_mem_cons, and_assoc]
    constructor
    · rintro ⟨l', hcell, hrest⟩
      obtain ⟨hsafe, rfl⟩ := (csvCell_text cell (.inl rfl) _ l').mp hcell
      exact ⟨hsafe, hrow.mp hrest⟩
    · rintro ⟨hsafe, hcells⟩
      exact ⟨_, (csvCell_text cell (.inl rfl) _ _).mpr ⟨hsafe, rfl⟩, hrow.mpr hcells⟩

/-- A row has a character for each of its cells. -/
theorem length_csvRowText (cell : CsvCell) (cells : List CsvCell) :
    cells.length < (csvRowText cell cells).length := by
  have hcells : cells.length ≤ (cells.flatMap fun cell => 44 :: cell.text).length := by
    induction cells with
    | nil => exact Nat.le_refl 0
    | cons c cells ih =>
      rw [List.flatMap_cons, List.length_append, List.length_cons, List.length_cons]
      omega
  rw [csvRowText, List.length_append, List.length_append, List.length_singleton]
  omega

theorem csvRows_text (rows : List (CsvCell × List CsvCell)) {fuel : Nat} (hfuel : rows.length < fuel) :
    csvRows fuel (csvText rows) =
        some (rows.map fun row => (row.1 :: row.2).map CsvCell.content) ↔
      ∀ row ∈ rows, ∀ c ∈ row.1 :: row.2, c.Safe := by
  induction rows generalizing fuel with
  | nil =>
    obtain ⟨fuel, rfl⟩ := Nat.exists_eq_add_of_lt hfuel
    exact iff_of_true rfl nofun
  | cons row rows ih =>
    rw [List.length_cons] at hfuel
    obtain ⟨fuel, rfl⟩ : ∃ f, fuel = f + 1 := ⟨fuel - 1, by omega⟩
    have hlength := length_csvRowText row.1 row.2
    have htext : csvText (row :: rows) = csvRowText row.1 row.2 ++ csvText rows := rfl
    have hne : csvRowText row.1 row.2 ++ csvText rows ≠ [] :=
      List.append_ne_nil_of_left_ne_nil (List.length_pos_iff.mp (by omega)) _
    have hrow := @csvRow_text row.1 row.2 ((csvRowText row.1 row.2 ++ csvText rows).length + 1)
      (by rw [List.length_append]; omega) (csvText rows)
    rw [htext, csvRows, if_neg hne, List.map_cons, List.forall_mem_cons]
    constructor
    · intro h
      obtain ⟨⟨cells, r⟩, hfirst, hrest⟩ := Option.bind_eq_some_iff.mp h
      obtain ⟨others, hothers, hall⟩ := Option.bind_eq_some_iff.mp hrest
      obtain ⟨rfl, rfl⟩ := List.cons.inj (Option.some.inj hall)
      obtain ⟨hsafe, rfl⟩ := (hrow r).mp hfirst
      exact ⟨hsafe, (ih (by omega)).mp hothers⟩
    · rintro ⟨hsafe, hothers⟩
      exact Option.bind_eq_some_iff.mpr ⟨_, (hrow _).mpr ⟨hsafe, rfl⟩,
        Option.bind_eq_some_iff.mpr ⟨_, (ih (by omega)).mpr hothers, rfl⟩⟩

/-- **What is written is decoded** to the cells exactly if no cell holds what ends it. -/
theorem decode_csvText_iff (rows : List (CsvCell × List CsvCell)) :
    decodeCsv (csvText rows) = some (rows.map fun row => (row.1 :: row.2).map CsvCell.content) ↔
      ∀ row ∈ rows, ∀ c ∈ row.1 :: row.2, c.Safe := by
  have hlength : rows.length ≤ (csvText rows).length := by
    induction rows with
    | nil => exact Nat.zero_le _
    | cons row rows ih =>
      have hrow := length_csvRowText row.1 row.2
      have htext : csvText (row :: rows) = csvRowText row.1 row.2 ++ csvText rows := rfl
      rw [htext, List.length_append, List.length_cons]
      omega
  exact csvRows_text rows (by omega)

end CLib
