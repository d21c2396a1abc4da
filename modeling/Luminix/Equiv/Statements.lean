import Luminix.Equiv.Script

/-!
# Scripts and their statements

A script is a file of lines, of which some are empty or comments, and the others belong to
statements.  Lines are joined without the line break that separates their words, and any line that
begins with a hyphen is left out, so that the statements are executed exactly if each stands on one
line that does not begin so (`script_statements_iff`).  That nothing else is executed in their place
is seen by counting: first the characters, then the words.
-/

namespace Luminix

open CLib

/-! ### Scripts -/

/-- A line that begins with `#` or `--`. -/
def isComment (w : List UInt8) : Bool :=
  (strip isSpace w).head? == some 35 || (ascii "--").isPrefixOf (strip isSpace w)

/-- A line that is neither blank nor a comment. -/
def isStatementLine (w : List UInt8) : Bool := !(strip isSpace w).isEmpty && !isComment w

/-- The lines of a statement: the last one ends in a semicolon, and there is no other. -/
def IsStatement (lines : List (List UInt8)) : Prop :=
  ∃ block last text, lines = block ++ [last] ∧ (∀ w ∈ block, (59 : UInt8) ∉ w) ∧
    strip isSpace last = text ++ [59] ∧ (59 : UInt8) ∉ text

/-- **The file is a script** of these statements, each given by its lines. -/
structure IsScript (file : List UInt8) (statements : List (List (List UInt8))) : Prop where
  length_lt : ∀ w ∈ file.splitOn 10, w.length < maxQueryLen
  lines_eq : (file.splitOn 10).filter isStatementLine = statements.flatten
  isStatement : ∀ lines ∈ statements, IsStatement lines

/-- The statements are executed, as far as their words go. -/
def RunsStatements (file : List UInt8) (statements : List (List (List UInt8))) : Prop :=
  ∃ texts, executeScriptInteractive file = .ok texts ∧
    texts.map (fun text => words isSpace text.bytes) =
      statements.map fun lines => words isSpace ([10].intercalate lines)

/-- The line reaches `query` with all of its characters. -/
def IsWhole (w : List UInt8) : Prop := (0 : UInt8) ∉ w ∧ (strip isSpace w).head? ≠ some 45

/-! ### Counting -/

/-- How many characters the words of a text have. -/
def letterCount (l : List UInt8) : Nat := (words isSpace l).flatten.length

/-- How many words a text has. -/
def wordCount (l : List UInt8) : Nat := (words isSpace l).length

theorem letterCount_eq (l : List UInt8) : letterCount l = (l.filter (!isSpace ·)).length := by
  rw [letterCount, flatten_words]

theorem letterCount_append (a b : List UInt8) :
    letterCount (a ++ b) = letterCount a + letterCount b := by
  simp only [letterCount_eq, List.filter_append, List.length_append]

theorem letterCount_strip (l : List UInt8) : letterCount (strip isSpace l) = letterCount l := by
  rw [letterCount, words_strip, letterCount]

theorem wordCount_strip (l : List UInt8) : wordCount (strip isSpace l) = wordCount l := by
  rw [wordCount, words_strip, wordCount]

theorem letterCount_pos {l : List UInt8} (h : strip isSpace l ≠ []) : 0 < letterCount l := by
  rw [letterCount_eq, List.length_pos_iff]
  intro hfilter
  refine h (strip_eq_nil_iff.mpr fun c hc => ?_)
  have hnot := List.filter_eq_nil_iff.mp hfilter c hc
  simpa using hnot

/-- What is kept of a buffer is no more than stands in it, and less if there is a NUL. -/
theorem letterCount_trimString (w : List UInt8) :
    letterCount (trimString (CString.ofBytes w)).bytes ≤ letterCount w ∧
      (letterCount w ≤ letterCount (trimString (CString.ofBytes w)).bytes → (0 : UInt8) ∉ w) := by
  rw [bytes_trimString, letterCount_strip]
  by_cases hzero : (0 : UInt8) ∈ w
  · obtain ⟨a, b, rfl, ha⟩ := List.eq_append_cons_of_mem hzero
    have hnul : letterCount (0 :: b) = letterCount b + 1 := by
      rw [letterCount_eq, List.filter_cons_of_pos (by decide), List.length_cons, ← letterCount_eq]
    rw [CString.ofBytes_append_zero ha, letterCount_append, hnul]
    exact ⟨by omega, fun h => absurd h (by omega)⟩
  · rw [CString.bytes_ofBytes hzero]
    exact ⟨le_rfl, fun _ => hzero⟩

theorem words_intercalate (lines : List (List UInt8)) :
    words isSpace ([10].intercalate lines) = lines.flatMap (words isSpace) := by
  induction lines with
  | nil => rfl
  | cons w lines ih =>
    cases lines with
    | nil => simp
    | cons w' lines =>
      rw [List.intercalate_cons_cons, List.append_assoc, List.singleton_append,
        words_append_cons rfl, ih]
      rfl

/-! ### The lines that are kept -/

section

variable {w : List UInt8} {ws : List (List UInt8)}

theorem keptLines_singleton (w : List UInt8) : keptLines [w] =
    if isSkipped (trimString (CString.ofBytes w)) then [] else [trimString (CString.ofBytes w)] := by
  rw [keptLines, List.map_singleton]
  split_ifs with h <;> simp [h]

/-- What is left out is blank, a comment, or begins with a hyphen. -/
theorem isSkipped_iff {line : CString} : isSkipped line = true ↔
    line.bytes = [] ∨ line.bytes.head? = some 35 ∨ line.bytes.head? = some 45 := by
  rw [isSkipped, Bool.or_eq_true, Bool.or_eq_true, beq_iff_eq, beq_iff_eq, beq_iff_eq, CString.length,
    List.length_eq_zero_iff]
  tauto

/-- What begins a kept line begins the line of the script. -/
theorem head?_trimString {c : UInt8}
    (h : (trimString (CString.ofBytes w)).bytes.head? = some c) :
    (strip isSpace w).head? = some c := by
  have happend : (CString.ofBytes w).bytes ++ w.dropWhile (· ≠ 0) = w := List.takeWhile_append_dropWhile
  rw [← happend]
  exact head?_strip_append h _

theorem isStatementLine_iff : isStatementLine w = true ↔
    strip isSpace w ≠ [] ∧ (strip isSpace w).head? ≠ some 35 ∧ ¬ascii "--" <+: strip isSpace w := by
  have hpre : (ascii "--").isPrefixOf (strip isSpace w) = false ↔
      ¬ascii "--" <+: strip isSpace w := by
    rw [← Bool.not_eq_true, List.isPrefixOf_iff_prefix]
  rw [isStatementLine, isComment]
  simp [hpre]

/-- A blank line and a comment are not kept. -/
theorem keptLines_of_not_statementLine (h : ¬isStatementLine w = true) : keptLines [w] = [] := by
  rw [keptLines_singleton]
  split_ifs with hskip
  · rfl
  · refine absurd (isStatementLine_iff.mpr ?_) h
    rw [isSkipped_iff, not_or, not_or] at hskip
    obtain ⟨hne, hhash, hhyphen⟩ := hskip
    obtain ⟨c, l, hbytes⟩ := List.exists_cons_of_ne_nil hne
    have hhead : (strip isSpace w).head? = some c := head?_trimString (by rw [hbytes]; rfl)
    rw [hbytes, List.head?_cons] at hhash hhyphen
    refine ⟨fun hnil => ?_, by rwa [hhead], ?_⟩
    · rw [hnil] at hhead
      cases hhead
    · rintro ⟨r, hr⟩
      rw [← hr] at hhead
      exact hhyphen hhead.symm

/-- A whole line of a statement is kept, trimmed. -/
theorem keptLines_of_isWhole (hline : isStatementLine w = true) (hw : IsWhole w) :
    keptLines [w] = [trimString (CString.ofBytes w)] := by
  have hskip : ¬isSkipped (trimString (CString.ofBytes w)) = true := by
    obtain ⟨hne, hhash, -⟩ := isStatementLine_iff.mp hline
    rw [isSkipped_iff, bytes_trimString_ofBytes hw.1, not_or, not_or]
    exact ⟨hne, hhash, hw.2⟩
  rw [keptLines_singleton, if_neg hskip]

/-- A line that is kept with all of its letters is whole. -/
theorem isWhole_of_letterCount_le (hskip : ¬isSkipped (trimString (CString.ofBytes w)) = true)
    (hle : letterCount w ≤ letterCount (trimString (CString.ofBytes w)).bytes) : IsWhole w := by
  have hzero := (letterCount_trimString w).2 hle
  rw [isSkipped_iff, not_or, not_or, bytes_trimString_ofBytes hzero] at hskip
  exact ⟨hzero, hskip.2.2⟩

/-- **No more letters are kept than the statements have**; and if they are not fewer, all lines of
statements are whole. -/
theorem letterCount_keptLines (ws : List (List UInt8)) :
    ((keptLines ws).map fun t => letterCount t.bytes).sum ≤
        ((ws.filter isStatementLine).map letterCount).sum ∧
      (((ws.filter isStatementLine).map letterCount).sum ≤
          ((keptLines ws).map fun t => letterCount t.bytes).sum →
        ∀ w ∈ ws.filter isStatementLine, IsWhole w) := by
  induction ws with
  | nil => exact ⟨le_rfl, fun _ w hw => absurd hw List.not_mem_nil⟩
  | cons w ws ih =>
    obtain ⟨hle, hwhole⟩ := ih
    rw [keptLines_cons, List.map_append, List.sum_append]
    by_cases hline : isStatementLine w = true
    · rw [List.filter_cons_of_pos hline, List.map_cons, List.sum_cons, List.forall_mem_cons,
        keptLines_singleton]
      have hpos := letterCount_pos (isStatementLine_iff.mp hline).1
      have htrim := (letterCount_trimString w).1
      split_ifs with hskip
      · simp only [List.map_nil, List.sum_nil]
        exact ⟨by omega, fun h => absurd h (by omega)⟩
      · simp only [List.map_cons, List.map_nil, List.sum_cons, List.sum_nil]
        refine ⟨by omega, fun h => ⟨isWhole_of_letterCount_le hskip (by omega), hwhole (by omega)⟩⟩
    · rw [List.filter_cons_of_neg hline, keptLines_of_not_statementLine hline, List.map_nil,
        List.sum_nil, Nat.zero_add]
      exact ⟨hle, hwhole⟩

/-- Whole lines are kept. -/
theorem keptLines_of_forall (h : ∀ w ∈ ws.filter isStatementLine, IsWhole w) :
    keptLines ws = (ws.filter isStatementLine).map fun w => trimString (CString.ofBytes w) := by
  induction ws with
  | nil => rfl
  | cons w ws ih =>
    rw [keptLines_cons]
    by_cases hline : isStatementLine w = true
    · rw [List.filter_cons_of_pos hline] at h ⊢
      obtain ⟨hw, hrest⟩ := List.forall_mem_cons.mp h
      rw [keptLines_of_isWhole hline hw, ih hrest]
      rfl
    · rw [List.filter_cons_of_neg hline] at h ⊢
      rw [keptLines_of_not_statementLine hline, ih h]
      rfl

end

/-! ### The texts that are executed -/

/-- The texts that are executed. -/
def executedTexts (query : CString) (lines : List CString) : List CString :=
  ((appendLines query lines).filter (·.executed)).map (·.query)

section

variable {query line : CString} {lines : List CString}

theorem executedTexts_cons (query line : CString) (lines : List CString) :
    executedTexts query (line :: lines) =
      if (59 : UInt8) ∈ line.bytes then query.append line :: executedTexts default lines
      else executedTexts (query.append line) lines := by
  rw [executedTexts, appendLines]
  split_ifs <;> rfl

theorem default_append (line : CString) : (default : CString).append line = line := rfl

/-- No letter is executed that has not been appended. -/
theorem letterCount_executedTexts (query : CString) (lines : List CString) :
    ((executedTexts query lines).map fun t => letterCount t.bytes).sum ≤
      letterCount query.bytes + (lines.map fun t => letterCount t.bytes).sum := by
  induction lines generalizing query with
  | nil => exact Nat.zero_le _
  | cons line lines ih =>
    rw [executedTexts_cons, List.map_cons, List.sum_cons]
    split_ifs with hline
    · have hrest := ih default
      have hzero : letterCount (default : CString).bytes = 0 := rfl
      rw [List.map_cons, List.sum_cons, CString.bytes_append, letterCount_append]
      omega
    · have hrest := ih (query.append line)
      rw [CString.bytes_append, letterCount_append] at hrest
      omega

/-- A text that is not empty and has no white space at either end. -/
def IsTrimmed (t : CString) : Prop :=
  t.bytes ≠ [] ∧ (∀ c ∈ t.bytes.head?, isSpace c = false) ∧
    ∀ c ∈ t.bytes.getLast?, isSpace c = false

theorem IsTrimmed.append (hquery : IsTrimmed query) (hline : IsTrimmed line) :
    IsTrimmed (query.append line) := by
  obtain ⟨hne, hhead, -⟩ := hquery
  obtain ⟨hne', -, hlast⟩ := hline
  refine ⟨by simp [hne], fun c hc => ?_, fun c hc => ?_⟩
  · rw [CString.bytes_append, List.head?_append_of_ne_nil _ hne] at hc
    exact hhead c hc
  · rw [CString.bytes_append, List.getLast?_append_of_ne_nil _ hne'] at hc
    exact hlast c hc

theorem IsTrimmed.wordCount_append (hquery : IsTrimmed query) (hline : IsTrimmed line) :
    wordCount (query.append line).bytes + 1 = wordCount query.bytes + wordCount line.bytes :=
  length_words_append hquery.1 hquery.2.2 hline.2.1 hline.1

theorem IsTrimmed.wordCount_pos (h : IsTrimmed line) : 0 < wordCount line.bytes := by
  obtain ⟨hne, hhead, -⟩ := h
  obtain ⟨c, l, hbytes⟩ := List.exists_cons_of_ne_nil hne
  rw [hbytes] at hhead ⊢
  rw [wordCount, List.length_pos_iff]
  intro hnil
  have hflatten := flatten_words (p := isSpace) (c :: l)
  rw [hnil, List.filter_cons_of_pos (by rw [hhead c rfl]; rfl)] at hflatten
  cases hflatten

theorem isTrimmed_of_mem_keptLines {ws : List (List UInt8)} (h : line ∈ keptLines ws) :
    IsTrimmed line := by
  obtain ⟨hmem, hskip⟩ := List.mem_filter.mp h
  obtain ⟨w, -, rfl⟩ := List.mem_map.mp hmem
  refine ⟨fun hnil => ?_, notSep_head_strip, notSep_getLast_strip⟩
  rw [isSkipped_iff.mpr (.inl hnil)] at hskip
  cases hskip

/-- **Where a line is appended to another the words become fewer**: as many are executed as the lines
have only if each line has a semicolon. -/
theorem wordCount_executedTexts (htrimmed : ∀ t ∈ lines, IsTrimmed t) :
    (((executedTexts default lines).map fun t => wordCount t.bytes).sum ≤
        (lines.map fun t => wordCount t.bytes).sum ∧
      ((lines.map fun t => wordCount t.bytes).sum ≤
          ((executedTexts default lines).map fun t => wordCount t.bytes).sum →
        ∀ t ∈ lines, (59 : UInt8) ∈ t.bytes)) ∧
    ∀ query, IsTrimmed query →
      ((executedTexts query lines).map fun t => wordCount t.bytes).sum <
        wordCount query.bytes + (lines.map fun t => wordCount t.bytes).sum := by
  induction lines with
  | nil =>
    refine ⟨⟨Nat.zero_le _, fun _ t ht => absurd ht List.not_mem_nil⟩, fun query hquery => ?_⟩
    exact Nat.lt_of_lt_of_le hquery.wordCount_pos (Nat.le_add_right _ _)
  | cons line lines ih =>
    obtain ⟨hline, hlines⟩ := List.forall_mem_cons.mp htrimmed
    obtain ⟨⟨hle, hall⟩, hpending⟩ := ih hlines
    simp only [executedTexts_cons, List.map_cons, List.sum_cons, default_append,
      List.forall_mem_cons]
    split_ifs with h59
    · simp only [List.map_cons, List.sum_cons]
      refine ⟨⟨by omega, fun h => ⟨h59, hall (by omega)⟩⟩, fun query hquery => ?_⟩
      have happend := hquery.wordCount_append hline
      omega
    · have hfirst := hpending line hline
      refine ⟨⟨by omega, fun h => absurd h (by omega)⟩, fun query hquery => ?_⟩
      have happend := hquery.wordCount_append hline
      have hrest := hpending _ (hquery.append hline)
      omega

/-- Lines with a semicolon are executed one by one. -/
theorem appendLines_of_forall (h : ∀ t ∈ lines, (59 : UInt8) ∈ t.bytes) :
    appendLines default lines = lines.map fun t => ⟨t, true⟩ := by
  induction lines with
  | nil => rfl
  | cons line lines ih =>
    obtain ⟨hline, hlines⟩ := List.forall_mem_cons.mp h
    rw [appendLines, if_pos hline, ih hlines]
    rfl

theorem executedTexts_of_forall (h : ∀ t ∈ lines, (59 : UInt8) ∈ t.bytes) :
    executedTexts default lines = lines := by
  rw [executedTexts, appendLines_of_forall h, List.filter_map, List.map_map]
  simp [Function.comp_def]

end

/-! ### The statements -/

/-- The statement stands on one line, all of which reaches `query`. -/
def OneLine (lines : List (List UInt8)) : Prop := ∃ w, lines = [w] ∧ IsWhole w

theorem IsWhole.wordCount_eq {w : List UInt8} (h : IsWhole w) :
    wordCount (trimString (CString.ofBytes w)).bytes = wordCount w := by
  rw [bytes_trimString_ofBytes h.1, wordCount_strip]

theorem exists_lines {statements : List (List (List UInt8))}
    (h : ∀ lines ∈ statements, OneLine lines) :
    ∃ ws : List (List UInt8), statements = (ws.map fun w => [w]) ∧ ∀ w ∈ ws, IsWhole w := by
  induction statements with
  | nil => exact ⟨[], rfl, fun w hw => absurd hw List.not_mem_nil⟩
  | cons lines statements ih =>
    obtain ⟨⟨w, rfl, hw⟩, hrest⟩ := List.forall_mem_cons.mp h
    obtain ⟨ws, rfl, hws⟩ := ih hrest
    exact ⟨w :: ws, rfl, List.forall_mem_cons.mpr ⟨hw, hws⟩⟩

/-- Counted over the statements or over their lines, words and letters are as many. -/
theorem sum_statements {count : List (List UInt8) → Nat} (hnil : count [] = 0)
    (happend : ∀ a b, count (a ++ b) = count a + count b) (statements : List (List (List UInt8))) :
    (statements.map fun lines => count (words isSpace ([10].intercalate lines))).sum =
      (statements.flatten.map fun w => count (words isSpace w)).sum := by
  have hlines : ∀ lines : List (List UInt8), count (lines.flatMap (words isSpace)) =
      (lines.map fun w => count (words isSpace w)).sum := by
    intro lines
    induction lines with
    | nil => exact hnil
    | cons w lines ih => rw [List.flatMap_cons, happend, ih, List.map_cons, List.sum_cons]
  induction statements with
  | nil => rfl
  | cons lines statements ih =>
    rw [List.map_cons, List.sum_cons, ih, words_intercalate, hlines, List.flatten_cons,
      List.map_append, List.sum_append]

/-- The same count of what is executed. -/
theorem sum_texts {count : List (List UInt8) → Nat} (hnil : count [] = 0)
    (happend : ∀ a b, count (a ++ b) = count a + count b) {texts : List CString}
    {statements : List (List (List UInt8))}
    (h : texts.map (fun text => words isSpace text.bytes) =
      statements.map fun lines => words isSpace ([10].intercalate lines)) :
    (texts.map fun t => count (words isSpace t.bytes)).sum =
      (statements.flatten.map fun w => count (words isSpace w)).sum := by
  rw [← sum_statements hnil happend]
  have hcount := congrArg (fun x => (x.map count).sum) h
  simpa only [List.map_map, Function.comp_def] using hcount

theorem executeScript_eq {file : List UInt8} {lines : List CString}
    (h : keptLines (fileLines maxQueryLen file) = lines) : executeScriptInteractive file =
      if ∀ s ∈ appendLines default lines, s.query.length < scriptQuerySize then
        .ok (executedTexts default lines)
      else .error .overrun := by
  rw [executeScriptInteractive, scriptRun, scriptSteps_eq, h]
  rfl

section

variable {file : List UInt8} {statements : List (List (List UInt8))}

/-- If the statements are executed, each is one line. -/
theorem IsScript.oneLine (h : IsScript file statements) (hruns : RunsStatements file statements) :
    ∀ lines ∈ statements, OneLine lines := by
  obtain ⟨texts, htexts, hwords⟩ := hruns
  rw [executeScript_eq (keptLines_fileLines h.length_lt)] at htexts
  split_ifs at htexts
  obtain rfl := Except.ok.inj htexts
  -- no letter is missing
  have hletters : ((executedTexts default (keptLines (file.splitOn 10))).map
      fun t => letterCount t.bytes).sum = (statements.flatten.map letterCount).sum :=
    @sum_texts (fun ws => ws.flatten.length) rfl (fun a b => by simp) _ _ hwords
  have hexecuted := letterCount_executedTexts default (keptLines (file.splitOn 10))
  obtain ⟨-, hwhole⟩ := letterCount_keptLines (file.splitOn 10)
  have hempty : letterCount (default : CString).bytes = 0 := rfl
  rw [h.lines_eq] at hwhole
  have hwhole := hwhole (by omega)
  -- and no word
  have hkept := @keptLines_of_forall (file.splitOn 10) (by rwa [h.lines_eq])
  rw [h.lines_eq] at hkept
  have hwordCount : ((keptLines (file.splitOn 10)).map fun t => wordCount t.bytes).sum =
      (statements.flatten.map wordCount).sum := by
    rw [hkept, List.map_map]
    refine congrArg List.sum (List.map_congr_left fun w hw => ?_)
    exact (hwhole w hw).wordCount_eq
  have hcount : ((executedTexts default (keptLines (file.splitOn 10))).map
      fun t => wordCount t.bytes).sum = (statements.flatten.map wordCount).sum :=
    @sum_texts List.length rfl (fun a b => List.length_append) _ _ hwords
  obtain ⟨⟨-, hsemicolons⟩, -⟩ :=
    @wordCount_executedTexts (keptLines (file.splitOn 10)) fun t ht => isTrimmed_of_mem_keptLines ht
  have hsemicolons := hsemicolons (by omega)
  intro lines hlines
  obtain ⟨block, last, text, rfl, hblock, -, -⟩ := h.isStatement lines hlines
  have hmem : ∀ w ∈ block ++ [last], w ∈ statements.flatten :=
    fun w hw => List.mem_flatten.mpr ⟨_, hlines, hw⟩
  cases block with
  | nil => exact ⟨last, rfl, hwhole last (hmem last (by simp))⟩
  | cons w block =>
    have hw : w ∈ statements.flatten := hmem w (by simp)
    have h59 := hsemicolons (trimString (CString.ofBytes w)) (by
      rw [hkept]
      exact List.mem_map.mpr ⟨w, hw, rfl⟩)
    rw [bytes_trimString_ofBytes (hwhole w hw).1] at h59
    exact absurd (mem_of_mem_strip h59) (hblock w List.mem_cons_self)

/-- If each statement is one line, they are executed. -/
theorem IsScript.runsStatements (h : IsScript file statements)
    (honeLine : ∀ lines ∈ statements, OneLine lines) : RunsStatements file statements := by
  obtain ⟨ws, rfl, hwhole⟩ := exists_lines honeLine
  have hflatten : (ws.map fun w => [w]).flatten = ws := by
    rw [← List.flatMap_def, List.flatMap_singleton']
  have hlines := h.lines_eq
  rw [hflatten] at hlines
  have hkept := @keptLines_of_forall (file.splitOn 10) (by rwa [hlines])
  rw [hlines, ← keptLines_fileLines h.length_lt] at hkept
  -- each line ends a statement
  have hsemicolons : ∀ t ∈ ws.map fun w => trimString (CString.ofBytes w),
      (59 : UInt8) ∈ t.bytes := by
    intro t ht
    obtain ⟨w, hw, rfl⟩ := List.mem_map.mp ht
    obtain ⟨block, last, text, hsplit, -, hlast, -⟩ :=
      h.isStatement [w] (List.mem_map.mpr ⟨w, hw, rfl⟩)
    obtain rfl : w = last := by
      have hlength := congrArg List.length hsplit
      cases block with
      | nil => exact List.singleton_injective hsplit
      | cons _ _ => simp at hlength
    rw [bytes_trimString_ofBytes (hwhole w hw).1, hlast]
    simp
  refine ⟨_, (executeScript_eq hkept).trans (if_pos ?_), ?_⟩
  · rw [appendLines_of_forall hsemicolons]
    intro s hs
    simp only [List.map_map, List.mem_map, Function.comp_apply] at hs
    obtain ⟨w, hw, rfl⟩ := hs
    have hshort := h.length_lt w (List.mem_of_mem_filter (hlines ▸ hw))
    have hle := length_strip_le isSpace w
    show (trimString (CString.ofBytes w)).bytes.length < scriptQuerySize
    rw [bytes_trimString_ofBytes (hwhole w hw).1, scriptQuerySize]
    omega
  · rw [executedTexts_of_forall hsemicolons, List.map_map, List.map_map]
    refine List.map_congr_left fun w hw => ?_
    show words isSpace (trimString (CString.ofBytes w)).bytes = words isSpace ([10].intercalate [w])
    rw [bytes_trimString_ofBytes (hwhole w hw).1, words_strip, List.intercalate_singleton]

end

/-- **The statements of a script are executed** exactly if each stands on one line, which does not
begin with a hyphen and has no NUL in it. -/
theorem script_statements_iff (file : List UInt8) (statements : List (List (List UInt8)))
    (h : IsScript file statements) :
    RunsStatements file statements ↔ ∀ lines ∈ statements, OneLine lines :=
  ⟨h.oneLine, h.runsStatements⟩

/-- Two statements, with a comment and a blank line beside them. -/
theorem script_statements_two :
    RunsStatements (ascii "-- people\nSELECT * FROM t;\n\n  COMMIT;\n")
      [[ascii "SELECT * FROM t;"], [ascii "  COMMIT;"]] := by
  have hselect : IsStatement [ascii "SELECT * FROM t;"] :=
    ⟨[], _, ascii "SELECT * FROM t", rfl, fun _ h => absurd h List.not_mem_nil, by decide,
      by decide⟩
  have hcommit : IsStatement [ascii "  COMMIT;"] :=
    ⟨[], _, ascii "COMMIT", rfl, fun _ h => absurd h List.not_mem_nil, by decide, by decide⟩
  have hscript : IsScript (ascii "-- people\nSELECT * FROM t;\n\n  COMMIT;\n")
      [[ascii "SELECT * FROM t;"], [ascii "  COMMIT;"]] :=
    ⟨by decide, by decide, List.forall_mem_cons.mpr ⟨hselect, List.forall_mem_singleton.mpr hcommit⟩⟩
  refine (script_statements_iff _ _ hscript).mpr ?_
  rw [List.forall_mem_cons, List.forall_mem_singleton]
  exact ⟨⟨_, rfl, by decide, by decide⟩, _, rfl, by decide, by decide⟩

/-- The last word of a line and the first one of the next are joined. -/
theorem script_joins_lines : ¬∀ (file : List UInt8) (statements : List (List (List UInt8))),
    IsScript file statements → RunsStatements file statements := by
  intro h
  have hstatement : IsStatement [ascii "SELECT *", ascii "FROM t;"] :=
    ⟨[ascii "SELECT *"], _, ascii "FROM t", rfl, by decide, by decide,
      by decide⟩
  have hscript : IsScript (ascii "SELECT *\nFROM t;\n") [[ascii "SELECT *", ascii "FROM t;"]] :=
    ⟨by decide, by decide, List.forall_mem_singleton.mpr hstatement⟩
  obtain ⟨texts, htexts, hwords⟩ := h _ _ hscript
  have hjoined : executeScriptInteractive (ascii "SELECT *\nFROM t;\n") =
      .ok [cstr "SELECT *FROM t;"] := by
    decide
  obtain rfl := Except.ok.inj (htexts.symm.trans hjoined)
  exact absurd hwords (by decide)

end Luminix
