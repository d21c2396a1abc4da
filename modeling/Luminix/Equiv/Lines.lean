import Luminix.Lines

/-!
# Split, join, and queries of several lines

`string_split` takes apart what `join_strings` has put together exactly if the pieces are not empty,
have no separator in them and no white space at their ends (`split_join_iff`).
`read_multiline_input` gives the words of the lines in front of the one that is a `;`, and leaves
what stands behind that one to the next reader (`read_multiline_words`).
-/

namespace Luminix

open CLib

/-! ### Joining -/

@[simp] theorem bytes_joinLoop (delimiter result : CString) (strings : List CString) :
    (joinLoop delimiter result strings).bytes =
      result.bytes ++ delimiter.bytes.intercalate (strings.map CString.bytes) := by
  induction strings generalizing result with
  | nil => simp [joinLoop, List.intercalate]
  | cons s strings ih =>
    cases strings with
    | nil => simp [joinLoop, List.intercalate_singleton]
    | cons s' strings =>
      have hstep : joinLoop delimiter result (s :: s' :: strings) =
          joinLoop delimiter ((result.append s).append delimiter) (s' :: strings) := rfl
      rw [hstep, ih]
      simp [List.intercalate_cons_cons]

theorem bytes_joinStrings (strings : List CString) (delimiter : CString) :
    (joinStrings (some strings) delimiter).bytes =
      delimiter.bytes.intercalate (strings.map CString.bytes) := bytes_joinLoop _ _ _

/-! ### Splitting what was joined -/

/-- The pieces that `string_split` gives back. -/
def Splits (delimiter s : CString) : Prop :=
  s.bytes ≠ [] ∧ (∀ c ∈ s.bytes, c ∉ delimiter.bytes) ∧ trimWhitespace s = s

theorem trimWhitespace_ofBytes {l : List UInt8} (h : (0 : UInt8) ∉ l) :
    (trimWhitespace (CString.ofBytes l)).bytes = strip isSpace l := by
  show strip isSpace (CString.ofBytes l).bytes = _
  rw [CString.bytes_ofBytes h]

/-- Stripping twice is stripping once. -/
theorem trimWhitespace_idem (s : CString) :
    trimWhitespace (trimWhitespace s) = trimWhitespace s :=
  CString.ext (strip_eq_self_of_ends notSep_head_strip notSep_getLast_strip)

/-- The characters of a word are those of the text. -/
theorem nulFree_of_mem_words {p : UInt8 → Bool} {s : CString} {w : List UInt8}
    (h : w ∈ words p s.bytes) : (0 : UInt8) ∉ w := by
  intro h0
  have hmem : (0 : UInt8) ∈ (words p s.bytes).flatten := List.mem_flatten.mpr ⟨w, h, h0⟩
  rw [flatten_words] at hmem
  exact s.nulFree (List.mem_of_mem_filter hmem)

/-- Every string of the result has no separator in it and no white space at its ends. -/
theorem of_mem_stringSplit {str delimiter : CString} {strings : List CString}
    (h : stringSplit (some str) (some delimiter) = some strings) :
    ∀ s ∈ strings, (∀ c ∈ s.bytes, c ∉ delimiter.bytes) ∧ trimWhitespace s = s := by
  unfold stringSplit at h
  dsimp only at h
  split_ifs at h with hnil
  obtain rfl := Option.some.inj h
  intro s hs
  obtain ⟨w, hw, rfl⟩ := List.mem_map.mp hs
  refine ⟨fun c hc => ?_, trimWhitespace_idem _⟩
  rw [trimWhitespace_ofBytes (nulFree_of_mem_words hw)] at hc
  exact of_decide_eq_false ((of_mem_words hw).2 c (mem_of_mem_strip hc))

theorem intercalate_empty {α : Type*} (pieces : List (List α)) :
    [].intercalate pieces = pieces.flatten := by
  induction pieces with
  | nil => rfl
  | cons w pieces ih =>
    cases pieces with
    | nil => simp [List.intercalate_singleton]
    | cons w' pieces =>
      rw [List.intercalate_cons_cons, ih, List.append_nil]
      rfl

/-- The tokens of joined pieces without separators: those that are not empty, or all of them as one
piece if nothing separates. -/
theorem words_joinStrings {strings : List CString} {delimiter : CString}
    (h : ∀ s ∈ strings, ∀ c ∈ s.bytes, c ∉ delimiter.bytes) :
    words (fun c => decide (c ∈ delimiter.bytes)) (joinStrings (some strings) delimiter).bytes =
      if delimiter.bytes = [] then
        if (strings.map CString.bytes).flatten = [] then []
        else [(strings.map CString.bytes).flatten]
      else (strings.map CString.bytes).filter (!·.isEmpty) := by
  rw [bytes_joinStrings]
  by_cases hdelimiter : delimiter.bytes = []
  · rw [if_pos hdelimiter, hdelimiter, intercalate_empty]
    exact words_of_forall_not fun c _ => decide_eq_false List.not_mem_nil
  · rw [if_neg hdelimiter]
    refine words_joined (fun c hc => decide_eq_true hc) hdelimiter fun w hw c hc => ?_
    obtain ⟨s, hs, rfl⟩ := List.mem_map.mp hw
    exact decide_eq_false (h s hs c hc)

/-- **Splitting takes apart what joining has put together** exactly if there is something to join,
the pieces are not empty, have no separator in them and no white space at their ends, and the
delimiter is not empty unless there is only one piece. -/
theorem split_join_iff (strings : List CString) (delimiter : CString) :
    stringSplit (some (joinStrings (some strings) delimiter)) (some delimiter) = some strings ↔
      strings ≠ [] ∧ (∀ s ∈ strings, Splits delimiter s) ∧
        (delimiter.bytes = [] → strings.length = 1) := by
  constructor
  · intro h
    have hclean := of_mem_stringSplit h
    have hwords := words_joinStrings fun s hs => (hclean s hs).1
    unfold stringSplit at h
    dsimp only at h
    rw [hwords] at h
    split_ifs at h with hdelimiter hjoined hnil hnil hnil
    · exact absurd rfl hnil
    · have hone : strings.length = 1 := by
        rw [← Option.some.inj h]
        rfl
      obtain ⟨s, rfl⟩ := List.length_eq_one_iff.mp hone
      refine ⟨List.cons_ne_nil _ _, List.forall_mem_singleton.mpr ⟨?_, hclean s (by simp)⟩,
        fun _ => hone⟩
      simpa using hjoined
    · -- no piece is dropped, so none is empty
      have hlength := congrArg List.length (Option.some.inj h)
      have hbytes : (strings.map CString.bytes).length = strings.length := List.length_map _
      rw [List.length_map, ← hbytes] at hlength
      have hall := List.length_filter_eq_length_iff.mp hlength
      refine ⟨?_, fun s hs => ⟨?_, hclean s hs⟩, fun hd => absurd hd hdelimiter⟩
      · rintro rfl
        exact hnil rfl
      · simpa using hall s.bytes (List.mem_map_of_mem hs)
  · rintro ⟨hne, hpieces, hone⟩
    have hwords := words_joinStrings fun s hs => (hpieces s hs).2.1
    -- no piece is empty, so the filter of empty pieces keeps all
    have htokens : words (fun c => decide (c ∈ delimiter.bytes))
        (joinStrings (some strings) delimiter).bytes = strings.map CString.bytes := by
      rw [hwords]
      split_ifs with hdelimiter hjoined
      · obtain ⟨s, rfl⟩ := List.length_eq_one_iff.mp (hone hdelimiter)
        exact absurd (by simpa using hjoined) (hpieces s (by simp)).1
      · obtain ⟨s, rfl⟩ := List.length_eq_one_iff.mp (hone hdelimiter)
        simp
      · refine List.filter_eq_self.mpr fun w hw => ?_
        obtain ⟨s, hs, rfl⟩ := List.mem_map.mp hw
        simpa using (hpieces s hs).1
    unfold stringSplit
    dsimp only
    rw [htokens, if_neg (by simpa using hne), List.map_map]
    congr 1
    refine (List.map_congr_left fun s hs => ?_).trans (List.map_id strings)
    show trimWhitespace (CString.ofBytes s.bytes) = s
    rw [CString.ofBytes_bytes, (hpieces s hs).2.2]

/-! ### Reading lines -/

/-- The line ends at the first newline. -/
theorem takeLine_newline {w : List UInt8} (hw : (10 : UInt8) ∉ w) (l : List UInt8) :
    takeLine (w ++ 10 :: l) = (w ++ [10], l) := by
  induction w with
  | nil => rfl
  | cons c w ih =>
    have hc : c ≠ 10 := Ne.symm (List.ne_of_not_mem_cons hw)
    rw [List.cons_append, takeLine, if_neg hc, ih (List.not_mem_of_not_mem_cons hw)]
    rfl

/-- Without a newline the line is all there is. -/
theorem takeLine_last {w : List UInt8} (hw : (10 : UInt8) ∉ w) : takeLine w = (w, []) := by
  induction w with
  | nil => rfl
  | cons c w ih =>
    have hc : c ≠ 10 := Ne.symm (List.ne_of_not_mem_cons hw)
    rw [takeLine, if_neg hc, ih (List.not_mem_of_not_mem_cons hw)]

theorem takeWhile_newline {w : List UInt8} (hw : (10 : UInt8) ∉ w) (l : List UInt8) :
    (w ++ 10 :: l).takeWhile (· ≠ 10) = w := by
  have hall : ∀ c ∈ w, decide (c ≠ 10) = true :=
    fun c hc => decide_eq_true fun heq : c = 10 => hw (heq ▸ hc)
  rw [List.takeWhile_append_of_pos hall]
  simp

/-- A line that ends in a newline, and one that the stream ends in. -/
theorem readLine_newline {w : CString} (hw : (10 : UInt8) ∉ w.bytes) (l : List UInt8) :
    readLine (w.bytes ++ 10 :: l) = some (w, l) := by
  rw [readLine, getline, if_neg (by simp), takeLine_newline hw]
  show some (CString.ofBytes ((w.bytes ++ 10 :: []).takeWhile (· ≠ 10)), l) = _
  rw [takeWhile_newline hw, CString.ofBytes_bytes]

theorem readLine_last {w : CString} (hw : (10 : UInt8) ∉ w.bytes) (hne : w.bytes ≠ []) :
    readLine w.bytes = some (w, []) := by
  have hself : w.bytes.takeWhile (· ≠ 10) = w.bytes :=
    List.takeWhile_eq_self_iff.mpr fun c hc => decide_eq_true fun heq => hw (heq ▸ hc)
  rw [readLine, getline, if_neg hne, takeLine_last hw]
  show some (CString.ofBytes (w.bytes.takeWhile (· ≠ 10)), []) = _
  rw [hself, CString.ofBytes_bytes]

/-! ### Queries of several lines -/

/-- The white space that is cut off a line has no words in it. -/
theorem words_trimBuffer (line : CString) :
    words isSpace (trimBuffer line).bytes = words isSpace line.bytes := by
  unfold trimBuffer
  split_ifs with hblank
  · rfl
  · have hnul : (0 : UInt8) ∉ line.bytes.rdropWhile isSpace := fun h0 =>
      line.nulFree ((List.rdropWhile_prefix isSpace _).mem h0)
    rw [CString.bytes_ofBytes hnul]
    conv_rhs => rw [← @List.rdropWhile_append_rtakeWhile _ isSpace line.bytes]
    exact (words_concat_of_forall (fun c hc => List.mem_rtakeWhile_imp hc) _).symm

/-- The words of what has been read so far. -/
def inputWords (input : Option CString) : List (List UInt8) :=
  (input.map fun s => words isSpace s.bytes).getD []

/-- **A line appends its words.** -/
theorem inputWords_appendLine (input : Option CString) (line : CString) :
    inputWords (some (appendLine input line)) = inputWords input ++ words isSpace line.bytes := by
  cases input with
  | none => rfl
  | some s =>
    show words isSpace (appendLine (some s) line).bytes = words isSpace s.bytes ++ _
    unfold appendLine
    dsimp only
    split_ifs with hs
    · rw [CString.bytes_append, CString.bytes_append, List.append_assoc]
      exact words_append_cons rfl s.bytes line.bytes
    · have hnil : s.bytes = [] := List.length_eq_zero_iff.mp (Nat.eq_zero_of_not_pos hs)
      rw [hnil, words_nil, List.nil_append]

/-- The line that ends a query: a semicolon, and white space around it. -/
def endsQuery (line : List UInt8) : Bool := strip isSpace line == [59]

theorem trimWhitespace_eq_iff (line : CString) :
    trimWhitespace line = cstr ";" ↔ endsQuery line.bytes = true := by
  rw [endsQuery, beq_iff_eq]
  exact ⟨fun h => congrArg CString.bytes h, fun h => CString.ext h⟩

/-- The lines in front of the one that ends the query. -/
def queryLines (stream : List UInt8) : List (List UInt8) :=
  (stream.splitOn 10).takeWhile fun line => !endsQuery line

/-- What stands behind the line that ends the query. -/
def behindQuery (stream : List UInt8) : List UInt8 :=
  [10].intercalate ((stream.splitOn 10).dropWhile fun line => !endsQuery line).tail

theorem splitOn_newline {w : List UInt8} (hw : (10 : UInt8) ∉ w) (l : List UInt8) :
    (w ++ 10 :: l).splitOn 10 = w :: l.splitOn 10 := by
  have hnot : ∀ c ∈ w, (c == 10) = false :=
    fun c hc => beq_false_of_ne fun heq : c = 10 => hw (heq ▸ hc)
  show (w ++ 10 :: l).splitOnP (· == 10) = _
  rw [List.splitOnP_append_cons w l rfl, List.splitOnP_eq_singleton hnot]
  rfl

theorem splitOn_last {w : List UInt8} (hw : (10 : UInt8) ∉ w) : w.splitOn 10 = [w] := by
  refine List.splitOnP_eq_singleton fun c hc => beq_false_of_ne ?_
  rintro rfl
  exact hw hc

/-- The line that is read is the first one. -/
theorem exists_readLine {stream : List UInt8} (h : (0 : UInt8) ∉ stream) (hne : stream ≠ []) :
    ∃ line rest, readLine stream = some (line, rest) ∧
      (stream.splitOn 10).head? = some line.bytes := by
  by_cases hnewline : (10 : UInt8) ∈ stream
  · obtain ⟨w, l, rfl, hw⟩ := List.eq_append_cons_of_mem hnewline
    have hnul : (0 : UInt8) ∉ w := fun h0 => h (List.mem_append_left _ h0)
    refine ⟨⟨w, hnul⟩, l, readLine_newline (w := ⟨w, hnul⟩) hw l, ?_⟩
    rw [splitOn_newline hw]
    rfl
  · refine ⟨⟨stream, h⟩, [], readLine_last (w := ⟨stream, h⟩) hnewline hne, ?_⟩
    rw [splitOn_last hnewline]
    rfl

/-- One turn of the loop. -/
theorem multilineLoop_succ {stream rest : List UInt8} {line : CString}
    (h : readLine stream = some (line, rest)) (fuel : Nat) (input : Option CString) :
    multilineLoop (fuel + 1) input stream =
      if endsQuery line.bytes then (input, rest)
      else multilineLoop fuel (some (appendLine input (trimBuffer line))) rest := by
  rw [multilineLoop, h]
  dsimp only
  exact if_congr (trimWhitespace_eq_iff line) rfl rfl

/-- **The loop** from any input on. -/
theorem multilineLoop_spec {stream : List UInt8} (h : (0 : UInt8) ∉ stream) {fuel : Nat}
    (hfuel : stream.length < fuel) (input : Option CString) :
    inputWords (multilineLoop fuel input stream).1 =
        inputWords input ++ (queryLines stream).flatMap (words isSpace) ∧
      (multilineLoop fuel input stream).2 = behindQuery stream := by
  induction fuel generalizing stream input with
  | zero => omega
  | succ fuel ih =>
    by_cases hnewline : (10 : UInt8) ∈ stream
    · obtain ⟨w, l, rfl, hw⟩ := List.eq_append_cons_of_mem hnewline
      have hnul : (0 : UInt8) ∉ w := fun h0 => h (List.mem_append_left _ h0)
      have hrest : (0 : UInt8) ∉ l := fun h0 => h (by simp [h0])
      have hread := readLine_newline (w := ⟨w, hnul⟩) hw l
      rw [multilineLoop_succ hread, queryLines, behindQuery, splitOn_newline hw]
      dsimp only
      by_cases hend : endsQuery w = true
      · rw [if_pos hend, List.takeWhile_cons_of_neg (by simp [hend]),
          List.dropWhile_cons_of_neg (by simp [hend])]
        exact ⟨(List.append_nil _).symm, (List.intercalate_splitOn 10).symm⟩
      · have hlength : l.length < fuel := by
          rw [List.length_append, List.length_cons] at hfuel
          omega
        rw [if_neg hend, List.takeWhile_cons_of_pos (by simp [hend]),
          List.dropWhile_cons_of_pos (by simp [hend]), List.flatMap_cons]
        obtain ⟨hwords, hbehind⟩ := ih hrest hlength (some (appendLine input (trimBuffer ⟨w, hnul⟩)))
        rw [hwords, hbehind, inputWords_appendLine, words_trimBuffer, List.append_assoc]
        exact ⟨rfl, rfl⟩
    · by_cases hne : stream = []
      · subst hne
        exact ⟨(List.append_nil _).symm, rfl⟩
      · have hread := readLine_last (w := ⟨stream, h⟩) hnewline hne
        rw [multilineLoop_succ hread, queryLines, behindQuery, splitOn_last hnewline]
        dsimp only
        by_cases hend : endsQuery stream = true
        · rw [if_pos hend, List.takeWhile_cons_of_neg (by simp [hend]),
            List.dropWhile_cons_of_neg (by simp [hend])]
          exact ⟨(List.append_nil _).symm, rfl⟩
        · have hpos := List.length_pos_of_ne_nil hne
          rw [if_neg hend, List.takeWhile_cons_of_pos (by simp [hend]),
            List.dropWhile_cons_of_pos (by simp [hend]), List.flatMap_cons]
          -- the stream is at its end, and the next turn finds no line
          have hlast : ([] : List UInt8).length < fuel := by
            rw [List.length_nil]
            omega
          obtain ⟨hwords, hbehind⟩ :=
            ih List.not_mem_nil hlast (some (appendLine input (trimBuffer ⟨stream, h⟩)))
          rw [hwords, hbehind, inputWords_appendLine, words_trimBuffer, List.append_assoc]
          exact ⟨rfl, rfl⟩

/-- A query that has begun is not lost. -/
theorem multilineLoop_ne_none (fuel : Nat) (input : CString) (stream : List UInt8) :
    (multilineLoop fuel (some input) stream).1 ≠ none := by
  induction fuel generalizing input stream with
  | zero => simp [multilineLoop]
  | succ fuel ih =>
    rw [multilineLoop]
    split
    · simp
    · split_ifs
      · simp
      · exact ih _ _

/-- **A query of several lines** has the words of the lines in front of the one that is a semicolon,
and leaves the lines behind that one in the stream.  There is no query exactly if the stream is at
its end, or the first line is that one. -/
theorem read_multiline_words {stream : List UInt8} (h : (0 : UInt8) ∉ stream) :
    inputWords (readMultilineInput stream).1 = (queryLines stream).flatMap (words isSpace) ∧
      (readMultilineInput stream).2 = behindQuery stream ∧
      ((readMultilineInput stream).1 = none ↔ stream = [] ∨ queryLines stream = []) := by
  obtain ⟨hwords, hbehind⟩ := multilineLoop_spec h (Nat.lt_succ_self stream.length) none
  refine ⟨hwords, hbehind, ?_⟩
  by_cases hne : stream = []
  · subst hne
    exact ⟨fun _ => .inl rfl, fun _ => rfl⟩
  · obtain ⟨line, rest, hread, hhead⟩ := exists_readLine h hne
    obtain ⟨lines, hlines⟩ := List.head?_eq_some_iff.mp hhead
    rw [readMultilineInput, multilineLoop_succ hread, queryLines, hlines, or_iff_right hne]
    by_cases hend : endsQuery line.bytes = true
    · rw [if_pos hend, List.takeWhile_cons_of_neg (by simp [hend])]
      exact ⟨fun _ => rfl, fun _ => rfl⟩
    · rw [if_neg hend, List.takeWhile_cons_of_pos (by simp [hend])]
      exact ⟨fun hnone => absurd hnone (multilineLoop_ne_none _ _ _), fun hnil => by cases hnil⟩

/-- Two lines, the second of them indented, and the command behind the query. -/
theorem read_multiline_words_two :
    let stream := ascii "SELECT *\n  FROM t\n;\nexit\n"
    inputWords (readMultilineInput stream).1 = [ascii "SELECT", ascii "*", ascii "FROM", ascii "t"] ∧
      (readMultilineInput stream).2 = ascii "exit\n" := by
  intro stream
  have hnul : (0 : UInt8) ∉ stream := by decide
  obtain ⟨hwords, hbehind, -⟩ := read_multiline_words hnul
  exact ⟨hwords.trans (by decide), hbehind.trans (by decide)⟩

end Luminix
