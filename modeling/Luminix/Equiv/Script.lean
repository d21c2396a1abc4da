import Luminix.Script

/-!
# Lines of a script

The lines that are appended to `query` are the trimmed ones that are not skipped (`keptLines`), and
the text grows from one semicolon to the next (`script_inBuffer_iff`).  As long as no line is too
long for the buffer of `fgets`, these are the lines of the file (`keptLines_fileLines`).
-/

namespace Luminix

open CLib

/-! ### Kept lines -/

/-- The lines that are appended. -/
def keptLines (buffers : List (List UInt8)) : List CString :=
  (buffers.map fun buffer => trimString (CString.ofBytes buffer)).filter (!isSkipped ·)

/-- The loop over lines none of which is skipped. -/
def appendLines : (query : CString) → List CString → List ScriptStep
  | _, [] => []
  | query, line :: lines =>
    if 59 ∈ line.bytes then ⟨query.append line, true⟩ :: appendLines default lines
    else ⟨query.append line, false⟩ :: appendLines (query.append line) lines

theorem scriptSteps_eq (query : CString) (buffers : List (List UInt8)) :
    scriptSteps query buffers = appendLines query (keptLines buffers) := by
  induction buffers generalizing query with
  | nil => rfl
  | cons buffer buffers ih =>
    rw [scriptSteps, keptLines, List.map_cons]
    by_cases hskip : isSkipped (trimString (CString.ofBytes buffer)) = true
    · rw [if_pos hskip, List.filter_cons_of_neg (by simp [hskip])]
      exact ih query
    · rw [if_neg hskip, List.filter_cons_of_pos (by simp [hskip]), appendLines]
      simp only [ih, keptLines]

/-! ### Lines of the file -/

theorem keptLines_cons (buffer : List UInt8) (buffers : List (List UInt8)) :
    keptLines (buffer :: buffers) = keptLines [buffer] ++ keptLines buffers := by
  rw [keptLines, keptLines, keptLines, ← List.filter_append, ← List.map_append]
  rfl

theorem keptLines_blank {w : List UInt8} (h : ∀ c ∈ w, isSpace c = true) : keptLines [w] = [] := by
  have hstrip : trimString (CString.ofBytes w) = default := by
    have hpre : (CString.ofBytes w).bytes <+: w := List.takeWhile_prefix _
    exact CString.ext (strip_eq_nil_iff.mpr fun c hc => h c (hpre.mem hc))
  rw [keptLines, List.map_singleton, hstrip]
  rfl

@[simp] theorem bytes_trimString (s : CString) : (trimString s).bytes = strip isSpace s.bytes := rfl

theorem bytes_trimString_ofBytes {w : List UInt8} (h : (0 : UInt8) ∉ w) :
    (trimString (CString.ofBytes w)).bytes = strip isSpace w := by
  rw [bytes_trimString, CString.bytes_ofBytes h]

/-- The line break does not matter. -/
theorem trimString_lineBreak (w : List UInt8) :
    trimString (CString.ofBytes (w ++ [10])) = trimString (CString.ofBytes w) := by
  by_cases hzero : (0 : UInt8) ∈ w
  · obtain ⟨a, b, rfl, ha⟩ := List.eq_append_cons_of_mem hzero
    refine congrArg trimString (CString.ext ?_)
    rw [List.append_assoc, List.cons_append, CString.ofBytes_append_zero ha,
      CString.ofBytes_append_zero ha]
  · have hline : (0 : UInt8) ∉ w ++ [10] := by simpa using hzero
    refine CString.ext ?_
    rw [bytes_trimString_ofBytes hline, bytes_trimString_ofBytes hzero, strip_concat rfl]

theorem keptLines_lineBreak (w : List UInt8) : keptLines [w ++ [10]] = keptLines [w] := by
  rw [keptLines, List.map_singleton, trimString_lineBreak]
  rfl

/-- **What is kept of the texts that `fgets` reads is kept of the lines**, if they are not too
long. -/
theorem keptLines_fileLines {file : List UInt8}
    (hlength : ∀ w ∈ file.splitOn 10, w.length < maxQueryLen) :
    keptLines (fileLines maxQueryLen file) = keptLines (file.splitOn 10) := by
  induction hn : file.length using Nat.strong_induction_on generalizing file with
  | _ n ih =>
    by_cases hbreak : (10 : UInt8) ∈ file
    · obtain ⟨w, rest, rfl, hw⟩ := List.eq_append_cons_of_mem hbreak
      rw [List.splitOn_append_cons_self_of_not_mem hw] at hlength ⊢
      obtain ⟨hwlength, hrest⟩ := List.forall_mem_cons.mp hlength
      have hlt : rest.length < n := by
        rw [← hn, List.length_append, List.length_cons]
        omega
      have hkept := ih _ hlt hrest rfl
      rcases Nat.lt_or_ge (w.length + 1) maxQueryLen with hline | hline
      · rw [fileLines_line hw hline, keptLines_cons, keptLines_lineBreak, hkept, ← keptLines_cons]
      · have hne : w ≠ [] := by
          rintro rfl
          exact absurd hline (by decide)
        have hblank : keptLines [[10]] = [] := keptLines_blank (List.forall_mem_singleton.mpr rfl)
        rw [fileLines_full hw hne (Nat.le_antisymm hwlength hline), keptLines_cons, keptLines_cons [10],
          hblank, List.nil_append, hkept, ← keptLines_cons]
    · rw [List.splitOn_eq_singleton hbreak] at hlength ⊢
      have hwlength := hlength file (List.mem_singleton_self file)
      by_cases hne : file = []
      · subst hne
        exact (keptLines_blank fun c hc => absurd hc List.not_mem_nil).symm
      · rw [fileLines_last hbreak hne hwlength]

/-! ### The length of the text -/

/-- The lines up to the first one with a semicolon fit behind a text of length `m`. -/
def HeadFits (m n : Nat) (lines : List CString) : Prop :=
  ∀ block last post, lines = block ++ last :: post →
    (∀ line ∈ block, (59 : UInt8) ∉ line.bytes) →
    m + ((block ++ [last]).map CString.length).sum ≤ n

/-- No block of lines in which only the last one may have a semicolon is longer than `n`. -/
def BlocksFit (n : Nat) (lines : List CString) : Prop :=
  ∀ pre block last post, lines = pre ++ (block ++ last :: post) →
    (∀ line ∈ block, (59 : UInt8) ∉ line.bytes) →
    ((block ++ [last]).map CString.length).sum ≤ n

section

variable {m n : Nat} {line : CString} {lines : List CString}

theorem headFits_nil (m n : Nat) : HeadFits m n [] := by
  intro block last post h
  cases block <;> cases h

theorem headFits_cons : HeadFits m n (line :: lines) ↔
    m + line.length ≤ n ∧ ((59 : UInt8) ∉ line.bytes → HeadFits (m + line.length) n lines) := by
  constructor
  · intro h
    refine ⟨?_, fun hline block last post hlines hblock => ?_⟩
    · simpa using h [] line lines rfl fun _ h => absurd h List.not_mem_nil
    · have hsum := h (line :: block) last post (congrArg _ hlines) (List.forall_mem_cons.mpr ⟨hline, hblock⟩)
      simp only [List.cons_append, List.map_cons, List.sum_cons] at hsum
      omega
  · rintro ⟨hfirst, hrest⟩ block last post hlines hblock
    cases block with
    | nil =>
      obtain ⟨rfl, -⟩ := List.cons.inj hlines
      simpa using hfirst
    | cons l block =>
      obtain ⟨rfl, htail⟩ := List.cons.inj hlines
      obtain ⟨hline, hblock⟩ := List.forall_mem_cons.mp hblock
      have hsum := hrest hline block last post htail hblock
      simp only [List.cons_append, List.map_cons, List.sum_cons]
      omega

theorem HeadFits.mono (h : HeadFits m n lines) : HeadFits 0 n lines := by
  intro block last post hlines hblock
  have := h block last post hlines hblock
  omega

theorem blocksFit_cons : BlocksFit n (line :: lines) ↔
    HeadFits 0 n (line :: lines) ∧ BlocksFit n lines := by
  constructor
  · intro h
    refine ⟨fun block last post hlines hblock => ?_, fun pre block last post hlines hblock => ?_⟩
    · rw [Nat.zero_add]
      exact h [] block last post hlines hblock
    · exact h (line :: pre) block last post (congrArg _ hlines) hblock
  · rintro ⟨hhead, hrest⟩ pre block last post hlines hblock
    cases pre with
    | nil => simpa using hhead block last post hlines hblock
    | cons l pre => exact hrest pre block last post (List.cons.inj hlines).2 hblock

theorem BlocksFit.headFits (h : BlocksFit n lines) : HeadFits 0 n lines := by
  intro block last post hlines hblock
  rw [Nat.zero_add]
  exact h [] block last post hlines hblock

end

/-- The text stays within `n` exactly if it does up to the first semicolon, and no block of the
following lines is too long. -/
theorem appendLines_le_iff (n : Nat) (query : CString) (lines : List CString) :
    (∀ s ∈ appendLines query lines, s.query.length ≤ n) ↔
      HeadFits query.length n lines ∧ BlocksFit n lines := by
  induction lines generalizing query with
  | nil =>
    have hblocks : BlocksFit n [] := fun pre block last post h => by
      cases pre <;> cases block <;> cases h
    exact iff_of_true (fun s hs => absurd hs List.not_mem_nil) ⟨headFits_nil _ n, hblocks⟩
  | cons line lines ih =>
    rw [appendLines, blocksFit_cons, headFits_cons]
    split_ifs with hline
    · rw [List.forall_mem_cons, ih, CString.length_append]
      constructor
      · rintro ⟨hfirst, -, hblocks⟩
        refine ⟨⟨hfirst, fun h => absurd hline h⟩, headFits_cons.mpr ⟨by omega, fun h => absurd hline h⟩, hblocks⟩
      · rintro ⟨⟨hfirst, -⟩, -, hblocks⟩
        exact ⟨hfirst, hblocks.headFits, hblocks⟩
    · rw [List.forall_mem_cons, ih, CString.length_append]
      constructor
      · rintro ⟨hfirst, hhead, hblocks⟩
        have hall : HeadFits query.length n (line :: lines) := headFits_cons.mpr ⟨hfirst, fun _ => hhead⟩
        exact ⟨⟨hfirst, fun _ => hhead⟩, hall.mono, hblocks⟩
      · rintro ⟨⟨hfirst, hhead⟩, -, hblocks⟩
        exact ⟨hfirst, hhead hline, hblocks⟩

/-- A line of letters is kept as it is. -/
theorem keptLines_replicate {n : Nat} {line : List UInt8} (hne : line ≠ [])
    (hline : ∀ c ∈ line, c = 97) : ∃ t : CString, t.bytes = line ∧
      keptLines (List.replicate n line) = List.replicate n t := by
  have hzero : (0 : UInt8) ∉ line := fun h => absurd (hline 0 h) (by decide)
  have hbytes : (trimString (CString.ofBytes line)).bytes = line := by
    rw [bytes_trimString_ofBytes hzero]
    refine strip_eq_self fun c hc => ?_
    rw [hline c hc]
    rfl
  have hskip : (!isSkipped (trimString (CString.ofBytes line))) = true := by
    rw [isSkipped, CString.length, hbytes]
    obtain ⟨c, l, rfl⟩ := List.exists_cons_of_ne_nil hne
    rw [hline c List.mem_cons_self]
    rfl
  refine ⟨_, hbytes, ?_⟩
  rw [keptLines, List.map_replicate]
  exact List.filter_replicate_of_pos hskip

/-- **The text stays in its buffer** exactly if no block of lines up to a semicolon is too long. -/
theorem script_inBuffer_iff (file : List UInt8) :
    (∀ s ∈ scriptRun file, s.query.length ≤ maxQueryLen * 10 - 1) ↔
      BlocksFit (maxQueryLen * 10 - 1) (keptLines (fileLines maxQueryLen file)) := by
  have hempty : (default : CString).length = 0 := rfl
  rw [scriptRun, scriptSteps_eq, appendLines_le_iff, hempty]
  exact ⟨fun h => h.2, fun h => ⟨h.headFits, h⟩⟩

/-- Eleven lines of 4000 letters each, and no semicolon. -/
theorem script_overrun :
    ¬∀ file : List UInt8, ∀ s ∈ scriptRun file, s.query.length ≤ maxQueryLen * 10 - 1 := by
  intro h
  obtain ⟨line, hline⟩ : ∃ line : List UInt8, line = List.replicate 4000 97 := ⟨_, rfl⟩
  have hletters : ∀ c ∈ line, c = 97 := fun c hc => List.eq_of_mem_replicate (hline ▸ hc)
  have hlength : line.length = 4000 := by rw [hline, List.length_replicate]
  have hne : line ≠ [] := by
    rintro rfl
    simp at hlength
  obtain ⟨t, hbytes, hkept⟩ := @keptLines_replicate 11 line hne hletters
  have hlines : ([10].intercalate (List.replicate 11 line)).splitOn 10 = List.replicate 11 line := by
    refine List.splitOn_intercalate 10 (fun w hw h10 => ?_) (by simp)
    rw [List.eq_of_mem_replicate hw] at h10
    exact absurd (hletters 10 h10) (by decide)
  have hshort : ∀ w ∈ ([10].intercalate (List.replicate 11 line)).splitOn 10,
      w.length < maxQueryLen := by
    intro w hw
    rw [hlines] at hw
    rw [List.eq_of_mem_replicate hw, hlength]
    decide
  have hrun := h ([10].intercalate (List.replicate 11 line))
  rw [scriptRun, scriptSteps_eq, keptLines_fileLines hshort, hlines, hkept, appendLines_le_iff] at hrun
  have hsum := hrun.2 [] (List.replicate 10 t) t [] rfl fun l hl h59 => by
    rw [List.eq_of_mem_replicate hl, hbytes] at h59
    exact absurd (hletters 59 h59) (by decide)
  have ht : t.length = 4000 := by rw [CString.length, hbytes, hlength]
  rw [maxQueryLen] at hsum
  simp [ht] at hsum

end Luminix
