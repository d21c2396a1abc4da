import Mathlib.Data.List.DropRight
import Mathlib.Data.List.TakeWhile

/-!
# Words

The words of a list are its longest parts without a separator.  Two lists have the words of the one
and of the other if a separator stands between them (`words_append_cons`); without one the last word
and the first are joined (`length_words_append`).
-/

namespace CLib

variable {α : Type*} {p : α → Bool} {a b l : List α} {c : α}

/-! ### Words -/

/-- The parts between separators that are not empty. -/
def words (p : α → Bool) (l : List α) : List (List α) := (l.splitOnP p).filter (!·.isEmpty)

@[simp] theorem words_nil : words p [] = [] := rfl

/-- **A separator ends a word.** -/
theorem words_append_cons (hc : p c = true) (a b : List α) :
    words p (a ++ c :: b) = words p a ++ words p b := by
  rw [words, List.splitOnP_append_cons a b hc, List.filter_append]
  rfl

theorem words_cons_pos (hc : p c = true) (l : List α) : words p (c :: l) = words p l :=
  words_append_cons hc [] l

theorem words_concat_pos (hc : p c = true) (l : List α) : words p (l ++ [c]) = words p l := by
  rw [words_append_cons hc, words_nil, List.append_nil]

/-- A character goes before the first word, or is a word of its own. -/
theorem length_words_cons_neg (hc : p c = false) (l : List α) :
    (words p (c :: l)).length = (words p l).length + if l.head?.all p then 1 else 0 := by
  unfold words
  rw [List.splitOnP_cons_eq_if_modifyHead, if_neg (by simp [hc])]
  cases l with
  | nil => rfl
  | cons d l =>
    rw [List.splitOnP_cons_eq_if_modifyHead]
    obtain ⟨w, ws, hsplit⟩ := List.exists_cons_of_ne_nil (List.splitOnP_ne_nil p l)
    by_cases hd : p d = true
    · simp [hd]
    · simp [hd, hsplit]

/-- **Without a separator between them two words become one.** -/
theorem length_words_append (ha : a ≠ []) (hlast : ∀ c ∈ a.getLast?, p c = false)
    (hhead : ∀ c ∈ b.head?, p c = false) (hb : b ≠ []) :
    (words p (a ++ b)).length + 1 = (words p a).length + (words p b).length := by
  induction a with
  | nil => exact absurd rfl ha
  | cons c a ih =>
    cases a with
    | nil =>
      have hc : p c = false := hlast c rfl
      obtain ⟨d, b, rfl⟩ := List.exists_cons_of_ne_nil hb
      have hd : p d = false := hhead d rfl
      rw [List.singleton_append, length_words_cons_neg hc, length_words_cons_neg hc]
      simp [hd]
      omega
    | cons d a =>
      have hrest := ih (List.cons_ne_nil d a) (by rwa [List.getLast?_cons_cons] at hlast)
      by_cases hc : p c = true
      · rw [List.cons_append, words_cons_pos hc, words_cons_pos hc, hrest]
      · have hc : p c = false := by simpa using hc
        rw [List.cons_append, length_words_cons_neg hc, length_words_cons_neg hc]
        rw [List.cons_append] at hrest ⊢
        by_cases hd : p d = true <;> simp [hd] at hrest ⊢ <;> omega

/-- The words together are the list without its separators. -/
theorem flatten_words (l : List α) : (words p l).flatten = l.filter (!p ·) := by
  have hsplit : ∀ ws : List (List α), (ws.filter (!·.isEmpty)).flatten = ws.flatten := by
    intro ws
    induction ws with
    | nil => rfl
    | cons w ws ih => cases w <;> simp [ih]
  rw [words, hsplit]
  induction l with
  | nil => rfl
  | cons c l ih =>
    rw [List.splitOnP_cons_eq_if_modifyHead]
    by_cases hc : p c = true
    · simp [hc, ih]
    · obtain ⟨w, ws, hws⟩ := List.exists_cons_of_ne_nil (List.splitOnP_ne_nil p l)
      rw [hws] at ih
      simp only [hc, hws, List.modifyHead_cons, List.flatten_cons, Bool.false_eq_true, if_false] at ih ⊢
      rw [List.cons_append, ih]
      simp [hc]

/-- A word is not empty and has no separator in it. -/
theorem of_mem_words {w : List α} (h : w ∈ words p l) : w ≠ [] ∧ ∀ c ∈ w, p c = false := by
  obtain ⟨hpiece, hne⟩ := List.mem_filter.mp h
  refine ⟨by simpa using hne, ?_⟩
  clear h hne
  induction l generalizing w with
  | nil =>
    obtain rfl := List.mem_singleton.mp hpiece
    simp
  | cons d l ih =>
    rw [List.splitOnP_cons_eq_if_modifyHead] at hpiece
    split_ifs at hpiece with hd
    · rcases List.mem_cons.mp hpiece with rfl | hw
      · simp
      · exact ih hw
    · obtain ⟨v, vs, hsplit⟩ := List.exists_cons_of_ne_nil (List.splitOnP_ne_nil p l)
      rw [hsplit] at hpiece ih
      rcases List.mem_cons.mp hpiece with rfl | hw
      · refine List.forall_mem_cons.mpr ⟨by simpa using hd, ih List.mem_cons_self⟩
      · exact ih (List.mem_cons_of_mem v hw)

/-- A text without a separator is its only word. -/
theorem words_of_forall_not (h : ∀ c ∈ l, p c = false) :
    words p l = if l = [] then [] else [l] := by
  rw [words, List.splitOnP_eq_singleton h]
  cases l <;> rfl

/-! ### Stripping -/

/-- The list without the separators at its end and at its beginning. -/
def strip (p : α → Bool) (l : List α) : List α := (l.rdropWhile p).dropWhile p

theorem exists_strip (p : α → Bool) (l : List α) :
    ∃ a b, l = a ++ (strip p l ++ b) ∧ (∀ c ∈ a, p c = true) ∧ ∀ c ∈ b, p c = true := by
  refine ⟨(l.rdropWhile p).takeWhile p, l.rtakeWhile p, ?_, fun c hc => ?_, fun c hc => ?_⟩
  · rw [strip, ← List.append_assoc, List.takeWhile_append_dropWhile, List.rdropWhile_append_rtakeWhile]
  · exact List.mem_takeWhile_imp hc
  · exact List.mem_rtakeWhile_imp hc

theorem words_append_of_forall (ha : ∀ c ∈ a, p c = true) (l : List α) :
    words p (a ++ l) = words p l := by
  induction a with
  | nil => rfl
  | cons c a ih =>
    rw [List.cons_append, words_cons_pos (ha c List.mem_cons_self)]
    exact ih fun c hc => ha c (List.mem_cons_of_mem _ hc)

/-- **The words of joined pieces** without separators are the pieces that are not empty. -/
theorem words_joined {sep : List α} (hsep : ∀ c ∈ sep, p c = true) (hne : sep ≠ [])
    {pieces : List (List α)} (hpieces : ∀ w ∈ pieces, ∀ c ∈ w, p c = false) :
    words p (sep.intercalate pieces) = pieces.filter (!·.isEmpty) := by
  obtain ⟨d, sep, rfl⟩ := List.exists_cons_of_ne_nil hne
  obtain ⟨hd, hsep'⟩ := List.forall_mem_cons.mp hsep
  have hword : ∀ w ∈ pieces, words p w = [w].filter (!·.isEmpty) := by
    intro w hw
    rw [words_of_forall_not (hpieces w hw)]
    cases w <;> rfl
  clear hpieces
  induction pieces with
  | nil => rfl
  | cons w pieces ih =>
    obtain ⟨hw, hrest⟩ := List.forall_mem_cons.mp hword
    cases pieces with
    | nil => rw [List.intercalate_singleton, hw]
    | cons w' pieces =>
      rw [List.intercalate_cons_cons, List.append_assoc, List.cons_append, words_append_cons hd,
        words_append_of_forall hsep', ih hrest, hw, ← List.filter_append]
      rfl

theorem words_concat_of_forall (hb : ∀ c ∈ b, p c = true) (l : List α) :
    words p (l ++ b) = words p l := by
  induction b using List.reverseRecOn with
  | nil => rw [List.append_nil]
  | append_singleton b c ih =>
    rw [← List.append_assoc, words_concat_pos (hb c (by simp))]
    exact ih fun c hc => hb c (List.mem_append_left _ hc)

theorem strip_eq_self (h : ∀ c ∈ l, p c = false) : strip p l = l := by
  obtain ⟨a, b, hl, ha, hb⟩ := exists_strip p l
  have hnil : ∀ x : List α, (∀ c ∈ x, c ∈ l) → (∀ c ∈ x, p c = true) → x = [] := by
    intro x hmem hx
    refine List.eq_nil_iff_forall_not_mem.mpr fun c hc => ?_
    exact Bool.false_ne_true ((h c (hmem c hc)).symm.trans (hx c hc))
  have ha := hnil a (fun c hc => by rw [hl]; simp [hc]) ha
  have hb := hnil b (fun c hc => by rw [hl]; simp [hc]) hb
  rw [ha, hb, List.nil_append, List.append_nil] at hl
  exact hl.symm

/-- **Stripping leaves the words.** -/
theorem words_strip (l : List α) : words p (strip p l) = words p l := by
  obtain ⟨a, b, hl, ha, hb⟩ := exists_strip p l
  conv_rhs => rw [hl]
  rw [words_append_of_forall ha, words_concat_of_forall hb]

theorem mem_of_mem_strip (h : c ∈ strip p l) : c ∈ l :=
  (List.rdropWhile_prefix p l).mem ((List.dropWhile_suffix p).mem h)

theorem strip_eq_nil_iff : strip p l = [] ↔ ∀ c ∈ l, p c = true := by
  rw [strip, List.dropWhile_eq_nil_iff]
  constructor
  · intro h c hc
    rw [← @List.rdropWhile_append_rtakeWhile _ p l] at hc
    rcases List.mem_append.mp hc with hc | hc
    · exact h c hc
    · exact List.mem_rtakeWhile_imp hc
  · exact fun h c hc => h c ((List.rdropWhile_prefix p l).mem hc)

theorem head?_strip (p : α → Bool) (l : List α) : (strip p l).head? = (l.dropWhile p).head? := by
  conv_rhs => rw [← @List.rdropWhile_append_rtakeWhile _ p l]
  rw [strip, List.dropWhile_append]
  split_ifs with hnil
  · have hsep : (l.rtakeWhile p).dropWhile p = [] :=
      List.dropWhile_eq_nil_iff.mpr fun c hc => List.mem_rtakeWhile_imp hc
    rw [hsep, List.isEmpty_iff.mp hnil]
  · obtain ⟨c, x, hx⟩ := List.exists_cons_of_ne_nil (fun h => hnil (List.isEmpty_iff.mpr h))
    rw [hx]
    rfl

/-- More at the end does not change the beginning. -/
theorem head?_strip_append (h : (strip p a).head? = some c) (b : List α) :
    (strip p (a ++ b)).head? = some c := by
  rw [head?_strip] at h ⊢
  have hne : a.dropWhile p ≠ [] := by
    intro hnil
    simp [hnil] at h
  rw [List.dropWhile_append, if_neg (fun hempty => hne (List.isEmpty_iff.mp hempty)),
    List.head?_append_of_ne_nil _ hne, h]

theorem notSep_head_strip : ∀ c ∈ (strip p l).head?, p c = false := by
  intro c hc
  have hhead := List.head?_dropWhile_not p (l.rdropWhile p)
  rw [strip] at hc
  simp only [Option.mem_def.mp hc] at hhead
  exact hhead

theorem notSep_getLast_strip : ∀ c ∈ (strip p l).getLast?, p c = false := by
  intro c hc
  obtain ⟨a, ha⟩ := List.dropWhile_suffix (l := l.rdropWhile p) p
  have hlast : (l.rdropWhile p).getLast? = some c := by
    rw [← ha]
    exact List.mem_getLast?_append_of_mem_getLast? hc
  have hne : l.rdropWhile p ≠ [] := by
    intro h
    simp [h] at hlast
  have hnot := List.rdropWhile_last_not p l hne
  rw [List.getLast?_eq_some_getLast hne] at hlast
  rw [Option.some.inj hlast] at hnot
  simpa using hnot

theorem strip_concat (hc : p c = true) (l : List α) : strip p (l ++ [c]) = strip p l := by
  rw [strip, List.rdropWhile_concat_pos p l c hc, strip]

theorem strip_cons (hc : p c = true) (l : List α) : strip p (c :: l) = strip p l := by
  induction l using List.reverseRecOn with
  | nil => exact strip_concat hc []
  | append_singleton l d ih =>
    rw [← List.cons_append]
    by_cases hd : p d = true
    · rw [strip_concat hd, strip_concat hd, ih]
    · rw [strip, strip, List.rdropWhile_concat_neg p _ d hd, List.rdropWhile_concat_neg p _ d hd,
        List.cons_append, List.dropWhile_cons_of_pos hc]

/-- A text without a separator at its ends is not changed. -/
theorem strip_eq_self_of_ends (hhead : ∀ c ∈ l.head?, p c = false)
    (hlast : ∀ c ∈ l.getLast?, p c = false) : strip p l = l := by
  have hright : l.rdropWhile p = l := by
    refine List.rdropWhile_eq_self_iff.mpr fun hl => ?_
    rw [hlast _ (List.getLast_mem_getLast? hl)]
    exact Bool.false_ne_true
  rw [strip, hright]
  cases l with
  | nil => rfl
  | cons c l => exact List.dropWhile_cons_of_neg (by rw [hhead c rfl]; exact Bool.false_ne_true)

theorem length_strip_le (p : α → Bool) (l : List α) : (strip p l).length ≤ l.length := by
  obtain ⟨a, b, hl, -, -⟩ := exists_strip p l
  have hlength := congrArg List.length hl
  simp only [List.length_append] at hlength
  omega

end CLib
