import Luminix.History
import Luminix.Machine.Reach
import Mathlib.Data.List.Destutter

/-!
# The history and the recent past

The history is to hold the last hundred queries, less those that repeat the one before.  But a query
is compared with the row that is written next, which is empty or holds the oldest query and not the
last one, so that repetitions are kept (`history_recent_iff`).
-/

namespace Luminix

open CLib Machine RingBuffer

/-! ### Lists without repetition -/

section

variable {α : Type*}

theorem destutter'_concat [DecidableEq α] (a x : α) (l : List α) : (l ++ [x]).destutter' (· ≠ ·) a =
    if (a :: l).getLast? = some x then l.destutter' (· ≠ ·) a
    else l.destutter' (· ≠ ·) a ++ [x] := by
  induction l generalizing a with
  | nil => by_cases h : a = x <;> simp [h]
  | cons b l ih =>
    rw [List.cons_append, List.destutter'_cons, List.destutter'_cons, List.getLast?_cons_cons]
    by_cases hab : a = b
    · subst hab
      rw [if_neg (not_not_intro rfl), if_neg (not_not_intro rfl), ih]
    · rw [if_pos hab, if_pos hab, ih]
      split_ifs <;> rfl

/-- One more entry counts unless it repeats the last one. -/
theorem destutter_concat [DecidableEq α] (l : List α) (x : α) : (l ++ [x]).destutter (· ≠ ·) =
    if l.getLast? = some x then l.destutter (· ≠ ·) else l.destutter (· ≠ ·) ++ [x] := by
  cases l with
  | nil => simp
  | cons a l => exact destutter'_concat a x l

theorem rtake_concat_rtake (n : Nat) (l : List α) (x : α) :
    (l.rtake n ++ [x]).rtake n = (l ++ [x]).rtake n := by
  cases n with
  | zero => simp
  | succ n =>
    rw [List.rtake_concat_succ, List.rtake_concat_succ]
    simp [List.rtake_eq_reverse_take_reverse, List.take_take]

/-- Where no two entries in a row are the same, one more entry changes the last `n`. -/
theorem rtake_concat_ne {n : Nat} (hn : 2 ≤ n) {l : List α} (hl : l.IsChain (· ≠ ·))
    (hlength : l.length ≤ n) (x : α) : (l ++ [x]).rtake n ≠ l := by
  intro h
  rcases Nat.lt_or_eq_of_le hlength with hlt | heq
  · have hdrop : l.length + 1 - n = 0 := by omega
    rw [List.rtake, List.length_append, List.length_singleton, hdrop, List.drop_zero] at h
    have := congrArg List.length h
    simp at this
  · have hdrop : l.length + 1 - n = 1 := by omega
    rw [List.rtake, List.length_append, List.length_singleton, hdrop, List.drop_one] at h
    rcases l with _ | ⟨a, _ | ⟨b, l⟩⟩
    · simp at heq
      omega
    · simp at heq
      omega
    · rw [List.cons_append, List.tail_cons, List.cons_append] at h
      obtain ⟨hba, -⟩ := List.cons.inj h
      exact (List.isChain_cons_cons.mp hl).1 hba.symm

end

/-! ### Recent queries -/

/-- **The last hundred queries**, less those that repeat the one before. -/
def recentQueries (qs : List CString) : List CString := (qs.destutter (· ≠ ·)).rtake historySize

theorem recentQueries_concat (qs : List CString) (q : CString) : recentQueries (qs ++ [q]) =
    if qs.getLast? = some q then recentQueries qs
    else (recentQueries qs ++ [q]).rtake historySize := by
  unfold recentQueries
  rw [destutter_concat, rtake_concat_rtake]
  split_ifs <;> rfl

theorem recentQueries_concat_ne (qs : List CString) (q : CString) :
    (recentQueries qs ++ [q]).rtake historySize ≠ recentQueries qs := by
  have hsuffix : recentQueries qs <:+ qs.destutter (· ≠ ·) := List.drop_suffix _ _
  have hchain := (List.isChain_destutter (· ≠ ·) qs).suffix hsuffix
  refine rtake_concat_ne (by decide) hchain ?_ q
  rw [recentQueries, List.rtake, List.length_drop]
  omega

/-! ### The history after some queries -/

/-- The history after queries have been entered. -/
def historyOf (qs : List CString) : History := qs.foldl (fun h q => addToHistory h (some q)) .start

theorem historyOf_concat (qs : List CString) (q : CString) :
    historyOf (qs ++ [q]) = addToHistory (historyOf qs) (some q) := by
  rw [historyOf, List.foldl_append]
  rfl

theorem vacant_addToHistory {h : History} (hvacant : h.Vacant default) (query : Option CString) :
    (addToHistory h query).Vacant default := by
  cases query with
  | none => exact hvacant
  | some query =>
    rw [addToHistory]
    split_ifs
    · exact hvacant
    · exact hvacant
    · exact hvacant.push _

theorem vacant_historyOf (qs : List CString) : (historyOf qs).Vacant default := by
  induction qs using List.reverseRecOn with
  | nil => exact vacant_empty _ _
  | append_singleton qs q ih =>
    rw [historyOf_concat]
    exact vacant_addToHistory ih _

/-- A query that `add_to_history` takes whole. -/
def IsQuery (q : CString) : Prop := 0 < q.length ∧ q.length < maxQueryLen

/-- What is compared is an entry in a full history only: the oldest one. -/
theorem next_eq_iff {h : History} (hvacant : h.Vacant default) {q : CString} (hq : IsQuery q) :
    0 < h.count ∧ h.next = q ↔ h.contents.length = historySize ∧ h.contents.head? = some q := by
  rw [length_contents]
  constructor
  · rintro ⟨hpos, rfl⟩
    rcases Nat.lt_or_eq_of_le h.count_le with hlt | hfull
    · have hlength := hq.1
      rw [hvacant.next hlt] at hlength
      exact absurd hlength (by decide)
    · exact ⟨hfull, head?_contents h hfull⟩
  · rintro ⟨hfull, hhead⟩
    rw [head?_contents h hfull] at hhead
    refine ⟨?_, Option.some.inj hhead⟩
    rw [hfull]
    decide

/-- **One more query**: it is left out if the history is full and it is the oldest entry. -/
theorem contents_addToHistory {h : History} (hvacant : h.Vacant default) {q : CString}
    (hq : IsQuery q) : (addToHistory h (some q)).contents =
      if h.contents.length = historySize ∧ h.contents.head? = some q then h.contents
      else (h.contents ++ [q]).rtake historySize := by
  have hne : q.length ≠ 0 := Nat.pos_iff_ne_zero.mp hq.1
  have htruncate : q.truncate (maxQueryLen - 1) = q :=
    CString.truncate_eq_self (Nat.le_pred_of_lt hq.2)
  rw [addToHistory, if_neg hne, htruncate]
  simp only [next_eq_iff hvacant hq]
  split_ifs
  · rfl
  · exact contents_push h q

/-- **The history is the recent past after every query** exactly if a query repeats the one before
it where the history is full and the query is its oldest entry, and only there. -/
theorem history_recent_iff (qs : List CString) (hqs : ∀ q ∈ qs, IsQuery q) :
    (∀ pre, pre <+: qs → queryHistory (historyOf pre) = recentQueries pre) ↔
      ∀ pre q, pre ++ [q] <+: qs → (pre.getLast? = some q ↔
        (recentQueries pre).length = historySize ∧ (recentQueries pre).head? = some q) := by
  -- the queries entered so far are the state of the machine
  let step : List CString → CString → List CString := fun pre q => pre ++ [q]
  have hrun : ∀ pre, run step [] pre = pre := by
    intro pre
    induction pre using List.reverseRecOn with
    | nil => rfl
    | append_singleton pre q ih => rw [run_append, ih]; rfl
  have hstep : ∀ pre, ∀ q ∈ qs, queryHistory (historyOf pre) = recentQueries pre →
      (queryHistory (historyOf (step pre q)) = recentQueries (step pre q) ↔
        (pre.getLast? = some q ↔
          (recentQueries pre).length = historySize ∧ (recentQueries pre).head? = some q)) := by
    intro pre q hq hpre
    have hne := recentQueries_concat_ne pre q
    have hcontents := contents_addToHistory (vacant_historyOf pre) (hqs q hq)
    rw [queryHistory] at hpre
    rw [hpre] at hcontents
    show (historyOf (pre ++ [q])).contents = recentQueries (pre ++ [q]) ↔ _
    rw [historyOf_concat, hcontents, recentQueries_concat]
    split_ifs with hfull hlast hlast
    · simp [hfull, hlast]
    · simp [hfull, hlast, hne.symm]
    · simp only [hlast, hfull, hne, iff_false, not_true_eq_false]
    · simp [hfull, hlast]
  have hadmits := forall_prefix_iff_admits hstep (s := []) rfl
  simp only [hrun] at hadmits
  rw [hadmits, admits_iff_forall_prefix]
  simp only [hrun]

/-- A query is entered again after another one. -/
theorem history_recent_alternating : queryHistory (historyOf [cstr "a", cstr "b", cstr "a"]) =
    recentQueries [cstr "a", cstr "b", cstr "a"] := by
  have hqueries : ∀ q ∈ [cstr "a", cstr "b", cstr "a"], IsQuery q := by
    have hquery : IsQuery (cstr "a") ∧ IsQuery (cstr "b") :=
      ⟨⟨by decide, by decide⟩, ⟨by decide, by decide⟩⟩
    simp [hquery]
  have hchanges : ∀ l ∈ [cstr "a", cstr "b", cstr "a"].inits,
      (l.dropLast.getLast? = l.getLast? ∧ l ≠ [] ↔ (recentQueries l.dropLast).length = historySize ∧
        (recentQueries l.dropLast).head? = l.getLast?) := by decide
  refine (history_recent_iff _ hqueries).mpr (fun pre q hpre => ?_) _ (List.prefix_refl _)
  have hlast := hchanges (pre ++ [q]) ((List.mem_inits _ _).mpr hpre)
  rw [List.dropLast_concat, List.getLast?_concat] at hlast
  rw [← hlast]
  simp

/-- A query that is entered twice stands in the history twice. -/
theorem history_repeats : ¬∀ qs : List CString, (∀ q ∈ qs, IsQuery q) →
    queryHistory (historyOf qs) = recentQueries qs := by
  intro h
  have hquery : IsQuery (cstr "a") := ⟨by decide, by decide⟩
  have hrecent := h [cstr "a", cstr "a"] (by simp [hquery])
  exact absurd hrecent (by decide)

end Luminix
