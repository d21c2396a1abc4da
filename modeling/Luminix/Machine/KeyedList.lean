import Mathlib.Data.List.Basic
import Mathlib.Data.List.Nodup
import Mathlib.Logic.Function.Basic

/-!
# Lists keyed by a field

A list whose elements carry a key, searched from the front: `lookup` finds the first element with a
key, `erase` unlinks it and `modify` rewrites it in place.  While the keys are pairwise distinct
such a list is a finite map: the three lemmas `lookup_cons`, `lookup_erase` and `lookup_modify`
compute the map of the result with `Function.update`.
-/

namespace KeyedList

variable {α κ : Type*} [DecidableEq κ] (key : α → κ)

/-- The first element with key `k`. -/
def lookup (l : List α) (k : κ) : Option α := l.find? fun a => key a = k

/-- The list without its first element with key `k`. -/
def erase (l : List α) (k : κ) : List α := l.eraseP fun a => key a = k

/-- The list with its first element of key `k` replaced by its image under `f`. -/
def modify (f : α → α) : List α → κ → List α
  | [], _ => []
  | a :: l, k => if key a = k then f a :: l else a :: modify f l k

variable {key} {l : List α} {a : α} {k : κ}

/-! ### Lookup -/

@[simp] theorem lookup_nil : lookup key [] k = none := rfl

/-- Prepending updates the map at one key. -/
theorem lookup_cons : lookup key (a :: l) = Function.update (lookup key l) (key a) (some a) := by
  funext j
  by_cases h : key a = j
  · subst h
    simp [lookup]
  · rw [Function.update_of_ne (Ne.symm h)]
    simp [lookup, h]

theorem lookup_eq_none_iff : lookup key l k = none ↔ ∀ a ∈ l, key a ≠ k := by
  simp [lookup]

theorem lookup_ne_none_iff : lookup key l k ≠ none ↔ k ∈ l.map key := by
  simp [lookup_eq_none_iff]

theorem mem_of_lookup (h : lookup key l k = some a) : a ∈ l := List.mem_of_find?_eq_some h

theorem key_of_lookup (h : lookup key l k = some a) : key a = k := by
  simpa using List.find?_some h

/-- With distinct keys every element is the one its key finds. -/
theorem lookup_of_mem (hnd : (l.map key).Nodup) (ha : a ∈ l) : lookup key l (key a) = some a := by
  induction l with
  | nil => simp at ha
  | cons b l ih =>
    rw [List.map_cons, List.nodup_cons] at hnd
    rw [lookup_cons]
    rcases List.mem_cons.mp ha with rfl | hmem
    · exact Function.update_self ..
    · rw [Function.update_of_ne, ih hnd.2 hmem]
      exact fun h => hnd.1 (h ▸ List.mem_map_of_mem hmem)

/-- Renaming the elements renames what is found. -/
theorem lookup_map {β : Type*} {key' : β → κ} {f : α → β} (hf : ∀ a ∈ l, key' (f a) = key a) :
    lookup key' (l.map f) k = (lookup key l k).map f := by
  induction l with
  | nil => rfl
  | cons b l ih =>
    rw [List.map_cons, lookup_cons, lookup_cons, hf b List.mem_cons_self]
    by_cases h : k = key b
    · subst h
      rw [Function.update_self, Function.update_self]
      rfl
    · rw [Function.update_of_ne h, Function.update_of_ne h]
      exact ih fun a ha => hf a (List.mem_cons_of_mem b ha)

/-- With distinct keys the order does not matter. -/
theorem lookup_reverse (hnd : (l.map key).Nodup) : lookup key l.reverse k = lookup key l k := by
  have hnd' : (l.reverse.map key).Nodup := by
    rw [List.map_reverse]
    exact List.nodup_reverse.mpr hnd
  cases h : lookup key l k with
  | none =>
    rw [lookup_eq_none_iff] at h ⊢
    exact fun a ha => h a (List.mem_reverse.mp ha)
  | some a =>
    obtain rfl := key_of_lookup h
    exact lookup_of_mem hnd' (List.mem_reverse.mpr (mem_of_lookup h))

/-! ### Erasing -/

theorem erase_cons : erase key (a :: l) k = if key a = k then l else a :: erase key l k := by
  by_cases h : key a = k <;> simp [erase, h]

theorem erase_sublist : (erase key l k).Sublist l := List.eraseP_sublist

/-- Erasing what was appended restores the list, if the key is new. -/
theorem erase_concat (h : lookup key l k = none) (ha : key a = k) : erase key (l ++ [a]) k = l := by
  have hl : ∀ b ∈ l, ¬decide (key b = k) = true := fun b hb => by
    simpa using lookup_eq_none_iff.mp h b hb
  have ha' : [a].eraseP (fun b => decide (key b = k)) = [] :=
    List.eraseP_cons_of_pos (decide_eq_true ha)
  rw [erase, List.eraseP_append_right _ hl, ha', List.append_nil]

theorem length_erase (h : lookup key l k ≠ none) : (erase key l k).length + 1 = l.length := by
  obtain ⟨a, ha, hk⟩ := List.mem_map.mp (lookup_ne_none_iff.mp h)
  have hlen := List.length_eraseP_of_mem (p := fun a => decide (key a = k)) ha (by simpa using hk)
  have hpos := List.length_pos_of_mem ha
  rw [erase, hlen]
  omega

/-- With distinct keys, erasing removes the key from the map and nothing else. -/
theorem lookup_erase (hnd : (l.map key).Nodup) :
    lookup key (erase key l k) = Function.update (lookup key l) k none := by
  induction l with
  | nil =>
    funext j
    by_cases h : j = k
    · subst h
      simp [erase]
    · simp [erase, Function.update_of_ne h]
  | cons b l ih =>
    rw [List.map_cons, List.nodup_cons] at hnd
    rw [erase_cons]
    by_cases hb : key b = k
    · rw [if_pos hb, lookup_cons, hb, Function.update_idem]
      refine (Function.update_eq_self_iff.mpr ?_).symm
      rw [eq_comm, lookup_eq_none_iff]
      exact fun a ha hak => hnd.1 (hb.trans hak.symm ▸ List.mem_map_of_mem ha)
    · rw [if_neg hb, lookup_cons, ih hnd.2, lookup_cons, Function.update_comm hb]

/-- The elements with another key are the same before and after, in the same order. -/
theorem filter_erase : (erase key l k).filter (key · ≠ k) = l.filter (key · ≠ k) := by
  induction l with
  | nil => rfl
  | cons b l ih =>
    rw [erase_cons]
    by_cases hb : key b = k
    · simp [hb]
    · rw [if_neg hb, List.filter_cons_of_pos (by simpa using hb), ih,
        List.filter_cons_of_pos (by simpa using hb)]

/-- With distinct keys, erasing keeps exactly the elements with another key. -/
theorem erase_eq_filter (hnd : (l.map key).Nodup) :
    erase key l k = l.filter (key · ≠ k) := by
  rw [← filter_erase, eq_comm, List.filter_eq_self]
  intro a ha
  have hnone : lookup key (erase key l k) k = none := by
    rw [lookup_erase hnd, Function.update_self]
  simpa using lookup_eq_none_iff.mp hnone a ha

/-! ### Rewriting in place -/

section

variable {f : α → α}

/-- Rewriting the element that is found, its key kept, keeps all keys. -/
theorem map_key_modify (hf : ∀ a, lookup key l k = some a → key (f a) = key a) :
    (modify key f l k).map key = l.map key := by
  induction l with
  | nil => rfl
  | cons b l ih =>
    rw [modify]
    split
    · simp [hf b (by simp [lookup_cons, ‹key b = k›])]
    · rw [List.map_cons, ih fun a ha => hf a ?_, List.map_cons]
      rwa [lookup_cons, Function.update_of_ne (Ne.symm ‹_›)]

@[simp] theorem length_modify : (modify key f l k).length = l.length := by
  induction l with
  | nil => rfl
  | cons b l ih =>
    rw [modify]
    split
    · rfl
    · simp [ih]

/-- Seen through `g`, the list changes exactly if the element that was found does. -/
theorem map_modify_eq_iff {β : Type*} {g : α → β} (h : lookup key l k = some a) :
    (modify key f l k).map g = l.map g ↔ g (f a) = g a := by
  induction l with
  | nil => simp at h
  | cons b l ih =>
    rw [modify]
    by_cases hb : key b = k
    · obtain rfl : b = a := by simpa [lookup_cons, hb] using h
      simp [hb]
    · rw [lookup_cons, Function.update_of_ne (Ne.symm hb)] at h
      rw [if_neg hb, List.map_cons, List.map_cons, List.cons_inj_right, ih h]

/-- An element of the rewritten list is an old one, or the image of the one that was found. -/
theorem mem_modify (h : a ∈ modify key f l k) :
    a ∈ l ∨ ∃ b, lookup key l k = some b ∧ a = f b := by
  induction l with
  | nil => simp [modify] at h
  | cons b l ih =>
    rw [modify] at h
    split at h
    · rcases List.mem_cons.mp h with rfl | hmem
      · exact .inr ⟨b, by simp [lookup_cons, ‹key b = k›], rfl⟩
      · exact .inl (by simp [hmem])
    · rcases List.mem_cons.mp h with rfl | hmem
      · exact .inl (by simp)
      · rcases ih hmem with h1 | ⟨c, hc, rfl⟩
        · exact .inl (by simp [h1])
        · exact .inr ⟨c, by rwa [lookup_cons, Function.update_of_ne (Ne.symm ‹_›)], rfl⟩

/-- What held of every element holds of the rewritten list exactly if it holds of the image. -/
theorem forall_mem_modify_iff {p : α → Prop} (h : lookup key l k = some a) (hp : ∀ b ∈ l, p b) :
    (∀ b ∈ modify key f l k, p b) ↔ p (f a) := by
  induction l with
  | nil => simp at h
  | cons b l ih =>
    have hl : ∀ c ∈ l, p c := fun c hc => hp c (List.mem_cons_of_mem b hc)
    rw [modify]
    by_cases hb : key b = k
    · obtain rfl : b = a := by simpa [lookup_cons, hb] using h
      rw [if_pos hb, List.forall_mem_cons]
      exact and_iff_left hl
    · rw [lookup_cons, Function.update_of_ne (Ne.symm hb)] at h
      rw [if_neg hb, List.forall_mem_cons, ih h hl]
      exact and_iff_right (hp b List.mem_cons_self)

/-- With distinct keys the rewritten list holds the image, and what has another key. -/
theorem mem_modify_iff {a' : α} (hnd : (l.map key).Nodup) (h : lookup key l k = some a) {b : α} :
    b ∈ modify key (fun _ => a') l k ↔ b = a' ∨ b ∈ l ∧ key b ≠ k := by
  induction l with
  | nil => simp at h
  | cons c l ih =>
    rw [List.map_cons, List.nodup_cons] at hnd
    rw [modify]
    by_cases hc : key c = k
    · rw [if_pos hc, List.mem_cons]
      refine or_congr_right ⟨fun hb => ⟨List.mem_cons_of_mem c hb, ?_⟩, ?_⟩
      · rintro rfl
        exact hnd.1 (hc ▸ List.mem_map_of_mem hb)
      · rintro ⟨hb, hne⟩
        exact (List.mem_cons.mp hb).resolve_left fun heq => hne (heq ▸ hc)
    · rw [lookup_cons, Function.update_of_ne (Ne.symm hc)] at h
      rw [if_neg hc, List.mem_cons, ih hnd.2 h, List.mem_cons]
      constructor
      · rintro (rfl | rfl | ⟨hb, hne⟩)
        · exact .inr ⟨.inl rfl, hc⟩
        · exact .inl rfl
        · exact .inr ⟨.inr hb, hne⟩
      · rintro (rfl | ⟨rfl | hb, hne⟩)
        · exact .inr (.inl rfl)
        · exact .inl rfl
        · exact .inr (.inr ⟨hb, hne⟩)

/-- Rewriting an element, its key kept, updates the map at that key. -/
theorem lookup_modify (h : lookup key l k = some a) (hf : key (f a) = key a) :
    lookup key (modify key f l k) = Function.update (lookup key l) k (some (f a)) := by
  induction l with
  | nil => simp at h
  | cons b l ih =>
    rw [modify]
    by_cases hb : key b = k
    · obtain rfl : b = a := by simpa [lookup_cons, hb] using h
      rw [if_pos hb, lookup_cons, lookup_cons, hf, hb, Function.update_idem]
    · rw [lookup_cons, Function.update_of_ne (Ne.symm hb)] at h
      rw [if_neg hb, lookup_cons, ih h, lookup_cons, Function.update_comm hb]

end

end KeyedList
