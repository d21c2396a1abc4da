import Luminix.CLib.CString
import Mathlib.Data.List.DropRight

/-!
# Searching text

`strstr`, as the position of the first occurrence, and what a search does to a text that is made of
parts: an occurrence does not reach over a separator that is not a character of the needle
(`strstr_append_cons`).  `strrchr` is the position of the last occurrence of a character.
-/

namespace CLib

variable {needle l : List UInt8}

/-- `strstr`: where `needle` first occurs. -/
def strstr (needle : List UInt8) : List UInt8 → Option Nat
  | [] => if needle.isEmpty then some 0 else none
  | c :: l => if needle.isPrefixOf (c :: l) then some 0 else (strstr needle l).map (· + 1)

theorem strstr_nil (h : needle ≠ []) : strstr needle [] = none := by
  rw [strstr, if_neg]
  rwa [List.isEmpty_iff]

theorem strstr_of_isPrefixOf (h : needle.isPrefixOf l = true) : strstr needle l = some 0 := by
  cases l with
  | nil =>
    have hnil : needle = [] := List.prefix_nil.mp (List.isPrefixOf_iff_prefix.mp h)
    rw [hnil]
    rfl
  | cons c l => rw [strstr, if_pos h]

/-- What is found consists of characters of the text. -/
theorem mem_of_strstr {c : UInt8} (hc : c ∈ needle) (h : (strstr needle l).isSome) : c ∈ l := by
  induction l with
  | nil =>
    have hne : needle ≠ [] := List.ne_nil_of_mem hc
    rw [strstr_nil hne] at h
    exact absurd h Bool.false_ne_true
  | cons d l ih =>
    rw [strstr] at h
    split_ifs at h with hpre
    · exact (List.isPrefixOf_iff_prefix.mp hpre).subset hc
    · rw [Option.isSome_map] at h
      exact List.mem_cons_of_mem d (ih h)

theorem strstr_eq_none {c : UInt8} (hc : c ∈ needle) (h : c ∉ l) : strstr needle l = none := by
  rw [← Option.not_isSome_iff_eq_none]
  exact fun hsome => h (mem_of_strstr hc hsome)

theorem isSome_strstr_singleton {c : UInt8} : (strstr [c] l).isSome ↔ c ∈ l := by
  refine ⟨mem_of_strstr (List.mem_singleton_self c), fun h => ?_⟩
  induction l with
  | nil => exact absurd h List.not_mem_nil
  | cons d l ih =>
    rw [strstr]
    split_ifs with hpre
    · rfl
    · rw [Option.isSome_map]
      refine ih ((List.mem_cons.mp h).resolve_left ?_)
      rintro rfl
      exact hpre (by simp)

/-- What is found stands where it is found. -/
theorem prefix_drop_of_strstr {i : Nat} (h : strstr needle l = some i) : needle <+: l.drop i := by
  induction l generalizing i with
  | nil =>
    rw [strstr] at h
    split_ifs at h with hnil
    rw [List.isEmpty_iff.mp hnil]
    exact List.nil_prefix
  | cons d l ih =>
    rw [strstr] at h
    split_ifs at h with hpre
    · obtain rfl : 0 = i := Option.some.inj h
      exact List.isPrefixOf_iff_prefix.mp hpre
    · obtain ⟨j, hj, rfl⟩ := Option.map_eq_some_iff.mp h
      exact ih hj

theorem strstr_eq_zero_iff : strstr needle l = some 0 ↔ needle <+: l :=
  ⟨fun h => List.drop_zero (l := l) ▸ prefix_drop_of_strstr h, fun h =>
    strstr_of_isPrefixOf (List.isPrefixOf_iff_prefix.mpr h)⟩

/-- Nothing is found behind an occurrence. -/
theorem exists_strstr_le {n : Nat} (h : needle <+: l.drop n) : ∃ i ≤ n, strstr needle l = some i := by
  induction l generalizing n with
  | nil =>
    rw [List.drop_nil, List.prefix_nil] at h
    exact ⟨0, Nat.zero_le n, by rw [h]; rfl⟩
  | cons d l ih =>
    cases n with
    | zero => exact ⟨0, Nat.le_refl 0, strstr_of_isPrefixOf (List.isPrefixOf_iff_prefix.mpr h)⟩
    | succ n =>
      rw [strstr]
      split_ifs
      · exact ⟨0, Nat.zero_le _, rfl⟩
      · obtain ⟨i, hle, hi⟩ := ih h
        exact ⟨i + 1, Nat.succ_le_succ hle, by rw [hi]; rfl⟩

/-- What is found somewhere is found. -/
theorem isSome_strstr_iff : (strstr needle l).isSome ↔ needle <:+: l := by
  constructor
  · intro h
    obtain ⟨i, hi⟩ := Option.isSome_iff_exists.mp h
    exact (prefix_drop_of_strstr hi).isInfix.trans (List.drop_suffix i l).isInfix
  · rintro ⟨a, b, rfl⟩
    have hhere : needle <+: (a ++ needle ++ b).drop a.length := by
      rw [List.append_assoc, List.drop_left]
      exact List.prefix_append needle b
    obtain ⟨i, -, hi⟩ := exists_strstr_le hhere
    rw [hi]
    rfl

/-- A separator ends every occurrence. -/
theorem isPrefixOf_append_cons {s : UInt8} (hs : s ∉ needle) (b l : List UInt8) :
    needle.isPrefixOf (b ++ s :: l) = needle.isPrefixOf b := by
  induction needle generalizing b with
  | nil => rw [List.isPrefixOf_nil_left, List.isPrefixOf_nil_left]
  | cons n needle ih =>
    rw [List.mem_cons, not_or] at hs
    cases b with
    | nil =>
      have hne : (n == s) = false := beq_eq_false_iff_ne.mpr (Ne.symm hs.1)
      rw [List.nil_append, List.isPrefixOf_cons_cons, hne, Bool.false_and]
      rfl
    | cons c b => rw [List.cons_append, List.isPrefixOf_cons_cons, List.isPrefixOf_cons_cons, ih hs.2]

/-- **A search over two parts** looks through the first, and then through the second. -/
theorem strstr_append_cons {s : UInt8} (hne : needle ≠ []) (hs : s ∉ needle) (b l : List UInt8) :
    strstr needle (b ++ s :: l) =
      (strstr needle b).or ((strstr needle l).map (· + (b.length + 1))) := by
  induction b with
  | nil =>
    have hpre : needle.isPrefixOf (s :: l) = false := by
      have h := isPrefixOf_append_cons hs [] l
      rw [List.nil_append] at h
      rw [h]
      cases needle with
      | nil => exact absurd rfl hne
      | cons n needle => rfl
    have hcons : strstr needle (s :: l) = (strstr needle l).map (· + 1) := by
      rw [strstr, if_neg (by rw [hpre]; exact Bool.false_ne_true)]
    rw [List.nil_append, hcons, strstr_nil hne, Option.none_or]
    rfl
  | cons c b ih =>
    have hpre := isPrefixOf_append_cons hs (c :: b) l
    rw [List.cons_append] at hpre ⊢
    rw [strstr, strstr, hpre, ih]
    split_ifs
    · rfl
    · cases strstr needle b with
      | some i => rfl
      | none =>
        cases strstr needle l with
        | none => rfl
        | some i => simp [Nat.add_assoc]

/-! ### The last occurrence of a character -/

variable {c : UInt8}

/-- `strrchr`: where `c` last occurs. -/
def strrchr (c : UInt8) : List UInt8 → Option Nat
  | [] => none
  | d :: l => ((strrchr c l).map (· + 1)).or (if d = c then some 0 else none)

theorem strrchr_eq_none (h : c ∉ l) : strrchr c l = none := by
  induction l with
  | nil => rfl
  | cons d l ih =>
    rw [List.mem_cons, not_or] at h
    rw [strrchr, ih h.2, if_neg (Ne.symm h.1)]
    rfl

/-- **What stands in front of the last occurrence** is as long as its position says. -/
theorem strrchr_append_cons {b : List UInt8} (hb : c ∉ b) (a : List UInt8) :
    strrchr c (a ++ c :: b) = some a.length := by
  induction a with
  | nil =>
    rw [List.nil_append, strrchr, strrchr_eq_none hb, if_pos rfl]
    rfl
  | cons d a ih =>
    rw [List.cons_append, strrchr, ih]
    rfl

theorem exists_last_append_cons (h : c ∈ l) : ∃ a b, l = a ++ c :: b ∧ c ∉ b := by
  obtain ⟨b, a, hl, hb⟩ := List.eq_append_cons_of_mem (List.mem_reverse.mpr h)
  refine ⟨a.reverse, b.reverse, ?_, fun hc => hb (List.mem_reverse.mp hc)⟩
  rw [← List.reverse_reverse l, hl, List.reverse_append, List.reverse_cons, List.append_assoc,
    List.singleton_append]

/-- What stands behind the last occurrence. -/
theorem rtakeWhile_append_cons {b : List UInt8} (hb : c ∉ b) (a : List UInt8) :
    (a ++ c :: b).rtakeWhile (· ≠ c) = b := by
  induction b using List.reverseRecOn with
  | nil => exact List.rtakeWhile_concat_neg _ _ _ (by simp)
  | append_singleton b d ih =>
    rw [List.mem_append, List.mem_singleton, not_or] at hb
    rw [← List.cons_append, ← List.append_assoc,
      List.rtakeWhile_concat_pos (· ≠ c) _ d (decide_eq_true (Ne.symm hb.2)), ih hb.1]

/-- What stands in front of it, and itself. -/
theorem rdropWhile_append_cons {b : List UInt8} (hb : c ∉ b) (a : List UInt8) :
    (a ++ c :: b).rdropWhile (· ≠ c) = a ++ [c] := by
  have h := List.rdropWhile_append_rtakeWhile (p := (· ≠ c)) (l := a ++ c :: b)
  rw [rtakeWhile_append_cons hb] at h
  exact List.append_cancel_right (h.trans (List.append_cons a c b))

end CLib
