import Luminix.CLib.Replace
import Luminix.Utils

/-!
# Replacing text in a text

`string_replace` replaces every leftmost occurrence that does not overlap with another, and the
memory it allocates is what it writes to (`string_replace_exact`).  For the empty text its loops do
not move on (`replace_loops_end_iff`).
-/

namespace Luminix

open CLib

/-- Some write covers index `j`. -/
def Written (writes : List (Int × List UInt8)) (j : Int) : Prop :=
  ∃ w ∈ writes, w.1 ≤ j ∧ j < w.1 + w.2.length

/-- What is written is what has been allocated. -/
def WritesAllocated (str old new : CString) (fuel : Nat) : Prop :=
  ∃ i count writes, countLoop str old fuel 0 0 = some (i, count) ∧
    replaceLoop old new fuel str.bytes 0 = some writes ∧
    ∀ j : Int, Written writes j ↔ 0 ≤ j ∧ j < replaceSize old new i count

/-- Both loops of `string_replace` come to their end. -/
def LoopsEnd (str old new : CString) : Prop :=
  (∃ fuel, (countLoop str old fuel 0 0).isSome = true) ∧
    ∃ fuel, (replaceLoop old new fuel str.bytes 0).isSome = true

variable {str old new : CString} {a b l r : List UInt8} {n fuel : Nat} {i count : Int}

/-! ### Counting -/

/-- An index that moves on within an `int`. -/
theorem intWrap_add_natCast {i k : Nat} (h : ((i + k : Nat) : Int) ≤ intMax) :
    intWrap ((i : Int) + k) = ((i + k : Nat) : Int) := by
  rw [intMax] at h
  exact intWrap_eq_self ⟨by omega, h⟩

/-- The loop counts what is replaced. -/
theorem countLoop_scanReplaced (h : ScanReplaced old.bytes new.bytes l r n) (hold : old.bytes ≠ [])
    (hstr : str.bytes = a ++ l) (hlen : (str.length : Int) ≤ intMax) (hfuel : l.length < fuel)
    {count : Nat} (hcount : count + l.length ≤ str.length) :
    countLoop str old fuel a.length count = some ((str.length : Int), ((count + n : Nat) : Int)) := by
  have hpos : 0 < old.bytes.length := List.length_pos_iff.mpr hold
  have hold' : old.length = old.bytes.length := rfl
  induction h generalizing a fuel count with
  | nil =>
    obtain ⟨fuel, rfl⟩ := Nat.exists_eq_add_of_lt hfuel
    have hlength : str.length = a.length := by rw [CString.length, hstr, List.append_nil]
    rw [countLoop, if_neg (by omega), if_pos (by rw [hlength]), hlength]
    rfl
  | @skip c l r n hnone _ ih =>
    obtain ⟨fuel, rfl⟩ := Nat.exists_eq_add_of_lt hfuel
    have hlength : str.length = a.length + (l.length + 1) := by
      rw [CString.length, hstr, List.length_append, List.length_cons]
    have hdrop : str.bytes.drop a.length = c :: l := by rw [hstr, List.drop_left]
    rw [List.length_cons] at hcount
    have hnext : intWrap ((a.length : Int) + 1) = ((a ++ [c]).length : Int) := by
      rw [List.length_append]
      exact intWrap_add_natCast (k := 1) (by omega)
    rw [countLoop, if_neg (by omega), if_neg (by omega), Int.toNat_natCast, hdrop,
      if_neg (mt strstr_eq_zero_iff.mp hnone), hnext]
    exact ih (by rw [hstr, List.append_assoc, List.singleton_append])
      (by rw [List.length_cons]; omega) (by omega)
  | @cut l r n _ ih =>
    obtain ⟨fuel, rfl⟩ := Nat.exists_eq_add_of_lt hfuel
    have hlength : str.length = a.length + (old.bytes.length + l.length) := by
      rw [CString.length, hstr, List.length_append, List.length_append]
    have hdrop : str.bytes.drop a.length = old.bytes ++ l := by rw [hstr, List.drop_left]
    rw [List.length_append] at hcount
    have hmore : count + 1 + l.length ≤ str.length := by omega
    have hjump : intWrap ((a.length : Int) + (old.length - 1)) =
        ((a.length + (old.bytes.length - 1) : Nat) : Int) := by
      rw [← intWrap_add_natCast (by omega), Nat.cast_sub (by omega), hold']
      rfl
    have hnext : intWrap (((a.length + (old.bytes.length - 1) : Nat) : Int) + 1) =
        ((a ++ old.bytes).length : Int) := by
      refine (@intWrap_add_natCast _ 1 (by omega)).trans ?_
      rw [List.length_append]
      omega
    have hcount1 : intWrap ((count : Int) + 1) = ((count + 1 : Nat) : Int) :=
      intWrap_add_natCast (k := 1) (by omega)
    rw [countLoop, if_neg (by omega), if_neg (by omega), Int.toNat_natCast, hdrop,
      if_pos (strstr_eq_zero_iff.mpr (List.prefix_append _ _)), hjump, hnext, hcount1]
    have hrest := @ih (a ++ old.bytes) ((old.bytes ++ l).length + fuel)
      (by rw [hstr, List.append_assoc]) (by rw [List.length_append]; omega) (count + 1) hmore
    rw [hrest, Nat.add_right_comm, Nat.add_assoc]

/-- Where the loop ends, its index is that of the terminator, and an `int`. -/
theorem countLoop_end (hi : IsInt i) {j k : Int} (h : countLoop str old fuel i count = some (j, k)) :
    IsInt str.length := by
  induction fuel generalizing i count with
  | zero => cases h
  | succ fuel ih =>
    rw [countLoop] at h
    split_ifs at h with hout hend hmatch
    · exact hend ▸ hi
    · exact ih (isInt_intWrap _) h
    · exact ih (isInt_intWrap _) h

/-- The empty text is found at every index, and the next index is the same. -/
theorem countLoop_nil (hold : old.bytes = []) (hstr : str.bytes ≠ []) (fuel : Nat) (count : Int) :
    countLoop str old fuel 0 count = none := by
  have hpos : 0 < str.length := List.length_pos_iff.mpr hstr
  have hold' : old.length = 0 := by rw [CString.length, hold, List.length_nil]
  have hfound : strstr old.bytes (str.bytes.drop (0 : Int).toNat) = some 0 := by
    rw [hold]
    exact strstr_eq_zero_iff.mpr List.nil_prefix
  have hnext : intWrap (intWrap (0 + ((old.length : Int) - 1)) + 1) = 0 := by
    rw [hold']
    decide
  induction fuel generalizing count with
  | zero => rfl
  | succ fuel ih => rw [countLoop, if_neg (by omega), if_neg (by omega), if_pos hfound, hnext, ih]

/-! ### Writing -/

/-- The loop that writes goes through the text if it moves on at a match. -/
theorem isSome_replaceLoop (hold : old.bytes ≠ []) (hfuel : l.length < fuel) (i : Int) :
    (replaceLoop old new fuel l i).isSome = true := by
  have hpos : 0 < old.length := List.length_pos_iff.mpr hold
  induction fuel generalizing l i with
  | zero => exact absurd hfuel (Nat.not_lt_zero _)
  | succ fuel ih =>
    cases l with
    | nil => rfl
    | cons c l =>
      rw [List.length_cons] at hfuel
      rw [replaceLoop]
      split_ifs
      · rw [Option.isSome_map]
        exact ih (by rw [List.length_drop, List.length_cons]; omega) _
      · rw [Option.isSome_map]
        exact ih (by omega) _

theorem written_cons (w : Int × List UInt8) (writes : List (Int × List UInt8)) (j : Int) :
    Written (w :: writes) j ↔ (w.1 ≤ j ∧ j < w.1 + w.2.length) ∨ Written writes j := by
  rw [Written, Written, List.exists_mem_cons_iff]

/-- What is written is the text with its replacements and a terminator, and nothing else is
written to. -/
theorem replaceLoop_scanReplaced (h : ScanReplaced old.bytes new.bytes l r n) (hold : old.bytes ≠ [])
    (hfuel : l.length < fuel) (hlen : ((a.length + r.length : Nat) : Int) ≤ intMax)
    (hb : b.length = r.length + 1) :
    ∃ writes, replaceLoop old new fuel l a.length = some writes ∧
      writeAll (a ++ b) writes = some (a ++ (r ++ [0])) ∧
      ∀ j, Written writes j ↔ a.length ≤ j ∧ j < a.length + r.length + 1 := by
  have hpos : 0 < old.bytes.length := List.length_pos_iff.mpr hold
  induction h generalizing a b fuel with
  | nil =>
    obtain ⟨fuel, rfl⟩ := Nat.exists_eq_add_of_lt hfuel
    obtain ⟨d, rfl⟩ := List.length_eq_one_iff.mp hb
    refine ⟨[((a.length : Int), [0])], rfl, ?_, fun j => ?_⟩
    · rw [writeAll_cons rfl (show ([0] : List UInt8).length ≤ [d].length from Nat.le_refl 1)]
      rfl
    · simp [Written]
  | @skip c l r n hnone _ ih =>
    obtain ⟨fuel, rfl⟩ := Nat.exists_eq_add_of_lt hfuel
    rw [List.length_cons] at hlen hb
    have hnext : intWrap ((a.length : Int) + 1) = ((a ++ [c]).length : Int) := by
      rw [List.length_append]
      exact @intWrap_add_natCast _ 1 (by omega)
    obtain ⟨writes, hloop, hwrite, hwritten⟩ := @ih (a ++ [c]) (b.drop 1) ((c :: l).length + fuel)
      (by rw [List.length_cons]; omega)
      (by rw [List.length_append, List.length_singleton]; omega)
      (by rw [List.length_drop]; omega)
    refine ⟨((a.length : Int), [c]) :: writes, ?_, ?_, fun j => ?_⟩
    · rw [replaceLoop, if_neg (mt strstr_eq_zero_iff.mp hnone), hnext, hloop]
      rfl
    · rw [writeAll_cons rfl (by rw [List.length_singleton]; omega), ← List.append_assoc,
        List.length_singleton, hwrite, List.append_assoc]
      rfl
    · rw [written_cons, hwritten]
      simp only [List.length_append, List.length_cons, List.length_nil]
      omega
  | @cut l r n _ ih =>
    obtain ⟨fuel, rfl⟩ := Nat.exists_eq_add_of_lt hfuel
    rw [List.length_append] at hlen hb
    have hnext : intWrap ((a.length : Int) + new.length) = ((a ++ new.bytes).length : Int) := by
      rw [List.length_append]
      exact intWrap_add_natCast (by rw [CString.length]; omega)
    obtain ⟨writes, hloop, hwrite, hwritten⟩ := @ih (a ++ new.bytes)
      (0 :: b.drop (new.bytes.length + 1)) ((old.bytes ++ l).length + fuel)
      (by rw [List.length_append]; omega) (by rw [List.length_append]; omega)
      (by rw [List.length_cons, List.length_drop]; omega)
    refine ⟨((a.length : Int), new.bytes ++ [0]) :: writes, ?_, ?_, fun j => ?_⟩
    · obtain ⟨c, t, hcons⟩ := List.exists_cons_of_ne_nil
        (List.append_ne_nil_of_left_ne_nil hold l)
      have hfound := strstr_eq_zero_iff.mpr (List.prefix_append old.bytes l)
      have hdrop : (old.bytes ++ l).drop old.length = l := List.drop_left
      rw [hcons] at hfound hdrop hloop ⊢
      rw [replaceLoop, if_pos hfound, hdrop, hnext, hloop]
      rfl
    · rw [writeAll_cons rfl (by rw [List.length_append, List.length_singleton]; omega)]
      simp only [List.append_assoc, List.length_append, List.length_singleton,
        List.singleton_append] at hwrite ⊢
      exact hwrite
    · rw [written_cons, hwritten]
      simp only [List.length_append, List.length_cons, List.length_nil]
      omega

/-! ### The call -/

/-- The size is that of the result, also if `new` is shorter than `old`. -/
theorem replaceSize_scanReplaced (h : ScanReplaced old.bytes new.bytes str.bytes r n)
    (hr : (r.length : Int) ≤ intMax) : replaceSize old new str.length n = r.length + 1 := by
  have hlength : (r.length : Int) + n * old.length = str.length + n * new.length := by
    exact_mod_cast h.length_add
  have hsize : (str.length : Int) + n * ((new.length : Int) - old.length) + 1 =
      (r.length + 1 : Nat) := by
    rw [Int.mul_sub]
    omega
  rw [intMax] at hr
  rw [replaceSize, hsize]
  omega

/-- **The leftmost occurrences that do not overlap are replaced**, and what is written to is the
memory that has been allocated. -/
theorem string_replace_exact (p : Platform) (fresh : Nat → UInt8) (str old new : CString)
    (hold : old.bytes ≠ []) (hstr : (str.length : Int) ≤ intMax) :
    ∃ (r : CString) (n : Nat), Replaced old.bytes new.bytes str.bytes r.bytes n ∧
      ((r.length : Int) ≤ intMax → ∀ fuel, str.length < fuel →
        stringReplace p fresh fuel (some str) (some old) (some new) =
            some (if p.malloc (r.length + 1) then some r else none) ∧
          WritesAllocated str old new fuel) := by
  obtain ⟨r, n, hscan⟩ := exists_scanReplaced hold new.bytes str.bytes
  have hnul : (0 : UInt8) ∉ r := fun h => (hscan.mem h).elim str.nulFree new.nulFree
  refine ⟨⟨r, hnul⟩, n, hscan.replaced hold, fun hr fuel hfuel => ?_⟩
  have hcount := @countLoop_scanReplaced str old new [] str.bytes r n fuel hscan hold rfl hstr hfuel 0
    (by rw [CString.length]; omega)
  have hsize := replaceSize_scanReplaced hscan hr
  have hfresh : ((List.range (r.length + 1)).map fresh).length = r.length + 1 := by
    rw [List.length_map, List.length_range]
  obtain ⟨writes, hloop, hwrite, hwritten⟩ := @replaceLoop_scanReplaced old new []
    ((List.range (r.length + 1)).map fresh) str.bytes r n fuel hscan hold hfuel
    (by rw [List.length_nil, Nat.zero_add]; exact hr) hfresh
  rw [List.length_nil, Nat.cast_zero] at hcount hloop
  rw [Nat.zero_add] at hcount
  simp only [List.length_nil, Nat.cast_zero, zero_add] at hwritten
  rw [List.nil_append, List.nil_append] at hwrite
  constructor
  · rw [stringReplace, hcount]
    show (if p.malloc (replaceSize old new str.length n) = true then _ else _) = _
    rw [hsize]
    by_cases hmalloc : p.malloc (r.length + 1) = true
    · rw [if_pos hmalloc, hloop]
      show (do let result ← writeAll ((List.range (r.length + 1)).map fresh) writes; _) = _
      have htext : CString.ofBytes (r ++ [0]) = ⟨r, hnul⟩ :=
        CString.ext (CString.ofBytes_append_zero hnul [])
      have hcall : p.malloc ((⟨r, hnul⟩ : CString).length + 1) = true := hmalloc
      rw [hwrite, if_pos hcall, ← htext]
      rfl
    · have hcall : ¬p.malloc ((⟨r, hnul⟩ : CString).length + 1) = true := hmalloc
      rw [if_neg hmalloc, if_neg hcall]
  · refine ⟨str.length, n, writes, hcount, hloop, fun j => ?_⟩
    rw [hwritten, hsize]
    omega

/-- A colon in a time. -/
theorem string_replace_time :
    ∃ (r : CString) (n : Nat),
      Replaced (cstr ":").bytes (cstr "-").bytes (cstr "12:30").bytes r.bytes n ∧
      ((r.length : Int) ≤ intMax → ∀ fuel, (cstr "12:30").length < fuel →
        stringReplace Platform.epoch (fun _ => 0) fuel (some (cstr "12:30")) (some (cstr ":"))
            (some (cstr "-")) = some (if Platform.epoch.malloc (r.length + 1) then some r else none) ∧
          WritesAllocated (cstr "12:30") (cstr ":") (cstr "-") fuel) :=
  string_replace_exact Platform.epoch (fun _ => 0) (cstr "12:30") (cstr ":") (cstr "-")
    (by decide) (by decide)

/-! ### The end of the loops -/

/-- **Both loops end** exactly if the text is empty, or what is replaced is not and the indices of
the text are `int`s. -/
theorem replace_loops_end_iff (str old new : CString) :
    LoopsEnd str old new ↔
      str.bytes = [] ∨ (old.bytes ≠ [] ∧ (str.length : Int) ≤ intMax) := by
  constructor
  · rintro ⟨⟨fuel, hcount⟩, -⟩
    by_cases hstr : str.bytes = []
    · exact .inl hstr
    · obtain ⟨⟨i, count⟩, hend⟩ := Option.isSome_iff_exists.mp hcount
      refine .inr ⟨fun hold => ?_, (countLoop_end (by decide) hend).2⟩
      rw [countLoop_nil hold hstr] at hend
      cases hend
  · rintro (hstr | ⟨hold, hlen⟩)
    · have hlength : str.length = 0 := by rw [CString.length, hstr, List.length_nil]
      refine ⟨⟨1, ?_⟩, 1, by rw [hstr]; rfl⟩
      rw [countLoop, if_neg (by omega), if_pos (by omega)]
      rfl
    · obtain ⟨r, n, hscan⟩ := exists_scanReplaced hold new.bytes str.bytes
      have hcount := @countLoop_scanReplaced str old new [] str.bytes r n (str.length + 1) hscan hold
        rfl hlen (Nat.lt_succ_self _) 0 (by rw [CString.length]; omega)
      exact ⟨⟨str.length + 1, Option.isSome_of_eq_some hcount⟩, str.length + 1,
        isSome_replaceLoop hold (Nat.lt_succ_self _) 0⟩

/-- The empty text is looked for in one letter. -/
theorem replace_loops_end_empty : ¬∀ str old new : CString, LoopsEnd str old new := by
  intro h
  obtain ⟨⟨fuel, hcount⟩, -⟩ := h (cstr "a") (cstr "") (cstr "b")
  rw [countLoop_nil (by decide) (by decide)] at hcount
  cases hcount

end Luminix
