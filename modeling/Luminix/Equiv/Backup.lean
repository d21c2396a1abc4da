import Luminix.Backup
import Mathlib.Data.List.Basic

/-!
# Complete backups

A copy reports success once both files have been opened, whatever becomes of the transfers.  It is
complete exactly if nothing went wrong (`backup_complete_iff`): each `fwrite` stores what `fread` has
returned, and `fread` returns nothing at the end of the source only.
-/

namespace Luminix

open CLib

/-- From call `i` on, with `n` bytes left: each `fread` returns something until nothing is left, and
each `fwrite` stores all of that. -/
inductive Transfers (io : CopyIo) : (i n : Nat) → Prop
  | done (i : Nat) : Transfers io i 0
  | more {i n : Nat} (hread : 0 < io.read i n) (hwrite : io.read i n ≤ io.writes i)
      (hrest : Transfers io (i + 1) (n - io.read i n)) : Transfers io i n

/-- Where the copy reports success, the destination holds what the source held. -/
def IsComplete (files : Files) (srcPath destPath : CString) (res : Int × Files) : Prop :=
  res.1 = 0 → res.2 destPath = files srcPath

/-- The source is empty or another file than the destination, and its bytes are transferred. -/
def CopiesAll (io : CopyIo) (files : Files) (srcPath destPath : CString) : Prop :=
  ∀ src, files srcPath = some src → io.opensSource = true → io.opensDest = true →
    src = [] ∨ srcPath ≠ destPath ∧ Transfers io 0 src.length

variable {io : CopyIo} {files : Files} {srcPath destPath : CString}

theorem read_le (io : CopyIo) (i n : Nat) : io.read i n ≤ n :=
  (Nat.min_le_right _ _).trans (Nat.min_le_right _ _)

theorem Transfers.cases {i n : Nat} (h : Transfers io i n) :
    n = 0 ∨ 0 < io.read i n ∧ io.read i n ≤ io.writes i ∧ Transfers io (i + 1) (n - io.read i n) := by
  cases h with
  | done => exact .inl rfl
  | more hread hwrite hrest => exact .inr ⟨hread, hwrite, hrest⟩

/-- **The loop writes no more than the source holds, and all of it exactly if everything is
transferred.** -/
theorem copyLoop_spec {fuel i : Nat} {src : List UInt8} (hfuel : src.length < fuel)
    (dest : List UInt8) : ∃ out, copyLoop io fuel i src dest = dest ++ out ∧
      out.length ≤ src.length ∧ (src.length ≤ out.length → Transfers io i src.length) ∧
        (Transfers io i src.length → out = src) := by
  induction fuel generalizing i src dest with
  | zero => exact absurd hfuel (Nat.not_lt_zero _)
  | succ fuel ih =>
    have hle := read_le io i src.length
    rw [copyLoop]
    split_ifs with hread
    · have hdrop : (src.drop (io.read i src.length)).length = src.length - io.read i src.length :=
        List.length_drop
      obtain ⟨out, hloop, hlength, htransfers, hcopied⟩ := @ih (i + 1)
        (src.drop (io.read i src.length)) (by omega)
        (dest ++ (src.take (io.read i src.length)).take (io.writes i))
      rw [hdrop] at hlength htransfers hcopied
      refine ⟨(src.take (io.read i src.length)).take (io.writes i) ++ out, ?_, ?_, fun h => ?_,
        fun h => ?_⟩
      · rw [hloop, List.append_assoc]
      · simp only [List.length_append, List.length_take]
        omega
      · simp only [List.length_append, List.length_take] at h
        exact .more hread (by omega) (htransfers (by omega))
      · rcases h.cases with hzero | ⟨-, hwrite, hrest⟩
        · omega
        · have hchunk : (src.take (io.read i src.length)).take (io.writes i) =
              src.take (io.read i src.length) := by
            rw [List.take_take, Nat.min_eq_right hwrite]
          rw [hchunk, hcopied hrest, List.take_append_drop]
    · refine ⟨[], (List.append_nil dest).symm, Nat.zero_le _, fun h => ?_, fun h => ?_⟩
      · rw [Nat.le_zero.mp h]
        exact .done i
      · rcases h.cases with hzero | ⟨hpos, -, -⟩
        · exact (List.length_eq_zero_iff.mp hzero).symm
        · exact absurd hpos hread

/-- The whole source is copied. -/
theorem copyLoop_eq_iff (src : List UInt8) :
    copyLoop io (src.length + 1) 0 src [] = src ↔ Transfers io 0 src.length := by
  obtain ⟨out, hloop, -, htransfers, hcopied⟩ :=
    @copyLoop_spec io (src.length + 1) 0 src (Nat.lt_succ_self _) []
  rw [hloop, List.nil_append]
  exact ⟨fun h => htransfers (by rw [h]), hcopied⟩

/-- A copy that can be made is reported, and its destination holds what the loop has written. -/
theorem copyFile_of_opens {src : List UInt8} (hsrc : files srcPath = some src)
    (hopens : io.opensSource = true) (hdest : io.opensDest = true) :
    (copyFile io files srcPath destPath).1 = 0 ∧
      ((copyFile io files srcPath destPath).2 destPath = some src ↔
        src = [] ∨ srcPath ≠ destPath ∧ Transfers io 0 src.length) := by
  rw [copyFile, if_pos ⟨by rw [hsrc]; rfl, hopens⟩, if_pos hdest]
  refine ⟨rfl, ?_⟩
  dsimp only
  rw [Function.update_self]
  by_cases hpath : srcPath = destPath
  · -- the source has been emptied
    have hopened : (Function.update files destPath (some []) srcPath).getD [] = [] := by
      rw [hpath, Function.update_self]
      rfl
    have hloop : copyLoop io 1 0 [] [] = [] := (copyLoop_eq_iff []).mpr (.done 0)
    rw [hopened, List.length_nil, Nat.zero_add, hloop, Option.some_inj]
    exact ⟨fun h => .inl h.symm, fun h => h.elim Eq.symm fun h => absurd hpath h.1⟩
  · have hopened : (Function.update files destPath (some []) srcPath).getD [] = src := by
      rw [Function.update_of_ne hpath, hsrc]
      rfl
    rw [hopened, Option.some_inj, copyLoop_eq_iff]
    refine ⟨fun h => .inr ⟨hpath, h⟩, ?_⟩
    rintro (rfl | ⟨-, h⟩)
    · exact .done 0
    · exact h

theorem copyFile_complete_iff (io : CopyIo) (files : Files) (srcPath destPath : CString) :
    IsComplete files srcPath destPath (copyFile io files srcPath destPath) ↔
      CopiesAll io files srcPath destPath := by
  rw [IsComplete, CopiesAll]
  by_cases hopens : ∃ src, files srcPath = some src ∧ io.opensSource = true ∧ io.opensDest = true
  · obtain ⟨src, hsrc, hsource, hdest⟩ := hopens
    obtain ⟨hzero, hcopy⟩ := @copyFile_of_opens io files srcPath destPath src hsrc hsource hdest
    rw [hsrc, hcopy]
    constructor
    · rintro h src' hsrc' - -
      obtain rfl := Option.some.inj hsrc'
      exact h hzero
    · exact fun h _ => h src rfl hsource hdest
  · have hfails : (copyFile io files srcPath destPath).1 = -1 := by
      rw [copyFile]
      split_ifs with hsource hdest
      · obtain ⟨src, hsrc⟩ := Option.isSome_iff_exists.mp hsource.1
        exact absurd ⟨src, hsrc, hsource.2, hdest⟩ hopens
      · rfl
      · rfl
    refine iff_of_true (fun h => ?_) fun src hsrc hsource hdest =>
      absurd ⟨src, hsrc, hsource, hdest⟩ hopens
    rw [hfails] at h
    cases h

/-- Both functions report what `copy_file` reports. -/
theorem isComplete_report (res : Int × Files) :
    IsComplete files srcPath destPath (if res.1 = 0 then (0, res.2) else (-1, res.2)) ↔
      IsComplete files srcPath destPath res := by
  unfold IsComplete
  split_ifs with h
  · simp [h]
  · simp [h]

/-- **A backup that is reported is complete** exactly if everything has been transferred, and so is a
restored file. -/
theorem backup_complete_iff (io : CopyIo) (t : Tm) (files : Files) :
    (∀ source dir, IsComplete files source (backupPath t dir)
        (backupCreate io t files (some source) (some dir)) ↔
      CopiesAll io files source (backupPath t dir)) ∧
    ∀ backup target, IsComplete files backup target
        (backupRestore io files (some backup) (some target)) ↔
      CopiesAll io files backup target := by
  constructor
  · exact fun source dir => (isComplete_report _).trans (copyFile_complete_iff _ _ _ _)
  · exact fun backup target => (isComplete_report _).trans (copyFile_complete_iff _ _ _ _)

/-- A disk that is full: nothing is stored, and success is reported. -/
theorem backup_incomplete : ¬∀ (io : CopyIo) (files : Files) (backup target : CString),
    IsComplete files backup target (backupRestore io files (some backup) (some target)) := by
  intro h
  have hcomplete := h ⟨true, true, fun _ => copyBufferSize, fun _ => 0⟩
    (fun path => if path = cstr "backup.db" then some [1] else none) (cstr "backup.db")
    (cstr "data.db") (by decide)
  exact absurd hcomplete (by decide)

end Luminix
