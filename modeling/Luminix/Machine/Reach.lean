import Mathlib.Data.List.Basic
import Mathlib.Data.List.Infix

/-!
# Runs of a deterministic machine

A machine is a function `step : σ → ι → σ`.  `run` folds it over a list of inputs, `Admits` says
that every step of a run meets a guard, and `Reach` collects the states that guarded steps lead to.
The two rules used everywhere are `Reach.invariant` (an inductive invariant holds in every reached
state) and `forall_prefix_iff_admits` (when one step preserves `P` exactly if the guard holds, `P`
holds throughout a run exactly if every step of the run meets the guard).
-/

namespace Machine

variable {σ τ ι κ : Type*}

/-- The state a list of inputs leads to. -/
def run (step : σ → ι → σ) (s : σ) (is : List ι) : σ := is.foldl step s

/-- Every step of the run meets the guard `ok`, in the state it is taken in. -/
def Admits (step : σ → ι → σ) (ok : σ → ι → Prop) : σ → List ι → Prop
  | _, [] => True
  | s, i :: is => ok s i ∧ Admits step ok (step s i) is

instance Admits.decidable (step : σ → ι → σ) (ok : σ → ι → Prop) [∀ s i, Decidable (ok s i)] :
    ∀ (s : σ) (is : List ι), Decidable (Admits step ok s is)
  | _, [] => .isTrue trivial
  | s, i :: is =>
    have := Admits.decidable step ok (step s i) is
    inferInstanceAs (Decidable (ok s i ∧ Admits step ok (step s i) is))

/-- The states reached from `init` by steps that meet the guard `ok`. -/
inductive Reach (init : σ → Prop) (step : σ → ι → σ) (ok : σ → ι → Prop) : σ → Prop
  | start {s : σ} : init s → Reach init step ok s
  | next {s : σ} {i : ι} : Reach init step ok s → ok s i → Reach init step ok (step s i)

@[simp] theorem run_nil (step : σ → ι → σ) (s : σ) : run step s [] = s := rfl

@[simp] theorem run_cons (step : σ → ι → σ) (s : σ) (i : ι) (is : List ι) :
    run step s (i :: is) = run step (step s i) is := rfl

theorem run_append (step : σ → ι → σ) (s : σ) (is js : List ι) :
    run step s (is ++ js) = run step (run step s is) js := List.foldl_append

/-! ### Invariants -/

section

variable {init : σ → Prop} {step : σ → ι → σ} {ok : σ → ι → Prop} {P : σ → Prop}

/-- **Invariant rule.** -/
theorem Reach.invariant (hinit : ∀ s, init s → P s)
    (hstep : ∀ s i, P s → ok s i → P (step s i)) {s : σ} (h : Reach init step ok s) : P s := by
  induction h with
  | start h0 => exact hinit _ h0
  | next _ hok ih => exact hstep _ _ ih hok

/-- A weaker guard reaches more. -/
theorem Reach.mono {ok' : σ → ι → Prop} (hok : ∀ s i, ok s i → ok' s i) {s : σ}
    (h : Reach init step ok s) : Reach init step ok' s := by
  induction h with
  | start h0 => exact .start h0
  | next _ h1 ih => exact .next ih (hok _ _ h1)

/-- A guard that admits every step admits every run. -/
theorem Admits.of_forall (h : ∀ s i, ok s i) (s : σ) (is : List ι) : Admits step ok s is := by
  induction is generalizing s with
  | nil => trivial
  | cons i is ih => exact ⟨h s i, ih _⟩

/-- So does a guard that admits each step of the run in every state. -/
theorem Admits.of_forall_mem {is : List ι} (h : ∀ i ∈ is, ∀ s, ok s i) (s : σ) :
    Admits step ok s is := by
  induction is generalizing s with
  | nil => trivial
  | cons i is ih =>
    exact ⟨h i List.mem_cons_self s, ih (fun j hj => h j (List.mem_cons_of_mem i hj)) _⟩

/-- Two guards that agree wherever the run comes to admit the same run. -/
theorem admits_congr {ok' : σ → ι → Prop} {is : List ι} {s : σ}
    (h : ∀ pre i, pre ++ [i] <+: is → (ok (run step s pre) i ↔ ok' (run step s pre) i)) :
    Admits step ok s is ↔ Admits step ok' s is := by
  induction is generalizing s with
  | nil => exact Iff.rfl
  | cons i is ih =>
    refine and_congr (h [] i (by simp)) (ih fun pre j hpre => ?_)
    exact h (i :: pre) j (List.cons_prefix_cons.mpr ⟨rfl, hpre⟩)

/-- So do two guards that agree where `P` holds, if the second keeps `P`. -/
theorem admits_iff_of_invariant {ok' : σ → ι → Prop} (hok : ∀ s i, P s → (ok s i ↔ ok' s i))
    (hstep : ∀ s i, P s → ok' s i → P (step s i)) {s : σ} (hs : P s) (is : List ι) :
    Admits step ok s is ↔ Admits step ok' s is := by
  induction is generalizing s with
  | nil => exact Iff.rfl
  | cons i is ih =>
    have hi := hok s i hs
    constructor
    · rintro ⟨h, hrest⟩
      exact ⟨hi.mp h, (ih (hstep s i hs (hi.mp h))).mp hrest⟩
    · rintro ⟨h, hrest⟩
      exact ⟨hi.mpr h, (ih (hstep s i hs h)).mpr hrest⟩

/-- A run is admitted if each of its steps is, behind the steps in front of it. -/
theorem admits_iff_forall_prefix {is : List ι} {s : σ} :
    Admits step ok s is ↔ ∀ pre i, pre ++ [i] <+: is → ok (Machine.run step s pre) i := by
  induction is generalizing s with
  | nil => simp [Admits]
  | cons j is ih =>
    constructor
    · rintro ⟨hj, hrest⟩ pre i hpre
      cases pre with
      | nil =>
        obtain ⟨rfl, -⟩ := List.cons_prefix_cons.mp hpre
        exact hj
      | cons k pre =>
        obtain ⟨rfl, htail⟩ := List.cons_prefix_cons.mp hpre
        exact ih.mp hrest pre i htail
    · intro h
      refine ⟨h [] j (by simp), ih.mpr fun pre i hpre => ?_⟩
      exact h (j :: pre) i (List.cons_prefix_cons.mpr ⟨rfl, hpre⟩)

/-- A guarded run stays among the reached states. -/
theorem Reach.run {s : σ} (h : Reach init step ok s) :
    ∀ {is : List ι}, Admits step ok s is → Reach init step ok (run step s is) := by
  intro is
  induction is generalizing s with
  | nil => exact fun _ => h
  | cons i is ih => exact fun hadm => ih (.next h hadm.1) hadm.2

/-- What every guarded step preserves, a guarded run preserves. -/
theorem run_invariant (hstep : ∀ s i, P s → ok s i → P (step s i)) {s : σ} {is : List ι}
    (hs : P s) (hadm : Admits step ok s is) : P (run step s is) := by
  induction is generalizing s with
  | nil => exact hs
  | cons i is ih => exact ih (hstep s i hs hadm.1) hadm.2

/-- What relates the states of two machines is kept while they take the same inputs. -/
theorem run_related {step' : τ → ι → τ} {R : σ → τ → Prop} {good : ι → Prop}
    (hstep : ∀ s t i, R s t → good i → R (step s i) (step' t i)) {s : σ} {t : τ} (h : R s t)
    {is : List ι} (his : ∀ i ∈ is, good i) : R (Machine.run step s is) (Machine.run step' t is) := by
  induction is generalizing s t with
  | nil => exact h
  | cons i is ih =>
    rw [List.forall_mem_cons] at his
    exact ih (hstep s t i h his.1) his.2

/-- **The exact guard of a property.**  If, from a state where `P` holds, a step preserves `P`
exactly when the guard admits it, then `P` holds after every prefix of a run exactly when the
guard admits every step of the run. -/
theorem forall_prefix_iff_admits {is : List ι}
    (hstep : ∀ s, ∀ i ∈ is, P s → (P (step s i) ↔ ok s i)) {s : σ} (hs : P s) :
    (∀ pre, pre <+: is → P (Machine.run step s pre)) ↔ Admits step ok s is := by
  induction is generalizing s with
  | nil =>
    refine ⟨fun _ => trivial, fun _ pre hpre => ?_⟩
    rw [List.prefix_nil.mp hpre]
    exact hs
  | cons i is ih =>
    have hhead := hstep s i List.mem_cons_self hs
    have htail := fun h => ih (fun s j hj => hstep s j (List.mem_cons_of_mem i hj)) (s := step s i) h
    constructor
    · intro h
      have h1 : P (step s i) := h [i] (by simp)
      refine ⟨hhead.mp h1, (htail h1).mp fun pre hpre => ?_⟩
      exact h (i :: pre) (List.cons_prefix_cons.mpr ⟨rfl, hpre⟩)
    · rintro ⟨hok, hadm⟩ pre hpre
      cases pre with
      | nil => exact hs
      | cons j pre =>
        obtain ⟨rfl, hpre'⟩ := List.cons_prefix_cons.mp hpre
        exact (htail (hhead.mpr hok)).mpr hadm pre hpre'

end

end Machine
