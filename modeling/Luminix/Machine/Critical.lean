import Luminix.Machine.Reach
import Mathlib.Logic.Function.Iterate

/-!
# Critical sections

Threads that pass one mutex before they touch a shared value.  A critical section is a list of
`instructions`, each of which acts on the shared value and on a local one; threads take the mutex,
advance by one instruction, and release it, in any order.  At most one thread is inside
(`Reachable.inside_iff`), and the sections are serializable: the results are those of the same
number of whole sections one after the other (`Reachable.results_eq`).
-/

namespace Machine

namespace Critical

variable {σ ρ π : Type*}

/-- An instruction of the critical section, on the shared and the local value. -/
abbrev Instruction (σ ρ : Type*) := σ × ρ → σ × ρ

/-- Where a thread is: outside, or inside with its local value and what is left to do. -/
inductive Phase (σ ρ : Type*)
  | outside
  | inside (loc : ρ) (rest : List (Instruction σ ρ))

/-- The shared value, the owner of the mutex, the threads, and the results in the order of their
release. -/
structure State (σ ρ π : Type*) where
  shared : σ
  owner : Option π
  phase : π → Phase σ ρ
  results : List (π × ρ)

/-- What the scheduler lets a thread do. -/
inductive Act (π : Type*)
  | acquire (thread : π)
  | advance (thread : π)
  | release (thread : π)

/-- Nobody has taken the mutex. -/
def Init (s₀ : σ) (s : State σ ρ π) : Prop :=
  s.shared = s₀ ∧ s.owner = none ∧ (∀ p, s.phase p = .outside) ∧ s.results = []

/-- The whole section in one step: the shared value behind it and the result. -/
def whole (body : List (Instruction σ ρ)) (start : ρ) (s : σ) : σ × ρ :=
  body.foldl (fun x instruction => instruction x) (s, start)

/-- The results of `n` whole sections one after the other, and the shared value behind them. -/
def serial (body : List (Instruction σ ρ)) (start : ρ) (s₀ : σ) : Nat → List ρ × σ
  | 0 => ([], s₀)
  | n + 1 =>
    let done := serial body start s₀ n
    (done.1 ++ [(whole body start done.2).2], (whole body start done.2).1)

/-- One step of a thread.  It waits while the mutex is taken; nothing but the mutex keeps two
threads from being inside. -/
def step [DecidableEq π] (body : List (Instruction σ ρ)) (start : ρ) (s : State σ ρ π) :
    Act π → State σ ρ π
  | .acquire p =>
    match s.phase p, s.owner with
    | .outside, none =>
      { s with owner := some p, phase := Function.update s.phase p (.inside start body) }
    | _, _ => s
  | .advance p =>
    match s.phase p with
    | .inside loc (instruction :: rest) =>
      { s with
        shared := (instruction (s.shared, loc)).1
        phase := Function.update s.phase p (.inside (instruction (s.shared, loc)).2 rest) }
    | _ => s
  | .release p =>
    match s.phase p with
    | .inside loc [] =>
      { s with
        owner := none
        phase := Function.update s.phase p .outside
        results := s.results ++ [(p, loc)] }
    | _ => s

/-- The states that any schedule leads to. -/
def Reachable [DecidableEq π] (body : List (Instruction σ ρ)) (start : ρ) (s₀ : σ) :
    State σ ρ π → Prop :=
  Reach (Init s₀) (step body start) fun _ _ => True

variable {body : List (Instruction σ ρ)} {start : ρ} {s₀ : σ} {s : State σ ρ π}

@[simp] theorem length_serial (n : Nat) : (serial body start s₀ n).1.length = n := by
  induction n with
  | zero => rfl
  | succ n ih =>
    rw [serial]
    simp [ih]

/-! ### The invariant -/

/-- What a thread that is inside still does to the shared value ends where the whole section would
have ended; with nobody inside the sections so far are all there is. -/
structure Inv (body : List (Instruction σ ρ)) (start : ρ) (s₀ : σ) (s : State σ ρ π) : Prop where
  outside : ∀ p, s.owner ≠ some p → s.phase p = .outside
  results : s.results.map Prod.snd = (serial body start s₀ s.results.length).1
  free : s.owner = none → s.shared = (serial body start s₀ s.results.length).2
  taken : ∀ p, s.owner = some p → ∃ loc rest, s.phase p = .inside loc rest ∧
    rest.foldl (fun x instruction => instruction x) (s.shared, loc) =
      whole body start (serial body start s₀ s.results.length).2

theorem Inv.of_init (h : Init s₀ s) : Inv body start s₀ s := by
  obtain ⟨hshared, howner, hphase, hresults⟩ := h
  refine ⟨fun p _ => hphase p, ?_, fun _ => ?_, fun p hp => ?_⟩
  · rw [hresults]
    rfl
  · rw [hresults, hshared]
    rfl
  · rw [howner] at hp
    cases hp

/-- A thread that is inside owns the mutex. -/
theorem Inv.owner_eq (h : Inv body start s₀ s) {p : π} {loc : ρ} {rest : List (Instruction σ ρ)}
    (hp : s.phase p = .inside loc rest) : s.owner = some p := by
  by_contra hne
  rw [h.outside p hne] at hp
  cases hp

variable [DecidableEq π]

theorem Inv.step (h : Inv body start s₀ s) (a : Act π) :
    Inv body start s₀ (Critical.step body start s a) := by
  cases a with
  | acquire p =>
    rw [Critical.step]
    split
    next hp howner =>
      refine ⟨fun q hq => ?_, h.results, fun hnone => ?_, fun q hq => ?_⟩
      · have hne : q ≠ p := fun heq => hq (heq ▸ rfl)
        dsimp only
        rw [Function.update_of_ne hne]
        exact h.outside q (by simp [howner])
      · cases hnone
      · obtain rfl : p = q := Option.some.inj hq
        refine ⟨start, body, Function.update_self _ _ _, ?_⟩
        dsimp only
        rw [h.free howner]
        rfl
    next => exact h
  | advance p =>
    rw [Critical.step]
    split
    next loc instruction rest hp =>
      have howner := h.owner_eq hp
      refine ⟨fun q hq => ?_, h.results, fun hnone => ?_, fun q hq => ?_⟩
      · have hne : q ≠ p := fun heq => hq (heq ▸ howner)
        dsimp only
        rw [Function.update_of_ne hne]
        exact h.outside q hq
      · rw [howner] at hnone
        cases hnone
      · obtain rfl : p = q := Option.some.inj (howner.symm.trans hq)
        obtain ⟨loc', rest', hp', hrest⟩ := h.taken p howner
        rw [hp] at hp'
        obtain ⟨rfl, rfl⟩ := Phase.inside.inj hp'
        exact ⟨_, rest, Function.update_self _ _ _, hrest⟩
    next => exact h
  | release p =>
    rw [Critical.step]
    split
    next loc hp =>
      have howner := h.owner_eq hp
      -- nothing is left to do, so the section has ended where a whole one does
      obtain ⟨loc', rest', hp', hrest⟩ := h.taken p howner
      rw [hp] at hp'
      obtain ⟨rfl, rfl⟩ := Phase.inside.inj hp'
      have hwhole : (s.shared, loc) =
          whole body start (serial body start s₀ s.results.length).2 := hrest
      refine ⟨fun q _ => ?_, ?_, fun _ => ?_, fun q hq => ?_⟩
      · by_cases hq : q = p
        · subst q
          exact Function.update_self _ _ _
        · dsimp only
          rw [Function.update_of_ne hq]
          exact h.outside q fun hown => hq (Option.some.inj (hown.symm.trans howner))
      · dsimp only
        rw [List.map_append, h.results, List.length_append, List.length_singleton, serial,
          ← hwhole]
        rfl
      · dsimp only
        rw [List.length_append, List.length_singleton, serial, ← hwhole]
      · cases hq
    next => exact h

/-! ### All schedules -/

theorem Reachable.inv (h : Reachable body start s₀ s) : Inv body start s₀ s :=
  Reach.invariant (fun _ h0 => .of_init h0) (fun _ a hs _ => hs.step a) h

/-- **Mutual exclusion.**  A thread is inside exactly if it owns the mutex. -/
theorem Reachable.inside_iff (h : Reachable body start s₀ s) (p : π) :
    s.phase p ≠ .outside ↔ s.owner = some p := by
  constructor
  · intro hp
    by_contra hne
    exact hp (h.inv.outside p hne)
  · intro hp
    obtain ⟨loc, rest, hphase, -⟩ := h.inv.taken p hp
    rw [hphase]
    exact fun hout => by cases hout

/-- **The results are those of whole sections one after the other.** -/
theorem Reachable.results_eq (h : Reachable body start s₀ s) :
    s.results.map Prod.snd = (serial body start s₀ s.results.length).1 := h.inv.results

theorem step_advance (body : List (Instruction σ ρ)) (start : ρ) {p : π} {loc : ρ}
    {instruction : Instruction σ ρ} {rest : List (Instruction σ ρ)}
    (hp : s.phase p = .inside loc (instruction :: rest)) :
    ∃ loc', (step body start s (.advance p)).phase p = .inside loc' rest := by
  refine ⟨(instruction (s.shared, loc)).2, ?_⟩
  rw [step, hp]
  exact Function.update_self _ _ _

theorem step_release (body : List (Instruction σ ρ)) (start : ρ) {p : π} {loc : ρ}
    (hp : s.phase p = .inside loc []) :
    (step body start s (.release p)).owner = none ∧
      (step body start s (.release p)).results = s.results ++ [(p, loc)] := by
  rw [step, hp]
  exact ⟨rfl, rfl⟩

theorem step_advance_results (s : State σ ρ π) (p : π) :
    (step body start s (.advance p)).results = s.results := by
  rw [step]
  split <;> rfl

/-- **The owner can always finish**, without the others: it advances to the end of the section and
releases the mutex. -/
theorem exists_release {p : π} {loc : ρ} {rest : List (Instruction σ ρ)}
    (hp : s.phase p = .inside loc rest) :
    (run (step body start) s (List.replicate rest.length (.advance p) ++ [.release p])).owner =
        none ∧
      (run (step body start) s (List.replicate rest.length (.advance p) ++
        [.release p])).results.length = s.results.length + 1 := by
  induction rest generalizing s loc with
  | nil =>
    obtain ⟨howner, hresults⟩ := step_release body start hp
    exact ⟨howner, (congrArg List.length hresults).trans List.length_append⟩
  | cons instruction rest ih =>
    obtain ⟨loc', hp'⟩ := step_advance body start hp
    have hrest := ih hp'
    rwa [step_advance_results] at hrest

end Critical

end Machine
