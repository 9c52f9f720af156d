/-
Runs are iterated steps.

Steps that take a transition can be counted (`Takes`), and the first that takes none finds the
machine at the exit or stuck (`takes_or_stops`). A run makes the steps up to that one and
returns what it found, unless its limit comes first. So each call of a step or of a run brings
a machine further on the one way that it has (`Reaches`), and it does not matter how the way is
divided into calls.
-/
import SignalGraph.Proofs.Machines

namespace SignalGraph.Machine

/-! ## Steps one after the other -/

/-- So many steps take a transition each. -/
inductive Takes : Nat → Machine → Machine → Prop
  | zero {m : Machine} : Takes 0 m m
  | succ {k : Nat} {m m₁ m' : Machine} {target : StateId} :
      step m = .ok (.moved target) m₁ → Takes k m₁ m' → Takes (k + 1) m m'

/-- A step takes a transition, or does no more than to enter the entry: at the exit, or where no
edge can be taken. -/
theorem step_outcomes (m : Machine) :
    step m = .ok .halted m.start ∨ (∃ state, step m = .error (.deadEnd state) m.start) ∨
      ∃ target m', step m = .ok (.moved target) m' := by
  rcases step_cases m with ⟨-, hs⟩ | ⟨-, ⟨target, -, hs⟩ | ⟨e, hn, hs⟩⟩
  · exact .inl hs
  · exact .inr (.inr ⟨target, _, hs⟩)
  · refine .inr (.inl ?_)
    unfold next at hn
    split at hn
    · cases hn
      exact ⟨_, hs⟩
    · split at hn
      · cases hn
        exact ⟨_, hs⟩
      · cases hn

/-- A machine that has taken a transition is started. -/
theorem start_of_moved {m m' : Machine} {target : StateId} (h : step m = .ok (.moved target) m') :
    m'.start = m' := by
  obtain ⟨-, -, rfl⟩ := step_eq_moved.mp h
  exact start_of_started (start_started m)

namespace Takes

variable {j k : Nat} {m m₁ m' : Machine}

theorem trans (h : Takes j m m₁) (h' : Takes k m₁ m') : Takes (j + k) m m' := by
  induction h with
  | zero => rwa [Nat.zero_add]
  | succ hstep _ ih =>
    rw [Nat.add_right_comm]
    exact .succ hstep (ih h')

theorem snoc {target : StateId} (h : Takes k m m₁) (hstep : step m₁ = .ok (.moved target) m') :
    Takes (k + 1) m m' :=
  h.trans (.succ hstep .zero)

theorem last (h : Takes (k + 1) m m') : ∃ m₁ target, Takes k m m₁ ∧ step m₁ = .ok (.moved target) m' := by
  induction k generalizing m with
  | zero =>
    cases h with
    | succ hstep hrest =>
      cases hrest
      exact ⟨m, _, .zero, hstep⟩
  | succ k ih =>
    cases h with
    | succ hstep hrest =>
      obtain ⟨m₂, target, ht, hlast⟩ := ih hrest
      exact ⟨m₂, target, .succ hstep ht, hlast⟩

/-- A run makes as many steps as its limit allows, and goes on from there. -/
theorem runFor (h : Takes k m m₁) (limit : Nat) {allowed : Nat} (hk : k ≤ allowed) (taken : Nat) :
    runFor limit allowed taken m = runFor limit (allowed - k) (taken + k) m₁ := by
  induction h generalizing allowed taken with
  | zero => rfl
  | @succ k m m₁ _ _ hstep _ ih =>
    obtain ⟨allowed, rfl⟩ : ∃ n, allowed = n + 1 := ⟨allowed - 1, by omega⟩
    have hfirst : Machine.runFor limit (allowed + 1) taken m = Machine.runFor limit allowed (taken + 1) m₁ := by
      simp only [Machine.runFor, hstep]
    rw [hfirst, ih (by omega), Nat.add_sub_add_right, Nat.add_assoc, Nat.add_comm 1]

end Takes

/-- Of so many steps all take a transition, or the first that takes none finds the machine at the
exit or stuck. -/
theorem takes_or_stops (n : Nat) (m : Machine) :
    (∃ m', Takes n m m') ∨ ∃ k m₁, k < n ∧ Takes k m m₁ ∧
      (step m₁ = .ok .halted m₁.start ∨ ∃ state, step m₁ = .error (.deadEnd state) m₁.start) := by
  induction n with
  | zero => exact .inl ⟨m, .zero⟩
  | succ n ih =>
    rcases ih with ⟨m₁, ht⟩ | ⟨k, m₁, hk, hstop⟩
    · rcases step_outcomes m₁ with hs | ⟨state, hs⟩ | ⟨target, m', hs⟩
      · exact .inr ⟨n, m₁, Nat.lt_succ_self n, ht, .inl hs⟩
      · exact .inr ⟨n, m₁, Nat.lt_succ_self n, ht, .inr ⟨state, hs⟩⟩
      · exact .inl ⟨m', ht.snoc hs⟩
    · exact .inr ⟨k, m₁, Nat.lt_succ_of_lt hk, hstop⟩

/-- How many transitions are taken by the next `n` steps, before the first that takes none. -/
def transitionsWithin : Nat → Machine → Nat
  | 0, _ => 0
  | n + 1, m =>
    match step m with
    | .ok (.moved _) m' => transitionsWithin n m' + 1
    | .ok .halted _ | .error _ _ => 0

theorem Takes.transitionsWithin {k : Nat} {m m₁ : Machine} (h : Takes k m m₁) (n : Nat) :
    transitionsWithin (k + n) m = k + transitionsWithin n m₁ := by
  induction h with
  | zero => simp only [Nat.zero_add]
  | @succ k m m₁ _ _ hstep _ ih =>
    have hfirst : Machine.transitionsWithin (k + n + 1) m = Machine.transitionsWithin (k + n) m₁ + 1 := by
      simp only [Machine.transitionsWithin, hstep]
    rw [Nat.add_right_comm, hfirst, ih, Nat.add_right_comm]

/-! ## What a run returns -/

section

variable {k : Nat} {m m₁ m' : Machine}

theorem run_of_halted (hk : k ≤ m.settings.maxSteps) (ht : Takes k m m₁) (hs : step m₁ = .ok .halted m') :
    run m = .ok k m' := by
  show runFor _ _ 0 m = _
  rw [ht.runFor _ hk, Nat.zero_add]
  cases m.settings.maxSteps - k <;> simp only [runFor, hs]

theorem run_of_error {e : RunError} (hk : k ≤ m.settings.maxSteps) (ht : Takes k m m₁)
    (hs : step m₁ = .error e m') : run m = .error e m' := by
  show runFor _ _ 0 m = _
  rw [ht.runFor _ hk]
  cases m.settings.maxSteps - k <;> simp only [runFor, hs]

/-- A run that could go on has taken one transition more than its limit allows. -/
theorem run_of_exceeded (ht : Takes (m.settings.maxSteps + 1) m m') :
    run m = .error (.stepLimit m.settings.maxSteps) m' := by
  obtain ⟨m₁, target, ht, hs⟩ := ht.last
  show runFor _ _ 0 m = _
  rw [ht.runFor _ (Nat.le_refl _), Nat.sub_self]
  simp only [runFor, hs]

end

/-- What a run does: it halts or gets stuck within its limit, or exceeds it. -/
theorem run_cases (m : Machine) :
    (∃ k m₁, k ≤ m.settings.maxSteps ∧ Takes k m m₁ ∧ step m₁ = .ok .halted m₁.start ∧ run m = .ok k m₁.start) ∨
    (∃ k m₁ state, k ≤ m.settings.maxSteps ∧ Takes k m m₁ ∧ step m₁ = .error (.deadEnd state) m₁.start ∧
      run m = .error (.deadEnd state) m₁.start) ∨
    ∃ m', Takes (m.settings.maxSteps + 1) m m' ∧ run m = .error (.stepLimit m.settings.maxSteps) m' := by
  rcases takes_or_stops (m.settings.maxSteps + 1) m with ⟨m', ht⟩ | ⟨k, m₁, hk, ht, hs | ⟨state, hs⟩⟩
  · exact .inr (.inr ⟨m', ht, run_of_exceeded ht⟩)
  · exact .inl ⟨k, m₁, Nat.le_of_lt_succ hk, ht, hs, run_of_halted (Nat.le_of_lt_succ hk) ht hs⟩
  · exact .inr (.inl ⟨k, m₁, state, Nat.le_of_lt_succ hk, ht, hs, run_of_error (Nat.le_of_lt_succ hk) ht hs⟩)

theorem run_ok_iff {m m' : Machine} {k : Nat} :
    run m = .ok k m' ↔ k ≤ m.settings.maxSteps ∧ ∃ m₁, Takes k m m₁ ∧ step m₁ = .ok .halted m' := by
  constructor
  · intro h
    rcases run_cases m with ⟨j, m₁, hj, ht, hs, hrun⟩ | ⟨_, _, _, _, _, _, hrun⟩ | ⟨_, _, hrun⟩
    · cases hrun.symm.trans h
      exact ⟨hj, m₁, ht, hs⟩
    · cases hrun.symm.trans h
    · cases hrun.symm.trans h
  · intro h
    obtain ⟨hk, m₁, ht, hs⟩ := h
    exact run_of_halted hk ht hs

/-- A run that succeeds has led to the exit. -/
theorem isHalted_of_run {m m' : Machine} {k : Nat} (h : run m = .ok k m') : m'.isHalted = true := by
  obtain ⟨-, m₁, -, hstep⟩ := run_ok_iff.mp h
  obtain ⟨hexit, rfl⟩ := step_eq_halted.mp hstep
  simp [isHalted, hexit]

theorem run_deadEnd_iff {m m' : Machine} {e : RunError} :
    (run m = .error e m' ∧ ∃ state, e = .deadEnd state) ↔
      ∃ j m₁, j ≤ m.settings.maxSteps ∧ Takes j m m₁ ∧ step m₁ = .error e m' := by
  constructor
  · intro h
    obtain ⟨h, state, rfl⟩ := h
    rcases run_cases m with ⟨_, _, _, _, _, hrun⟩ | ⟨j, m₁, _, hj, ht, hs, hrun⟩ | ⟨_, _, hrun⟩
    · cases hrun.symm.trans h
    · cases hrun.symm.trans h
      exact ⟨j, m₁, hj, ht, hs⟩
    · cases hrun.symm.trans h
  · intro h
    obtain ⟨j, m₁, hj, ht, hs⟩ := h
    refine ⟨run_of_error hj ht hs, ?_⟩
    rcases step_outcomes m₁ with hs' | ⟨state, hs'⟩ | ⟨_, _, hs'⟩
    · cases hs'.symm.trans hs
    · cases hs'.symm.trans hs
      exact ⟨state, rfl⟩
    · cases hs'.symm.trans hs

/-! ## Steps and runs mixed -/

/-- The machine is started, and so many transitions on. -/
def Reaches (k : Nat) (m m' : Machine) : Prop := ∃ m₁, Takes k m m₁ ∧ m' = m₁.start

/-- Entering the entry takes no transition, so it may have been done before. -/
theorem Reaches.trans {j k : Nat} {m m₁ m' : Machine} (h : Reaches j m m₁) (h' : Reaches k m₁ m') :
    Reaches (j + k) m m' := by
  obtain ⟨m₂, ht, rfl⟩ := h
  obtain ⟨m₃, ht', rfl⟩ := h'
  cases ht' with
  | zero => exact ⟨m₂, ht, start_of_started (start_started m₂)⟩
  | succ hs hrest =>
    rw [step_start] at hs
    exact ⟨m₃, ht.trans (.succ hs hrest), rfl⟩

theorem step_reaches (m : Machine) : Reaches (transitionsWithin 1 m) m (after step m) := by
  rcases step_outcomes m with hs | ⟨state, hs⟩ | ⟨target, m', hs⟩
  · rw [show transitionsWithin 1 m = 0 by simp only [transitionsWithin, hs]]
    exact ⟨m, .zero, after_of_ok hs⟩
  · rw [show transitionsWithin 1 m = 0 by simp only [transitionsWithin, hs]]
    exact ⟨m, .zero, after_of_error hs⟩
  · rw [show transitionsWithin 1 m = 1 by simp only [transitionsWithin, hs]]
    exact ⟨m', .succ hs .zero, (after_of_ok hs).trans (start_of_moved hs).symm⟩

theorem run_reaches (m : Machine) : Reaches (transitionsWithin (m.settings.maxSteps + 1) m) m (after run m) := by
  -- Where the run stops no step is taken any more, however many are still allowed.
  have hcount : ∀ {k : Nat} {m₁ : Machine}, k ≤ m.settings.maxSteps → Takes k m m₁ →
      (∀ n, transitionsWithin (n + 1) m₁ = 0) → transitionsWithin (m.settings.maxSteps + 1) m = k := by
    intro k m₁ hk ht hstop
    rw [show m.settings.maxSteps + 1 = k + (m.settings.maxSteps - k + 1) by omega, ht.transitionsWithin, hstop,
      Nat.add_zero]
  rcases run_cases m with ⟨k, m₁, hk, ht, hs, hrun⟩ | ⟨k, m₁, _, hk, ht, hs, hrun⟩ | ⟨m', ht, hrun⟩
  · rw [hcount hk ht fun n => by simp only [transitionsWithin, hs]]
    exact ⟨m₁, ht, after_of_ok hrun⟩
  · rw [hcount hk ht fun n => by simp only [transitionsWithin, hs]]
    exact ⟨m₁, ht, after_of_error hrun⟩
  · obtain ⟨_, _, -, hs⟩ := ht.last
    rw [show transitionsWithin (m.settings.maxSteps + 1) m = m.settings.maxSteps + 1 from ht.transitionsWithin 0]
    exact ⟨m', ht, (after_of_error hrun).trans (start_of_moved hs).symm⟩

/-- The machine with another limit for its runs. -/
def within (m : Machine) (limit : Nat) : Machine := { m with settings := ⟨limit⟩ }

theorem start_within (m : Machine) (limit : Nat) : (m.within limit).start = m.start.within limit := by
  unfold start
  by_cases h : m.started = true
  · rw [if_pos h, if_pos (show (m.within limit).started = true from h)]
  · rw [if_neg h, if_neg (show ¬ (m.within limit).started = true from h)]
    rfl

/-- A step takes its transition whatever the limit is. -/
theorem step_within {m m' : Machine} {target : StateId} (h : step m = .ok (.moved target) m') (limit : Nat) :
    step (m.within limit) = .ok (.moved target) (m'.within limit) := by
  have hmoves : (m.start.within limit).next = m.start.next := rfl
  obtain ⟨hne, hn, rfl⟩ := step_eq_moved.mp h
  refine step_eq_moved.mpr ⟨hne, ?_, ?_⟩
  · rw [start_within, hmoves, hn]
  · rw [start_within]
    rfl

theorem Takes.within {k : Nat} {m m' : Machine} (h : Takes k m m') (limit : Nat) :
    Takes k (m.within limit) (m'.within limit) := by
  induction h with
  | zero => exact .zero
  | succ hstep _ ih => exact .succ (step_within hstep limit) ih

theorem Reaches.within {k : Nat} {m m' : Machine} (h : Reaches k m m') (limit : Nat) :
    Reaches k (m.within limit) (m'.within limit) := by
  obtain ⟨m₁, ht, rfl⟩ := h
  exact ⟨_, ht.within limit, (start_within m₁ limit).symm⟩

/-- A call that takes steps: one step, or a run with some limit. -/
inductive Advance where
  | step
  | run (limit : Nat)

/-- What a machine becomes by a call, whether it succeeds or not. -/
def Advance.apply (m : Machine) : Advance → Machine
  | step => after Machine.step m
  | run limit => after Machine.run (m.within limit)

theorem Advance.reaches (c : Advance) (m : Machine) :
    ∃ k, ∀ limit, Reaches k (m.within limit) ((c.apply m).within limit) := by
  cases c with
  | step => exact ⟨_, (step_reaches m).within⟩
  | run limit => exact ⟨_, (run_reaches (m.within limit)).within⟩

/-- Calls one after the other lead to nothing else than steps do. -/
theorem reaches_foldl (calls : List Advance) (m : Machine) :
    calls.foldl Advance.apply m = m ∨
      ∃ k, ∀ limit, Reaches k (m.within limit) ((calls.foldl Advance.apply m).within limit) := by
  induction calls generalizing m with
  | nil => exact .inl rfl
  | cons c calls ih =>
    obtain ⟨k, hc⟩ := c.reaches m
    rw [List.foldl_cons]
    rcases ih (c.apply m) with heq | ⟨j, hcalls⟩
    · rw [heq]
      exact .inr ⟨k, hc⟩
    · exact .inr ⟨k + j, fun limit => (hc limit).trans (hcalls limit)⟩

/-- A machine that halts after so many transitions does so in one run that is allowed them. -/
theorem Reaches.run {k limit : Nat} {m m' : Machine} (h : Reaches k (m.within limit) (m'.within limit))
    (hhalted : m'.isHalted = true) (hk : k ≤ limit) : Machine.run (m.within limit) = .ok k (m'.within limit) := by
  obtain ⟨m₁, ht, heq⟩ := h
  have hexit : m₁.current = m₁.program.exit := by
    rw [← start_current m₁, ← start_program m₁, ← heq]
    exact beq_iff_eq.mp (Bool.and_eq_true_iff.mp hhalted).2
  rw [heq]
  exact run_of_halted hk ht (step_eq_halted.mpr ⟨hexit, rfl⟩)

/-- **Runs are iterated steps.** A run halts, or gets stuck, just when steps one after the other do so
within its limit, after the same transitions and in the same way; else it fails by its limit. And
however steps and runs, with any limits, are mixed: if the machine ends halted, then one run that
is allowed enough leads to the same values, state and history. -/
theorem run_iterates_step (m : Machine) :
    (∀ k m', run m = .ok k m' ↔ k ≤ m.settings.maxSteps ∧ ∃ m₁, Takes k m m₁ ∧ step m₁ = .ok .halted m') ∧
    (∀ e m', (run m = .error e m' ∧ ∃ state, e = .deadEnd state) ↔
      ∃ j m₁, j ≤ m.settings.maxSteps ∧ Takes j m m₁ ∧ step m₁ = .error e m') ∧
    ((∀ k m', run m ≠ .ok k m') → (∀ state m', run m ≠ .error (.deadEnd state) m') →
      ∃ m', run m = .error (.stepLimit m.settings.maxSteps) m' ∧ Takes (m.settings.maxSteps + 1) m m') ∧
    ∀ calls : List Advance, ∀ m', calls.foldl Advance.apply m = m' → m'.isHalted = true →
      ∃ enough, ∀ limit, enough ≤ limit → ∃ k m₁, run (m.within limit) = .ok k m₁ ∧
        m₁.values = m'.values ∧ m₁.current = m'.current ∧ m₁.history = m'.history := by
  refine ⟨fun k m' => run_ok_iff, fun e m' => run_deadEnd_iff, fun hok hdead => ?_, ?_⟩
  · rcases run_cases m with ⟨k, m₁, -, -, -, hrun⟩ | ⟨_, m₁, state, -, -, -, hrun⟩ | ⟨m', ht, hrun⟩
    · exact absurd hrun (hok k m₁.start)
    · exact absurd hrun (hdead state m₁.start)
    · exact ⟨m', hrun, ht⟩
  · intro calls m' hcalls hhalted
    subst hcalls
    have hreaches : ∃ k, ∀ limit, Reaches k (m.within limit) ((calls.foldl Advance.apply m).within limit) := by
      rcases reaches_foldl calls m with heq | hreaches
      · -- Nothing has happened, and the machine was started before.
        rw [heq] at hhalted ⊢
        have hstarted : m.start = m := start_of_started (Bool.and_eq_true_iff.mp hhalted).1
        exact ⟨0, fun limit => ⟨_, .zero, by rw [start_within, hstarted]⟩⟩
      · exact hreaches
    obtain ⟨k, hreaches⟩ := hreaches
    exact ⟨k, fun limit hk => ⟨k, _, (hreaches limit).run hhalted hk, rfl, rfl, rfl⟩⟩

/-- Three transitions in a row. -/
def ladder : Program where
  signals := #[⟨"x", false, false⟩]
  states := #[{ label := "set", actions := [.drive ⟨0⟩ true], defaultTarget := some ⟨1⟩ },
    { label := "wait", defaultTarget := some ⟨2⟩ },
    { label := "clear", actions := [.drive ⟨0⟩ false], defaultTarget := some ⟨3⟩ }, { label := "done" }]
  entry := ⟨0⟩
  exit := ⟨3⟩

/-- A run that fails by its limit, a step, and a run that goes on from there. -/
theorem ladder_iterates_step :
    ∃ m', [Advance.run 0, .step, .run 1].foldl Advance.apply (.new ladder) = m' ∧ m'.isHalted = true ∧
      m'.history.length = 3 ∧ ∃ enough, ∀ limit, enough ≤ limit → ∃ k m₁,
        run ((new ladder).within limit) = .ok k m₁ ∧ m₁.values = m'.values ∧ m₁.current = m'.current ∧
          m₁.history = m'.history :=
  ⟨_, rfl, rfl, rfl, (run_iterates_step (.new ladder)).2.2.2 _ _ rfl rfl⟩

end SignalGraph.Machine
