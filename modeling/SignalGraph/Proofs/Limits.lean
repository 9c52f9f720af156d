/-
What a run does to its limit.

Each transition adds one record to the history (`Takes.history_length`), so the records tell how many
a call has taken. A run that halts or gets stuck has kept to its limit. A run that could go on has
taken one transition more: the step that tells whether the exit was reached is a step like all others,
and where it leads may well be the exit.
-/
import SignalGraph.Proofs.Histories

namespace SignalGraph.Machine

variable {k : Nat} {m m' : Machine}

theorem history_length_of_moved {target : StateId} (h : step m = .ok (.moved target) m') :
    m'.history.length = m.history.length + 1 := by
  obtain ⟨-, -, rfl⟩ := step_eq_moved.mp h
  show (m.start.history.steps.push _).size = m.history.length + 1
  rw [Array.size_push, start_history]
  rfl

theorem Takes.history_length (h : Takes k m m') : m'.history.length = m.history.length + k := by
  induction h with
  | zero => rfl
  | succ hs _ ih =>
    rw [ih, history_length_of_moved hs]
    omega

theorem isHalted_iff_of_started (hs : m.started = true) : m.isHalted = true ↔ step m = .ok .halted m := by
  constructor
  · intro h
    exact step_halted hs (beq_iff_eq.mp (Bool.and_eq_true_iff.mp h).2)
  · intro h
    obtain ⟨hexit, -⟩ := step_eq_halted.mp h
    exact Bool.and_eq_true_iff.mpr ⟨hs, beq_iff_eq.mpr hexit⟩

/-- Where `k` transitions lead is the exit just when a run that is allowed as many gets there. -/
theorem Takes.isHalted_iff_run (h : Takes k m m') (hs : m'.started = true) :
    m'.isHalted = true ↔ ∃ j m'', run (m.within k) = .ok j m'' := by
  have hwithin : (m'.within k).started = true := hs
  have hhalted : m'.isHalted = true ↔ step (m'.within k) = .ok .halted (m'.within k) :=
    isHalted_iff_of_started hwithin
  have hrun : run (m.within k) = Machine.runFor k 0 (0 + k) (m'.within k) := by
    show Machine.runFor k k 0 (m.within k) = _
    rw [(h.within k).runFor k (Nat.le_refl k), Nat.sub_self]
  rw [hhalted, hrun]
  constructor
  · intro hstep
    exact ⟨0 + k, m'.within k, by simp only [Machine.runFor, hstep]⟩
  · intro hok
    obtain ⟨j, m'', hok⟩ := hok
    rcases step_outcomes (m'.within k) with hstep | ⟨_, hstep⟩ | ⟨_, _, hstep⟩
    · rwa [start_of_started hwithin] at hstep
    · simp only [Machine.runFor, hstep] at hok
      cases hok
    · simp only [Machine.runFor, hstep] at hok
      cases hok

/-- A run fails by its limit just when one transition more than it allows can be taken, and it takes it. -/
theorem run_stepLimit_iff {limit : Nat} :
    run m = .error (.stepLimit limit) m' ↔ limit = m.settings.maxSteps ∧ Takes (m.settings.maxSteps + 1) m m' := by
  constructor
  · intro h
    rcases run_cases m with ⟨_, _, -, -, -, hrun⟩ | ⟨_, _, _, -, -, -, hrun⟩ | ⟨_, ht, hrun⟩
    · cases hrun.symm.trans h
    · cases hrun.symm.trans h
    · cases hrun.symm.trans h
      exact ⟨rfl, ht⟩
  · intro h
    obtain ⟨rfl, ht⟩ := h
    exact run_of_exceeded ht

/-- A run that halts or gets stuck has kept to its limit. -/
theorem run_history_length_le (h : ∀ limit m', run m ≠ .error (.stepLimit limit) m') :
    (after run m).history.length ≤ m.history.length + m.settings.maxSteps := by
  rcases run_cases m with ⟨k, m₁, hk, ht, -, hrun⟩ | ⟨k, m₁, _, hk, ht, -, hrun⟩ | ⟨m', -, hrun⟩
  · rw [after_of_ok hrun, start_history, ht.history_length]
    omega
  · rw [after_of_error hrun, start_history, ht.history_length]
    omega
  · exact absurd hrun (h _ m')

/-- **A run keeps to its limit unless it fails by it.** It takes at most as many transitions as its limit
allows just when it does not fail by the limit. If it does, it has taken exactly one more, and that
one may have led to the exit: the machine is not halted just when a run that is allowed one transition
more does not reach the exit either. -/
theorem run_keeps_limit_iff (m : Machine) :
    ((after run m).history.length ≤ m.history.length + m.settings.maxSteps ↔
      ∀ limit m', run m ≠ .error (.stepLimit limit) m') ∧
    ∀ limit m', run m = .error (.stepLimit limit) m' → limit = m.settings.maxSteps ∧
      m'.history.length = m.history.length + m.settings.maxSteps + 1 ∧
      (m'.isHalted = false ↔ ∀ k m'', run (m.within (m.settings.maxSteps + 1)) ≠ .ok k m'') := by
  refine ⟨⟨fun hle limit m' h => ?_, run_history_length_le⟩, fun limit m' h => ?_⟩
  · have hlength := (run_stepLimit_iff.mp h).2.history_length
    rw [after_of_error h] at hle
    omega
  · obtain ⟨hlimit, ht⟩ := run_stepLimit_iff.mp h
    obtain ⟨_, _, -, hlast⟩ := ht.last
    have hstarted : m'.started = true := by
      rw [← start_of_moved hlast]
      exact start_started m'
    refine ⟨hlimit, ht.history_length, ?_⟩
    rw [← Bool.not_eq_true, ht.isHalted_iff_run hstarted]
    simp only [not_exists, ne_eq]

theorem ladder_keeps_limit :
    (after run (.new ladder ⟨3⟩)).history.length ≤ (new ladder ⟨3⟩).history.length + 3 ∧
    ∃ m', run (.new ladder ⟨1⟩) = .error (.stepLimit 1) m' ∧
      m'.history.length = (new ladder ⟨1⟩).history.length + 1 + 1 ∧ m'.isHalted = false ∧
      ∀ k m'', run ((new ladder ⟨1⟩).within 2) ≠ .ok k m'' := by
  have hok : ∀ limit m', run (.new ladder ⟨3⟩) ≠ .error (.stepLimit limit) m' := fun _ _ h => by cases h
  obtain ⟨-, hlength, hhalted⟩ := (run_keeps_limit_iff (.new ladder ⟨1⟩)).2 1 _ rfl
  exact ⟨(run_keeps_limit_iff (.new ladder ⟨3⟩)).1.mpr hok, _, rfl, hlength, rfl, hhalted.mp rfl⟩

/-- On the ladder of three transitions a run that is allowed two takes all three. It says that the limit was
exceeded before the exit was reached, and it is at the exit. -/
theorem ladder_exceeds_limit :
    ∃ m', run (.new ladder ⟨2⟩) = .error (.stepLimit 2) m' ∧
      m'.history.length = (new ladder ⟨2⟩).history.length + 2 + 1 ∧ m'.isHalted = true :=
  ⟨_, rfl, rfl, rfl⟩

end SignalGraph.Machine
