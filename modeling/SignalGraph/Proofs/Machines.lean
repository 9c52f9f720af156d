/-
What can be done to a machine.

A step enters the entry if that was not done, and then takes a transition, finds that the
exit is reached, or fails (`step_cases`). So every operation on machines, a failed one
included, comes down to the four moves of `Move` (`Call.moves`), and what each move keeps
holds of every machine that can be reached.
-/
import Mathlib.Logic.Relation
import SignalGraph.Machine
import SignalGraph.Proofs.Effects

namespace SignalGraph

theorem StateNode.next_mem_successors {n : StateNode} {v : Valuation} {target : StateId}
    (h : n.next v = some target) :
    target ∈ n.successors := by
  simp only [StateNode.next] at h
  simp only [StateNode.successors, List.mem_append, List.mem_map, Option.mem_toList]
  split at h
  · next t ht =>
    cases h
    exact .inl ⟨t, List.mem_of_find?_eq_some ht, rfl⟩
  · exact .inr h

namespace Machine

/-! ## Steps -/

@[simp] theorem start_program (m : Machine) : m.start.program = m.program := by
  unfold start
  split <;> rfl

@[simp] theorem start_current (m : Machine) : m.start.current = m.current := by
  unfold start
  split <;> rfl

@[simp] theorem start_started (m : Machine) : m.start.started = true := by
  unfold start
  split
  · assumption
  · rfl

theorem start_of_started {m : Machine} (h : m.started = true) : m.start = m := if_pos h

theorem step_start (m : Machine) : step m.start = step m := by
  unfold step
  rw [start_of_started (start_started m)]

theorem runFor_start (limit allowed taken : Nat) (m : Machine) :
    runFor limit allowed taken m.start = runFor limit allowed taken m := by
  cases allowed <;> simp only [runFor, step_start]

/-- What a step does: it is at the exit, or a transition leads on, or there is none to take. -/
theorem step_cases (m : Machine) :
    (m.current = m.program.exit ∧ step m = .ok .halted m.start) ∨
    (m.current ≠ m.program.exit ∧
      ((∃ target, m.start.next = .ok target ∧ step m = .ok (.moved target) (m.start.moveTo target)) ∨
        ∃ e, m.start.next = .error e ∧ step m = .error e m.start)) := by
  unfold step
  simp only [start_program, start_current]
  by_cases h : m.current = m.program.exit
  · exact .inl ⟨h, if_pos h⟩
  · refine .inr ⟨h, ?_⟩
    rw [if_neg h]
    cases m.start.next with
    | ok target => exact .inl ⟨target, rfl, rfl⟩
    | error e => exact .inr ⟨e, rfl, rfl⟩

theorem step_eq_halted {m m' : Machine} :
    step m = .ok .halted m' ↔ m.current = m.program.exit ∧ m' = m.start := by
  constructor
  · intro h
    rcases step_cases m with ⟨hexit, hs⟩ | ⟨-, ⟨_, -, hs⟩ | ⟨_, -, hs⟩⟩
    · cases hs.symm.trans h
      exact ⟨hexit, rfl⟩
    · cases hs.symm.trans h
    · cases hs.symm.trans h
  · rintro ⟨hexit, rfl⟩
    rcases step_cases m with ⟨-, hs⟩ | ⟨hne, -⟩
    · exact hs
    · exact absurd hexit hne

theorem step_eq_moved {m m' : Machine} {target : StateId} :
    step m = .ok (.moved target) m' ↔
      m.current ≠ m.program.exit ∧ m.start.next = .ok target ∧ m' = m.start.moveTo target := by
  constructor
  · intro h
    rcases step_cases m with ⟨-, hs⟩ | ⟨hne, ⟨_, hn, hs⟩ | ⟨_, -, hs⟩⟩
    · cases hs.symm.trans h
    · cases hs.symm.trans h
      exact ⟨hne, hn, rfl⟩
    · cases hs.symm.trans h
  · rintro ⟨hne, hn, rfl⟩
    rcases step_cases m with ⟨hexit, -⟩ | ⟨-, ⟨_, hn', hs⟩ | ⟨_, hn', -⟩⟩
    · exact absurd hexit hne
    · cases hn'.symm.trans hn
      exact hs
    · cases hn'.symm.trans hn

theorem next_ok {m : Machine} {target : StateId} (h : m.next = .ok target) :
    ∃ n, m.program.state? m.current = some n ∧ n.next m.valuation = some target := by
  unfold next at h
  split at h
  · cases h
  · next n hn =>
    split at h
    · cases h
    · next target' ht =>
      cases h
      exact ⟨n, hn, ht⟩

/-! ## Moves -/

/-- One change of a machine, with what was checked before it. -/
inductive Move : Machine → Machine → Prop
  | write {m : Machine} {s : SignalId} {info : SignalInfo} (value : Bool) :
      m.program.signal? s = some info → info.constant = false →
      Move m { m with values := m.values.setIfInBounds s.index value }
  | start {m : Machine} : m.started = false → Move m m.start
  | take {m : Machine} {target : StateId} : m.started = true → m.current ≠ m.program.exit →
      m.next = .ok target → Move m (m.moveTo target)
  | restart {m : Machine} : Move m m.restart

/-- Any number of moves. -/
abbrev Moves : Machine → Machine → Prop := Relation.ReflTransGen Move

theorem moves_start (m : Machine) : Moves m m.start := by
  cases h : m.started with
  | true => rw [start_of_started h]
  | false => exact .single (.start h)

theorem step_moves (m : Machine) : Moves m (after step m) := by
  rcases step_cases m with ⟨-, hs⟩ | ⟨hne, ⟨target, hn, hs⟩ | ⟨e, -, hs⟩⟩
  · rw [after_of_ok hs]
    exact moves_start m
  · rw [after_of_ok hs]
    exact (moves_start m).tail (.take (start_started m) (by simpa using hne) hn)
  · rw [after_of_error hs]
    exact moves_start m

theorem runFor_moves (limit : Nat) : ∀ (allowed taken : Nat) (m : Machine),
    Moves m (after (runFor limit allowed taken) m)
  | 0, taken, m => by
    have h := step_moves m
    have : after (runFor limit 0 taken) m = after step m := by
      unfold after runFor
      cases step m with
      | error e m' => rfl
      | ok r m' => cases r <;> rfl
    rwa [this]
  | allowed + 1, taken, m => by
    have h := step_moves m
    cases hs : step m with
    | error e m' =>
      have : after (runFor limit (allowed + 1) taken) m = m' := by simp only [after, runFor, hs]
      rw [this, ← after_of_error hs]
      exact h
    | ok r m' =>
      rw [after_of_ok hs] at h
      cases r with
      | halted =>
        have : after (runFor limit (allowed + 1) taken) m = m' := by simp only [after, runFor, hs]
        rwa [this]
      | moved target =>
        have : after (runFor limit (allowed + 1) taken) m =
            after (runFor limit allowed (taken + 1)) m' := by simp only [after, runFor, hs]
        rw [this]
        exact h.trans (runFor_moves limit allowed (taken + 1) m')

/-- A signal is written if it exists and is not constant; else nothing happens. -/
theorem setSignal_cases (s : SignalId) (value : Bool) (m : Machine) :
    (∃ e, setSignal s value m = .error e m) ∨
    ∃ info, m.program.signal? s = some info ∧ info.constant = false ∧
      setSignal s value m = .ok () { m with values := m.values.setIfInBounds s.index value } := by
  unfold setSignal
  cases hs : m.program.signal? s with
  | none => exact .inl ⟨_, rfl⟩
  | some info =>
    by_cases hc : info.constant = true
    · exact .inl ⟨_, if_pos hc⟩
    · exact .inr ⟨info, rfl, by simpa using hc, if_neg hc⟩

theorem setSignal_moves (s : SignalId) (value : Bool) (m : Machine) :
    Moves m (after (setSignal s value) m) := by
  rcases setSignal_cases s value m with ⟨e, h⟩ | ⟨info, hs, hc, h⟩
  · rw [after_of_error h]
  · rw [after_of_ok h]
    exact .single (.write value hs hc)

theorem writeBits_moves (value : Word) : ∀ (bits : List (SignalId × Nat)) (m : Machine),
    Moves m (after (bits.forM fun (bit, i) => setSignal bit (value.bit i)) m)
  | [], _ => .refl
  | (bit, i) :: bits, m => by
    have h := setSignal_moves bit (value.bit i) m
    show Moves m (after (setSignal bit (value.bit i) >>= fun _ => bits.forM _) m)
    rw [after_bind]
    cases hs : setSignal bit (value.bit i) m with
    | error e m' => exact after_of_error hs ▸ h
    | ok _ m' => exact (after_of_ok hs ▸ h).trans (writeBits_moves value bits m')

theorem setRegister_moves (r : Register) (value : Word) (m : Machine) :
    Moves m (after (setRegister r value) m) := by
  unfold setRegister
  split
  · exact writeBits_moves value _ m
  · exact .refl

/-! ## The machines that can be reached -/

/-- An operation on machines, with its arguments. -/
inductive Call where
  | setSignal (s : SignalId) (value : Bool)
  | setRegister (r : Register) (value : Word)
  | step
  | run
  | restart

/-- Carries out an operation. What it returns is dropped. -/
def Call.perform : Call → MachineM Unit
  | setSignal s value => Machine.setSignal s value
  | setRegister r value => Machine.setRegister r value
  | step => discard Machine.step
  | run => discard Machine.run
  | restart => modify Machine.restart

/-- What a machine becomes by some operations, one after the other. -/
def performAll (calls : List Call) (m : Machine) : Machine := calls.foldl (fun m c => after c.perform m) m

/-- What a new machine for the program can become. -/
def Reachable (p : Program) (m : Machine) : Prop := ∃ settings calls, performAll calls (.new p settings) = m

theorem Call.moves (c : Call) (m : Machine) : Moves m (after c.perform m) := by
  cases c with
  | setSignal s value => exact setSignal_moves s value m
  | setRegister r value => exact setRegister_moves r value m
  | step => exact after_discard Machine.step m ▸ step_moves m
  | run => exact after_discard Machine.run m ▸ runFor_moves _ _ _ m
  | restart => exact .single .restart

theorem performAll_moves : ∀ (calls : List Call) (m : Machine), Moves m (performAll calls m)
  | [], _ => .refl
  | c :: calls, m => (c.moves m).trans (performAll_moves calls (after c.perform m))

theorem Moves.invariant {I : Machine → Prop} (hmove : ∀ m m', Move m m' → I m → I m') {m m' : Machine}
    (h : Moves m m') (hm : I m) : I m' := by
  induction h with
  | refl => exact hm
  | tail _ hs ih => exact hmove _ _ hs ih

/-- A property that new machines have and every move keeps holds of every machine that can be
reached. -/
theorem Reachable.invariant {p : Program} {I : Machine → Prop} (hnew : ∀ settings, I (.new p settings))
    (hmove : ∀ m m', Move m m' → I m → I m') {m : Machine} (h : Reachable p m) : I m := by
  obtain ⟨settings, calls, rfl⟩ := h
  exact (performAll_moves calls _).invariant hmove (hnew settings)

end Machine

end SignalGraph
