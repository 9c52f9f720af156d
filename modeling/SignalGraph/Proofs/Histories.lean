/-
What the history of a machine says.

A history is cleared when the machine is restarted, and from then on each transition that is
taken adds its record, with the number that the machine has counted to. So the records tell the
way from the entry to the current state, one for each transition that was taken, and they are as
many as were counted (`Recorded`). Values change by the actions of the states on that
way and by what callers write, and by nothing else: a state is entered once for each time that it
is on the way, however often the machine is asked to go on (`Fired`).
-/
import SignalGraph.Proofs.Iteration
import SignalGraph.Proofs.Walks

namespace SignalGraph

/-- Transitions of the program, numbered from `k` on, that lead from `q` to `q'`. -/
def Recounts (p : Program) : Nat → StateId → List StepRecord → StateId → Prop
  | _, q, [], q' => q' = q
  | k, q, r :: rest, q' =>
    r.step = k ∧ r.source = q ∧ r.target ∈ p.successors q ∧ Recounts p (k + 1) r.target rest q'

theorem Recounts.snoc {p : Program} {q' target : StateId} :
    ∀ {k : Nat} {records : List StepRecord} {q : StateId}, Recounts p k q records q' → target ∈ p.successors q' →
    Recounts p k q (records ++ [⟨q', target, k + records.length⟩]) target
  | k, [], q, h, ht => by
    obtain rfl : q' = q := h
    exact ⟨rfl, rfl, ht, rfl⟩
  | k, r :: records, q, ⟨hstep, hsource, hmem, hrest⟩, ht => by
    have hrest := Recounts.snoc hrest ht
    rw [Nat.add_assoc, Nat.add_comm 1] at hrest
    exact ⟨hstep, hsource, hmem, hrest⟩

namespace Machine

/-! ## Writing -/

/-- The machine differs from the other in its values only. -/
def Rewritten (m m' : Machine) : Prop := m' = { m with values := m'.values }

theorem Rewritten.trans {m m₁ m' : Machine} (h : Rewritten m m₁) (h' : Rewritten m₁ m') : Rewritten m m' := by
  rw [Rewritten] at h h' ⊢
  rw [h] at h'
  exact h'

theorem setSignal_rewritten (s : SignalId) (value : Bool) (m : Machine) :
    Rewritten m (after (setSignal s value) m) := by
  rcases setSignal_cases s value m with ⟨e, h⟩ | ⟨info, -, -, h⟩
  · rw [after_of_error h]
    rfl
  · rw [after_of_ok h]
    rfl

theorem writeBits_rewritten (value : Word) : ∀ (bits : List (SignalId × Nat)) (m : Machine),
    Rewritten m (after (bits.forM fun (bit, i) => setSignal bit (value.bit i)) m)
  | [], _ => rfl
  | (bit, i) :: bits, m => by
    have hfirst := setSignal_rewritten bit (value.bit i) m
    show Rewritten m (after (setSignal bit (value.bit i) >>= fun _ => bits.forM _) m)
    rw [after_bind]
    cases hs : setSignal bit (value.bit i) m with
    | error e m' => exact after_of_error hs ▸ hfirst
    | ok _ m' => exact (after_of_ok hs ▸ hfirst).trans (writeBits_rewritten value bits m')

theorem setRegister_rewritten (r : Register) (value : Word) (m : Machine) :
    Rewritten m (after (setRegister r value) m) := by
  unfold setRegister
  split
  · exact writeBits_rewritten value _ m
  · rfl

/-! ## Calls -/

/-- Whether the call writes signals. -/
def Call.writes : Call → Bool
  | setSignal .. | setRegister .. => true
  | step | run | restart => false

/-- Whether the call lets the machine go on. -/
def Call.advances : Call → Bool
  | step | run => true
  | setSignal .. | setRegister .. | restart => false

/-- How many transitions were taken since the last restart, when there were `n` before the call. A
run takes one transition more than its limit allows, if there is one to take. -/
def Call.count (m : Machine) (n : Nat) : Call → Nat
  | step => n + transitionsWithin 1 m
  | run => n + transitionsWithin (m.settings.maxSteps + 1) m
  | restart => 0
  | setSignal .. | setRegister .. => n

/-- How many transitions were taken since the last restart, when there were `n` before the calls. -/
def countAll : List Call → Machine → Nat → Nat
  | [], _, n => n
  | c :: calls, m, n => countAll calls (after c.perform m) (c.count m n)

theorem Call.rewritten {c : Call} (h : c.writes = true) (m : Machine) : Rewritten m (after c.perform m) := by
  cases c with
  | setSignal s value => exact setSignal_rewritten s value m
  | setRegister r value => exact setRegister_rewritten r value m
  | step | run | restart => cases h

theorem Call.reaches {c : Call} (h : c.advances = true) (m : Machine) :
    ∃ k, Reaches k m (after c.perform m) ∧ ∀ n, c.count m n = n + k := by
  cases c with
  | step => exact ⟨_, after_discard Machine.step m ▸ step_reaches m, fun _ => rfl⟩
  | run => exact ⟨_, after_discard Machine.run m ▸ run_reaches m, fun _ => rfl⟩
  | setSignal | setRegister | restart => cases h

/-- A call writes, lets the machine go on, or restarts it. -/
theorem Call.kinds (c : Call) : c.writes = true ∨ c.advances = true ∨ c = .restart := by
  cases c with
  | setSignal | setRegister => exact .inl rfl
  | step | run => exact .inr (.inl rfl)
  | restart => exact .inr (.inr rfl)

/-! ## Records -/

@[simp] theorem start_history (m : Machine) : m.start.history = m.history := by
  unfold start
  split <;> rfl

@[simp] theorem start_steps (m : Machine) : m.start.steps = m.steps := by
  unfold start
  split <;> rfl

/-- The machine runs the program, it has counted `n` transitions, and its history recounts them from the
entry to the state that it is in. -/
structure Recorded (p : Program) (n : Nat) (m : Machine) : Prop where
  program : m.program = p
  steps : m.steps = n
  length : m.history.length = n
  recounts : Recounts p 1 p.entry m.history.steps.toList m.current

namespace Recorded

variable {p : Program} {n : Nat} {m m' : Machine}

theorem new (p : Program) (settings : RunSettings) : Recorded p 0 (.new p settings) := ⟨rfl, rfl, rfl, rfl⟩

theorem restart (h : Recorded p n m) : Recorded p 0 m.restart := by
  obtain ⟨rfl, -, -, -⟩ := h
  exact ⟨rfl, rfl, rfl, rfl⟩

theorem start (h : Recorded p n m) : Recorded p n m.start := by
  refine ⟨(start_program m).trans h.program, ?_, ?_, ?_⟩
  · rw [start_steps, h.steps]
  · rw [start_history, h.length]
  · rw [start_history, start_current]
    exact h.recounts

theorem rewritten (h : Recorded p n m) (hm : Rewritten m m') : Recorded p n m' := by
  rw [hm]
  exact ⟨h.program, h.steps, h.length, h.recounts⟩

theorem moved {target : StateId} (h : Recorded p n m) (hs : step m = .ok (.moved target) m') :
    Recorded p (n + 1) m' := by
  have hstart := h.start
  obtain ⟨-, hn, rfl⟩ := step_eq_moved.mp hs
  obtain ⟨node, hnode, hnext⟩ := next_ok hn
  have hmem : target ∈ p.successors m.start.current := by
    rw [hstart.program] at hnode
    simp only [Program.successors, hnode]
    exact StateNode.next_mem_successors hnext
  -- The number of the new record is the machine's, and the one that the records before it ask for.
  have hnumber : 1 + m.start.history.steps.toList.length = m.start.steps + 1 := by
    rw [Nat.add_comm, hstart.steps, ← hstart.length]
    rfl
  have hsnoc := hstart.recounts.snoc hmem
  rw [hnumber] at hsnoc
  refine ⟨hstart.program, ?_, ?_, ?_⟩
  · show m.start.steps + 1 = n + 1
    rw [hstart.steps]
  · show (m.start.history.steps.push _).size = n + 1
    rw [Array.size_push, ← hstart.length]
    rfl
  · show Recounts p 1 p.entry (m.start.history.steps.push ⟨_, target, m.start.steps + 1⟩).toList target
    rw [Array.toList_push]
    exact hsnoc

theorem takes {k : Nat} (h : Recorded p n m) (ht : Takes k m m') : Recorded p (n + k) m' := by
  induction ht generalizing n with
  | zero => exact h
  | succ hs _ ih =>
    rw [Nat.add_comm _ 1, ← Nat.add_assoc]
    exact ih (h.moved hs)

theorem reaches {k : Nat} (h : Recorded p n m) (hr : Reaches k m m') : Recorded p (n + k) m' := by
  obtain ⟨m₁, ht, rfl⟩ := hr
  exact (h.takes ht).start

theorem call (h : Recorded p n m) (c : Call) : Recorded p (c.count m n) (after c.perform m) := by
  rcases c.kinds with hc | hc | rfl
  · have hcount : c.count m n = n := by
      cases c with
      | setSignal | setRegister => rfl
      | step | run | restart => cases hc
    rw [hcount]
    exact h.rewritten (Call.rewritten hc m)
  · obtain ⟨k, hr, hcount⟩ := Call.reaches hc m
    rw [hcount]
    exact h.reaches hr
  · exact h.restart

theorem performAll (h : Recorded p n m) (calls : List Call) :
    Recorded p (countAll calls m n) (performAll calls m) := by
  induction calls generalizing n m with
  | nil => exact h
  | cons c calls ih => exact ih (h.call c)

end Recorded

/-! ## Actions on the way -/

/-- The machine's values are `v` after the actions of the states that it entered, in order. -/
def Fired (v : Array Bool) (m : Machine) : Prop :=
  m.values = (m.entered.flatMap m.program.actions).foldl Action.fire v

/-- The machine is at its entry, and has not entered it. -/
structure Ready (m : Machine) : Prop where
  started : m.started = false
  current : m.current = m.program.entry
  history : m.history = .empty
  steps : m.steps = 0

theorem Ready.new (p : Program) (settings : RunSettings) : Ready (.new p settings) := ⟨rfl, rfl, rfl, rfl⟩

theorem Ready.restart (m : Machine) : Ready m.restart := ⟨rfl, rfl, rfl, rfl⟩

theorem Ready.rewritten {m m' : Machine} (h : Ready m) (hm : Rewritten m m') : Ready m' := by
  rw [hm]
  exact ⟨h.started, h.current, h.history, h.steps⟩

theorem Ready.start_values {m : Machine} (h : Ready m) :
    m.start.values = (m.program.actions m.program.entry).foldl Action.fire m.values := by
  have hstart : m.start = { m with started := true }.enter m.current := if_neg (by simp [h.started])
  rw [hstart, h.current]
  rfl

theorem Ready.fired {m : Machine} (h : Ready m) : Fired m.values m.start := by
  have hentered : m.start.entered = [m.program.entry] := by
    rw [entered, start_program, start_history, h.history]
    rfl
  rw [Fired, hentered, start_program, h.start_values, List.flatMap_singleton]

theorem Fired.moveTo {v : Array Bool} {m : Machine} (h : Fired v m) (target : StateId) :
    Fired v (m.moveTo target) := by
  rw [Fired, entered_moveTo, List.flatMap_append, List.foldl_append]
  show (m.program.actions target).foldl Action.fire m.values = _
  rw [h]
  simp [Machine.moveTo, enter]

theorem Fired.takes {k : Nat} {v : Array Bool} {m m' : Machine} (h : Fired v m.start) (ht : Takes k m m') :
    Fired v m'.start := by
  induction ht with
  | zero => exact h
  | @succ k m m₁ _ target hs _ ih =>
    refine ih ?_
    rw [start_of_moved hs]
    obtain ⟨-, -, rfl⟩ := step_eq_moved.mp hs
    exact h.moveTo target

theorem performAll_append (as bs : List Call) (m : Machine) :
    performAll (as ++ bs) m = performAll bs (performAll as m) := List.foldl_append

/-- A machine that was made or restarted just now is ready. -/
theorem ready_of_restarted {p : Program} {settings : RunSettings} {earlier : List Call}
    (h : earlier = [] ∨ ∃ before, earlier = before ++ [.restart]) : Ready (performAll earlier (.new p settings)) := by
  rcases h with rfl | ⟨before, rfl⟩
  · exact .new p settings
  · rw [performAll_append]
    exact .restart _

theorem Ready.performAll {m : Machine} {writes : List Call} (h : Ready m) (hw : ∀ c ∈ writes, c.writes = true) :
    Ready (performAll writes m) := by
  induction writes generalizing m with
  | nil => exact h
  | cons c writes ih =>
    rw [List.forall_mem_cons] at hw
    exact ih (h.rewritten (Call.rewritten hw.1 m)) hw.2

theorem reaches_performAll (m : Machine) {calls : List Call} (h : ∀ c ∈ calls, c.advances = true) (hne : calls ≠ []) :
    ∃ k, Reaches k m (performAll calls m) := by
  induction calls generalizing m with
  | nil => exact absurd rfl hne
  | cons c calls ih =>
    rw [List.forall_mem_cons] at h
    obtain ⟨j, hr, -⟩ := Call.reaches h.1 m
    by_cases hcalls : calls = []
    · subst hcalls
      exact ⟨j, hr⟩
    · obtain ⟨k, hr'⟩ := ih (after c.perform m) h.2 hcalls
      exact ⟨j + k, hr.trans hr'⟩

/-- **Histories are sound.** Whatever is done to a machine, its history has a record for each transition
that was taken since it was made or last restarted, as many as the machine has counted. They are
numbered from one, and lead from the entry to the current state by edges of the program. And if from
the first step on the machine was only asked to go on, its values are those before that step after
the actions of the states on the way, each time that one was entered. -/
theorem history_sound (p : Program) (settings : RunSettings) (calls : List Call) (m : Machine)
    (hm : performAll calls (.new p settings) = m) :
    m.history.length = countAll calls (.new p settings) 0 ∧ m.steps = m.history.length ∧
    Recounts p 1 p.entry m.history.steps.toList m.current ∧
    ∀ earlier writes onward : List Call, calls = earlier ++ writes ++ onward →
      (earlier = [] ∨ ∃ before, earlier = before ++ [.restart]) → (∀ c ∈ writes, c.writes = true) →
      (∀ c ∈ onward, c.advances = true) → onward ≠ [] →
      m.values = ((p.entry :: m.history.steps.toList.map StepRecord.target).flatMap p.actions).foldl Action.fire
        (performAll (earlier ++ writes) (.new p settings)).values := by
  subst hm
  have hrecorded := (Recorded.new p settings).performAll calls
  refine ⟨hrecorded.length, hrecorded.steps.trans hrecorded.length.symm, hrecorded.recounts, ?_⟩
  intro earlier writes onward hcalls hearlier hwrites honward hne
  subst hcalls
  have hready : Ready (performAll (earlier ++ writes) (.new p settings)) := by
    rw [performAll_append]
    exact (ready_of_restarted hearlier).performAll hwrites
  obtain ⟨k, m₁, ht, hm₁⟩ := reaches_performAll (performAll (earlier ++ writes) (.new p settings)) honward hne
  have hfired := hready.fired.takes ht
  rw [← hm₁, ← performAll_append, Fired, entered, hrecorded.program] at hfired
  exact hfired

/-- A run, a restart, a write, a run that fails by its limit, and more calls than there are
transitions: the ladder was climbed once. -/
theorem ladder_history_sound :
    ∃ m, performAll [.run, .restart, .setSignal ⟨0⟩ true, .run, .step, .step, .run] (.new ladder ⟨1⟩) = m ∧
      m.history.length = 3 ∧ m.steps = 3 ∧ Recounts ladder 1 ladder.entry m.history.steps.toList m.current ∧
      m.values = ([.drive ⟨0⟩ true, .drive ⟨0⟩ false] : List Action).foldl Action.fire #[true] := by
  obtain ⟨hlength, hsteps, hrecounts, hvalues⟩ := history_sound ladder ⟨1⟩
    [.run, .restart, .setSignal ⟨0⟩ true, .run, .step, .step, .run] _ rfl
  have hvalues := hvalues [.run, .restart] [.setSignal ⟨0⟩ true] [.run, .step, .step, .run] rfl
    (.inr ⟨[.run], rfl⟩) (by decide) (by decide) (by simp)
  exact ⟨_, rfl, hlength, hsteps.trans hlength, hrecounts, hvalues.trans (by decide +kernel)⟩

end Machine

end SignalGraph
