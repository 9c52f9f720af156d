/-
Walks: the ways that control takes through a table of states.

A walk begins and ends before a state is entered, and enters the states in between. So
walks can be put end to end whatever is at the seam, and a run that reaches the exit is a
walk from the entry that does not come by the exit on its way, and then enters it
(`completes_iff`).
-/
import SignalGraph.Proofs.Machines

namespace SignalGraph

/-- The values after the actions of a state. -/
def StateNode.fire (n : StateNode) (values : Array Bool) : Array Bool := n.actions.foldl Action.fire values

/-- `Walk t q v path q' w`: before `q` with the values `v`, control enters the states `path` and
then is before `q'`, with the values `w`. -/
inductive Walk (t : Array StateNode) : StateId → Array Bool → List StateId → StateId → Array Bool → Prop
  | nil {q : StateId} {v : Array Bool} : Walk t q v [] q v
  | cons {q q₁ q₂ : StateId} {v w : Array Bool} {path : List StateId} {n : StateNode} :
      t[q.index]? = some n → n.next (.ofArray (n.fire v)) = some q₁ →
      Walk t q₁ (n.fire v) path q₂ w → Walk t q v (q :: path) q₂ w

namespace Walk

variable {t : Array StateNode}

theorem append {q₁ q₂ q₃ : StateId} {v₁ v₂ v₃ : Array Bool} {path₁ path₂ : List StateId}
    (h₁ : Walk t q₁ v₁ path₁ q₂ v₂) (h₂ : Walk t q₂ v₂ path₂ q₃ v₃) :
    Walk t q₁ v₁ (path₁ ++ path₂) q₃ v₃ := by
  induction h₁ with
  | nil => exact h₂
  | cons hn hnext _ ih => exact .cons hn hnext (ih h₂)

theorem snoc {q₁ q₂ q₃ : StateId} {v w : Array Bool} {path : List StateId} {n : StateNode}
    (h : Walk t q₁ v path q₂ w) (hn : t[q₂.index]? = some n)
    (hnext : n.next (.ofArray (n.fire w)) = some q₃) : Walk t q₁ v (path ++ [q₂]) q₃ (n.fire w) :=
  h.append (.cons hn hnext .nil)

theorem eq_cons {q q' : StateId} {v w : Array Bool} {path : List StateId} (h : Walk t q v path q' w) :
    path ++ [q'] = q :: (path ++ [q']).tail := by
  cases h <;> rfl

/-- Two walks to a state that neither came by before are the same. -/
theorem det {q x : StateId} {v w w' : Array Bool} {path path' : List StateId} (h : Walk t q v path x w)
    (hx : x ∉ path) (h' : Walk t q v path' x w') (hx' : x ∉ path') : path = path' ∧ w = w' := by
  induction h generalizing path' with
  | nil =>
    cases h' with
    | nil => exact ⟨rfl, rfl⟩
    | cons => simp at hx'
  | cons hn hnext _ ih =>
    cases h' with
    | nil => simp at hx
    | cons hn' hnext' hrest =>
      rw [hn] at hn'
      cases hn'
      rw [hnext] at hnext'
      cases hnext'
      obtain ⟨rfl, rfl⟩ := ih (fun hm => hx (by simp [hm])) hrest (fun hm => hx' (by simp [hm]))
      exact ⟨rfl, rfl⟩

end Walk

/-! ## Runs of a machine -/

namespace Machine

/-- A machine before its first step, with values for its signals. -/
def load (p : Program) (settings : RunSettings) (values : Array Bool) : Machine :=
  { Machine.new p settings with values }

/-- The states that were entered. -/
def entered (m : Machine) : List StateId := m.program.entry :: m.history.steps.toList.map StepRecord.target

theorem step_halted {m : Machine} (hs : m.started = true) (h : m.current = m.program.exit) :
    step m = .ok .halted m :=
  step_eq_halted.mpr ⟨h, (start_of_started hs).symm⟩

theorem step_moved {m : Machine} {target : StateId} (hs : m.started = true)
    (hne : m.current ≠ m.program.exit) (hn : m.next = .ok target) :
    step m = .ok (.moved target) (m.moveTo target) := by
  refine step_eq_moved.mpr ⟨hne, ?_, ?_⟩
  · rw [start_of_started hs, hn]
  · rw [start_of_started hs]

/-- The machine has entered the state `q` with the values `v`. -/
structure Inside (p : Program) (q : StateId) (v : Array Bool) (m : Machine) : Prop where
  program : m.program = p
  started : m.started = true
  current : m.current = q
  values : m.values = (p.actions q).foldl Action.fire v

theorem Inside.fire {p : Program} {q : StateId} {v : Array Bool} {m : Machine} {n : StateNode}
    (h : Inside p q v m) (hn : p.states[q.index]? = some n) : m.values = n.fire v := by
  have hact : p.actions q = n.actions := by simp only [Program.actions, Program.state?, hn]
  rw [h.values, hact]
  rfl

theorem Inside.next {p : Program} {q q₁ : StateId} {v : Array Bool} {m : Machine} {n : StateNode}
    (h : Inside p q v m) (hn : p.states[q.index]? = some n)
    (hnext : n.next (.ofArray (n.fire v)) = some q₁) : m.next = .ok q₁ := by
  unfold Machine.next
  rw [h.program, h.current, valuation, h.fire hn]
  simp only [Program.state?, hn, hnext]

theorem Inside.moveTo {p : Program} {q q₁ : StateId} {v : Array Bool} {m : Machine} {n : StateNode}
    (h : Inside p q v m) (hn : p.states[q.index]? = some n) : Inside p q₁ (n.fire v) (m.moveTo q₁) := by
  refine ⟨h.program, h.started, rfl, ?_⟩
  show (m.program.actions q₁).foldl Action.fire m.values = _
  rw [h.program, h.fire hn]

theorem entered_moveTo (m : Machine) (q : StateId) : (m.moveTo q).entered = m.entered ++ [q] := by
  simp [entered, Machine.moveTo, Machine.enter, History.record]

/-- A run follows the walk to the exit, if its limit allows it. -/
theorem runFor_of_walk {p : Program} {limit : Nat} {q : StateId} {v u : Array Bool} {path : List StateId}
    (h : Walk p.states q v path p.exit u) (hx : p.exit ∉ path) {m : Machine} (hm : Inside p q v m)
    {allowed taken : Nat} (hle : path.length ≤ allowed) :
    ∃ m', runFor limit allowed taken m = .ok (taken + path.length) m' ∧ Inside p p.exit u m' ∧
      m'.entered = m.entered ++ (path ++ [p.exit]).tail := by
  generalize hexit : p.exit = x at h hx
  induction h generalizing m allowed taken with
  | nil =>
    subst hexit
    have hstep := step_halted hm.started (hm.current.trans (by rw [hm.program]))
    refine ⟨m, ?_, hm, by simp⟩
    cases allowed with
    | zero => simp only [runFor, hstep, List.length_nil, Nat.add_zero]
    | succ allowed => simp only [runFor, hstep, List.length_nil, Nat.add_zero]
  | @cons q q₁ _ v _ path n hn hnext hrest ih =>
    subst hexit
    have hne : m.current ≠ m.program.exit := by
      rw [hm.current, hm.program]
      intro he
      exact hx (by simp [he])
    have hstep := step_moved hm.started hne (hm.next hn hnext)
    rw [List.length_cons] at hle
    obtain ⟨allowed, rfl⟩ : ∃ k, allowed = k + 1 := ⟨allowed - 1, by omega⟩
    obtain ⟨m', hrun, hin, hent⟩ :=
      @ih _ (hm.moveTo hn) allowed (taken + 1) (by omega) rfl fun hmem => hx (by simp [hmem])
    refine ⟨m', ?_, hin, ?_⟩
    · simp only [runFor, hstep, hrun, List.length_cons]
      congr 1
      omega
    · rw [hent, entered_moveTo, List.append_assoc, List.singleton_append, ← hrest.eq_cons]
      rfl

/-- A run that reaches the exit has followed a walk there. -/
theorem walk_of_runFor {p : Program} {limit : Nat} :
    ∀ {allowed taken k : Nat} {q : StateId} {v : Array Bool} {m m' : Machine}, Inside p q v m →
      runFor limit allowed taken m = .ok k m' →
      ∃ path u, Walk p.states q v path p.exit u ∧ p.exit ∉ path ∧ path.length ≤ allowed := by
  intro allowed
  induction allowed with
  | zero =>
    intro taken k q v m m' hm h
    simp only [runFor] at h
    rcases step_cases m with ⟨hc, -⟩ | ⟨-, ⟨_, -, hs⟩ | ⟨_, -, hs⟩⟩
    · rw [hm.current, hm.program] at hc
      exact ⟨[], v, hc ▸ .nil, by simp, by simp⟩
    · rw [hs] at h
      cases h
    · rw [hs] at h
      cases h
  | succ allowed ih =>
    intro taken k q v m m' hm h
    simp only [runFor] at h
    rcases step_cases m with ⟨hc, -⟩ | ⟨hne, ⟨target, hn, hs⟩ | ⟨_, -, hs⟩⟩
    · rw [hm.current, hm.program] at hc
      exact ⟨[], v, hc ▸ .nil, by simp, by simp⟩
    · rw [hs] at h
      rw [start_of_started hm.started] at hn h
      obtain ⟨n, hnode, hnext⟩ := next_ok hn
      rw [hm.program, hm.current] at hnode
      have hval : m.valuation = .ofArray (n.fire v) := by rw [valuation, hm.fire hnode]
      obtain ⟨path, u, hw, hx, hle⟩ := ih (hm.moveTo hnode) h
      refine ⟨q :: path, u, .cons hnode (hval ▸ hnext) hw, ?_, by simpa using hle⟩
      rw [hm.current, hm.program] at hne
      simp only [List.mem_cons, not_or]
      exact ⟨fun he => hne he.symm, hx⟩
    · rw [hs] at h
      cases h

theorem run_load (p : Program) (limit : Nat) (v : Array Bool) :
    run (load p ⟨limit⟩ v) = runFor limit limit 0 (load p ⟨limit⟩ v).start :=
  (runFor_start limit limit 0 (load p ⟨limit⟩ v)).symm

theorem inside_load (p : Program) (limit : Nat) (v : Array Bool) :
    Inside p p.entry v (load p ⟨limit⟩ v).start :=
  ⟨rfl, rfl, rfl, rfl⟩

end Machine

/-- From the values `v` the program reaches its exit: it takes `k` transitions, enters the states
`path`, and ends with the values `w`. -/
def Program.Completes (p : Program) (v : Array Bool) (k : Nat) (path : List StateId) (w : Array Bool) : Prop :=
  ∃ limit m, Machine.run (.load p ⟨limit⟩ v) = .ok k m ∧ m.entered = path ∧ m.values = w

/-- A walk to the exit, with room for it in the limit, is a run. -/
theorem run_of_walk {p : Program} {v u : Array Bool} {path : List StateId}
    (h : Walk p.states p.entry v path p.exit u) (hx : p.exit ∉ path) {limit : Nat} (hle : path.length ≤ limit) :
    ∃ m, Machine.run (.load p ⟨limit⟩ v) = .ok path.length m ∧ m.entered = path ++ [p.exit] ∧
      m.values = (p.actions p.exit).foldl Action.fire u := by
  obtain ⟨m, hrun, hin, hent⟩ := @Machine.runFor_of_walk p limit _ _ _ _ h hx _
    (Machine.inside_load p limit v) limit 0 hle
  rw [Nat.zero_add] at hrun
  refine ⟨m, (Machine.run_load p limit v).trans hrun, ?_, hin.values⟩
  rw [hent, h.eq_cons]
  rfl

theorem completes_iff {p : Program} {v w : Array Bool} {k : Nat} {path : List StateId} :
    p.Completes v k path w ↔ ∃ route u, Walk p.states p.entry v route p.exit u ∧ p.exit ∉ route ∧
      k = route.length ∧ path = route ++ [p.exit] ∧ w = (p.actions p.exit).foldl Action.fire u := by
  constructor
  · intro h
    obtain ⟨limit, m, hrun, rfl, rfl⟩ := h
    obtain ⟨route, u, hw, hx, hle⟩ := Machine.walk_of_runFor (Machine.inside_load p limit v)
      ((Machine.run_load p limit v).symm.trans hrun)
    obtain ⟨m', hrun', hent, hval⟩ := run_of_walk hw hx hle
    rw [hrun] at hrun'
    cases hrun'
    exact ⟨route, u, hw, hx, rfl, hent, hval⟩
  · intro h
    obtain ⟨route, u, hw, hx, rfl, rfl, rfl⟩ := h
    obtain ⟨m, hrun, hent, hval⟩ := run_of_walk hw hx (Nat.le_refl _)
    exact ⟨_, m, hrun, hent, hval⟩

theorem Program.Completes.det {p : Program} {v w w' : Array Bool} {k k' : Nat} {path path' : List StateId}
    (h : p.Completes v k path w) (h' : p.Completes v k' path' w') : k = k' ∧ path = path' ∧ w = w' := by
  rw [completes_iff] at h h'
  obtain ⟨route, u, hw, hx, rfl, rfl, rfl⟩ := h
  obtain ⟨route', u', hw', hx', rfl, rfl, rfl⟩ := h'
  obtain ⟨rfl, rfl⟩ := hw.det hx hw' hx'
  exact ⟨rfl, rfl, rfl⟩

end SignalGraph
