/-
A program that was checked never gets stuck.

A machine is always in a state of the table: it starts at the entry, and the edges of a
well-formed table lead to its states. The check leaves no state but the exit where some
values would satisfy no edge. So no step fails, and a run only by its limit.
-/
import SignalGraph.Proofs.Machines
import SignalGraph.Proofs.WellFormed

namespace SignalGraph

/-- Whatever the values are, an edge of every state but the exit can be taken. -/
def Program.AlwaysMoves (p : Program) : Prop :=
  ∀ q n, p.state? q = some n → q ≠ p.exit → ∀ v, (n.next v).isSome = true

theorem StateNode.next_isSome {n : StateNode} (h : n.edgeViolations = []) (v : Valuation) :
    (n.next v).isSome = true := by
  unfold StateNode.edgeViolations at h
  split at h
  · cases h
  · next hdead =>
    rw [List.append_eq_nil_iff] at h
    unfold StateNode.next
    cases hf : n.transitions.find? (·.guard.holds v) with
    | some t => rfl
    | none =>
      -- No guard holds, so the transitions do not cover `v`, and only a default passes the check.
      cases hd : n.defaultTarget with
      | some target => rfl
      | none =>
        have hcover : coversAll n.transitions = true := by
          by_contra hc
          simp [hd, hc] at h
        have hany := anyHolds_of_coversAll hcover v
        simp only [anyHolds, List.any_eq_true] at hany
        obtain ⟨t, ht, hg⟩ := hany
        rw [List.find?_eq_none] at hf
        exact absurd hg (hf t ht)

theorem Program.edgeViolations_nil {p : Program} (h : p.violations = []) {q : StateId} {n : StateNode}
    (hn : p.state? q = some n) (hq : q ≠ p.exit) : n.edgeViolations = [] := by
  simp only [Program.violations, List.flatMap_eq_nil_iff] at h
  have hmem : (n, q.index) ∈ p.states.toList.zipIdx := by
    rw [List.mk_mem_zipIdx_iff_getElem?, Array.getElem?_toList]
    exact hn
  have hv := h _ hmem
  simp only [Program.stateViolations, List.append_eq_nil_iff] at hv
  rw [if_neg hq] at hv
  exact hv.2

theorem Program.alwaysMoves {p : Program} (h : p.violations = []) : p.AlwaysMoves :=
  fun _ _ hn hq v => StateNode.next_isSome (p.edgeViolations_nil h hn hq) v

theorem StateNode.Grounded.successors {n : StateNode} {signals : Array SignalInfo} {states : Nat} {q : StateId}
    (h : n.Grounded signals states q) {target : StateId} (ht : target ∈ n.successors) :
    target.index < states := by
  simp only [StateNode.successors, List.mem_append, List.mem_map, Option.mem_toList] at ht
  rcases ht with ⟨t, ht, rfl⟩ | ht
  · exact h.targets t ht
  · exact h.default target ht

namespace Machine

/-- The machine runs the program, and is in one of its states. -/
def InTable (p : Program) (m : Machine) : Prop := m.program = p ∧ m.current.index < p.states.size

theorem Move.inTable {p : Program} (hw : WellFormed p.signals p.states) (he : p.entry.index < p.states.size)
    {m m' : Machine} (h : Move m m') (hm : InTable p m) : InTable p m' := by
  obtain ⟨rfl, hlt⟩ := hm
  cases h with
  | write => exact ⟨rfl, hlt⟩
  | start => exact ⟨start_program m, by rwa [start_current]⟩
  | take _ _ hn =>
    obtain ⟨n, hnode, hnext⟩ := next_ok hn
    exact ⟨rfl, (hw _ n hnode).successors (StateNode.next_mem_successors hnext)⟩
  | restart => exact ⟨rfl, he⟩

/-- A machine in a state of a program that always moves takes its next transition. -/
theorem next_isOk {p : Program} (hp : p.AlwaysMoves) {m : Machine} (hm : InTable p m)
    (hne : m.current ≠ p.exit) : ∃ target, m.next = .ok target := by
  obtain ⟨rfl, hlt⟩ := hm
  have hn : m.program.state? m.current = some m.program.states[m.current.index] :=
    Array.getElem?_eq_getElem hlt
  obtain ⟨target, ht⟩ := Option.isSome_iff_exists.mp (hp _ _ hn hne m.valuation)
  exact ⟨target, by simp only [next, hn, ht]⟩

theorem step_ne_error {p : Program} (hw : WellFormed p.signals p.states)
    (he : p.entry.index < p.states.size) (hp : p.AlwaysMoves) {m : Machine} (hm : InTable p m)
    (e : RunError) (m' : Machine) : step m ≠ .error e m' := by
  have hstart : InTable p m.start := (moves_start m).invariant (fun _ _ => Move.inTable hw he) hm
  rcases step_cases m with ⟨-, hs⟩ | ⟨hne, ⟨target, -, hs⟩ | ⟨e', hn, -⟩⟩
  · rw [hs]
    intro h
    cases h
  · rw [hs]
    intro h
    cases h
  · rw [← hm.1] at hstart hp
    obtain ⟨target, ht⟩ := next_isOk hp hstart (by simpa using hne)
    rw [ht] at hn
    cases hn

/-- So a run fails by its limit only. -/
theorem runFor_error {p : Program} (hw : WellFormed p.signals p.states)
    (he : p.entry.index < p.states.size) (hp : p.AlwaysMoves) {limit : Nat} :
    ∀ {allowed taken : Nat} {m m' : Machine} {e : RunError}, InTable p m →
      runFor limit allowed taken m = .error e m' → e = .stepLimit limit
  | 0, taken, m, m', e, hm, h => by
    unfold runFor at h
    split at h
    · cases h
    · cases h
      rfl
    · next hs => exact absurd hs (step_ne_error hw he hp hm _ _)
  | allowed + 1, taken, m, m', e, hm, h => by
    unfold runFor at h
    split at h
    · cases h
    · next hs =>
      have hm₁ := (step_moves m).invariant (fun _ _ => Move.inTable hw he) hm
      rw [after_of_ok hs] at hm₁
      exact runFor_error hw he hp hm₁ h
    · next hs => exact absurd hs (step_ne_error hw he hp hm _ _)

/-- **A program that was checked never gets stuck.** Whatever is done to a machine for a program
that a design handed out with its check on, neither a step nor a run of it then finds that no
edge can be taken. -/
theorem checked_never_deadEnd {d : Design} {top : Fragment} {p : Program} (hd : d.Reachable)
    (hcheck : d.settings.validateOnFinish = true) (hp : d.finish top = .ok p) {m : Machine}
    (hm : Reachable p m) (state : String) (m' : Machine) :
    step m ≠ .error (.deadEnd state) m' ∧ run m ≠ .error (.deadEnd state) m' := by
  obtain ⟨rfl, hentry, -, hv⟩ := Design.finish_ok hp
  have hw : WellFormed (d.program top).signals (d.program top).states := hd.wellFormed
  have hmoves := Program.alwaysMoves (hv hcheck)
  have hin : InTable (d.program top) m :=
    hm.invariant (fun _ => ⟨rfl, hentry⟩) fun _ _ => Move.inTable hw hentry
  refine ⟨step_ne_error hw hentry hmoves hin _ _, fun h => ?_⟩
  cases runFor_error hw hentry hmoves hin h

/-- A loop that is left once a signal is set. -/
def waitCalls : List Design.Call :=
  [.createSignal "go", .createState "wait", .createState "exit", .connectWhen ⟨0⟩ ⟨1⟩ (.when ⟨0⟩ true),
    .connectWhen ⟨0⟩ ⟨0⟩ (.when ⟨0⟩ false)]

theorem wait_never_deadEnd :
    ∃ p, (Design.performAll waitCalls (.new {})).finish ⟨⟨0⟩, ⟨1⟩, []⟩ = .ok p ∧
      ∃ m, performAll [.run, .setSignal ⟨0⟩ true] (.new p ⟨3⟩) = m ∧ m.current = ⟨0⟩ ∧
        step m ≠ .error (.deadEnd "wait") m ∧ run m ≠ .error (.deadEnd "wait") m :=
  have hp : (Design.performAll waitCalls (.new {})).finish ⟨⟨0⟩, ⟨1⟩, []⟩ =
      .ok ((Design.performAll waitCalls (.new {})).program ⟨⟨0⟩, ⟨1⟩, []⟩) := by decide +kernel
  ⟨_, hp, _, rfl, by decide +kernel,
    checked_never_deadEnd ⟨{}, waitCalls, rfl⟩ rfl hp ⟨⟨3⟩, _, rfl⟩ "wait" _⟩

end Machine

end SignalGraph
