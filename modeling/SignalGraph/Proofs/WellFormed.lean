/-
What the tables of a design refer to.

Every handle is checked before it is stored, and no entry of a table is ever removed. So in
every design that can be reached, and in every program made from one, the handles in a
state are those of entries, no action writes a constant, and transitions are numbered in
the order in which they are tried.
-/
import SignalGraph.Proofs.Edits
import SignalGraph.Proofs.TruthTable

namespace SignalGraph

/-- What a state at `q` may hold, in tables of these signals and of so many states. -/
structure StateNode.Grounded (n : StateNode) (signals : Array SignalInfo) (states : Nat) (q : StateId) :
    Prop where
  reads : ∀ a ∈ n.actions, ∀ s ∈ a.reads, s.index < signals.size
  writes : ∀ a ∈ n.actions, ∃ info, signals[a.target.index]? = some info ∧ info.constant = false
  tests : ∀ t ∈ n.transitions, ∀ c ∈ t.guard.clauses, ∀ test ∈ c.tests, test.signal.index < signals.size
  targets : ∀ t ∈ n.transitions, t.target.index < states
  default : ∀ target, n.defaultTarget = some target → target.index < states
  sources : ∀ t ∈ n.transitions, t.source = q
  priorities : n.transitions.map Transition.priority = List.range n.transitions.length

/-- Each state holds only what it may. -/
def WellFormed (signals : Array SignalInfo) (states : Array StateNode) : Prop :=
  ∀ (i : Nat) (n : StateNode), states[i]? = some n → n.Grounded signals states.size ⟨i⟩

namespace StateNode.Grounded

variable {n : StateNode} {signals : Array SignalInfo} {states : Nat} {q : StateId}

theorem empty (label : String) : ({ label } : StateNode).Grounded signals states q := by
  constructor <;> simp

theorem mono (h : n.Grounded signals states q) {signals' : Array SignalInfo} {states' : Nat}
    (hsig : ∀ (i : Nat) (info : SignalInfo), signals[i]? = some info → signals'[i]? = some info)
    (hst : states ≤ states') : n.Grounded signals' states' q := by
  have hlt : ∀ i, i < signals.size → i < signals'.size := fun i hi =>
    (Array.getElem?_eq_some_iff.mp (hsig i _ (Array.getElem?_eq_getElem hi))).1
  exact {
    reads := fun a ha s hs => hlt _ (h.reads a ha s hs)
    writes := fun a ha => by
      obtain ⟨info, hi, hc⟩ := h.writes a ha
      exact ⟨info, hsig _ _ hi, hc⟩
    tests := fun t ht c hc test htest => hlt _ (h.tests t ht c hc test htest)
    targets := fun t ht => Nat.lt_of_lt_of_le (h.targets t ht) hst
    default := fun target htarget => Nat.lt_of_lt_of_le (h.default target htarget) hst
    sources := h.sources
    priorities := h.priorities }

theorem addAction (h : n.Grounded signals states q) {a : Action} (hr : ∀ s ∈ a.reads, s.index < signals.size)
    (hw : ∃ info, signals[a.target.index]? = some info ∧ info.constant = false) :
    (n.addAction a).Grounded signals states q := by
  refine { h with reads := fun b hb => ?_, writes := fun b hb => ?_ }
  · simp only [StateNode.addAction, List.mem_append, List.mem_singleton] at hb
    rcases hb with hb | rfl
    · exact h.reads b hb
    · exact hr
  · simp only [StateNode.addAction, List.mem_append, List.mem_singleton] at hb
    rcases hb with hb | rfl
    · exact h.writes b hb
    · exact hw

theorem addTransition (h : n.Grounded signals states q) {target : StateId} {g : Guard}
    (hg : ∀ s ∈ g.signals, s.index < signals.size) (ht : target.index < states) :
    (n.addTransition q target g).Grounded signals states q := by
  have hcases : ∀ t ∈ (n.addTransition q target g).transitions,
      t ∈ n.transitions ∨ t = ⟨q, target, g, n.transitions.length⟩ := fun t ht => by
    simpa [StateNode.addTransition] using ht
  refine { h with tests := fun t ht' => ?_, targets := fun t ht' => ?_, sources := fun t ht' => ?_,
                  priorities := ?_ }
  · rcases hcases t ht' with hmem | rfl
    · exact h.tests t hmem
    · exact fun c hc test htest => hg _ (Guard.mem_signals.mpr ⟨c, hc, test, htest, rfl⟩)
  · rcases hcases t ht' with hmem | rfl
    · exact h.targets t hmem
    · exact ht
  · rcases hcases t ht' with hmem | rfl
    · exact h.sources t hmem
    · rfl
  · simp [StateNode.addTransition, h.priorities, List.range_succ]

theorem setDefault (h : n.Grounded signals states q) {target : StateId} (ht : target.index < states) :
    (n.setDefault target).Grounded signals states q := by
  refine { h with default := fun target' htarget => ?_ }
  simp only [StateNode.setDefault, Option.some.injEq] at htarget
  exact htarget ▸ ht

end StateNode.Grounded

/-! ## Edits keep the tables well formed -/

theorem WellFormed.editState {d : Design} {q : StateId} {change : StateNode → StateNode}
    (h : WellFormed d.signals d.states)
    (hc : ∀ n, n.Grounded d.signals d.states.size q → (change n).Grounded d.signals d.states.size q) :
    WellFormed (d.editState q change).signals (d.editState q change).states := by
  intro i n hn
  rw [Design.editState_size, Design.editState_signals]
  rw [Design.editState_getElem?] at hn
  split at hn
  · next hq =>
    obtain ⟨n₀, hn₀, rfl⟩ := Option.map_eq_some_iff.mp hn
    subst hq
    exact hc n₀ (h _ _ hn₀)
  · exact h i n hn

namespace Design

theorem pushSignal_signal? {d : Design} (info : SignalInfo) {i : Nat} {info' : SignalInfo}
    (h : d.signals[i]? = some info') : (d.pushSignal info).signals[i]? = some info' := by
  have hlt := (Array.getElem?_eq_some_iff.mp h).1
  simp only [pushSignal, Array.getElem?_push]
  rw [if_neg (by omega), h]

theorem Edit.wellFormed {d d' : Design} (he : Edit d d') (h : WellFormed d.signals d.states) :
    WellFormed d'.signals d'.states := by
  cases he with
  | signal info _ => exact fun i n hn => (h i n hn).mono (fun _ _ => pushSignal_signal? info) (Nat.le_refl _)
  | scope | zero | constant => exact h
  | state label =>
    intro i n hn
    rw [pushState_size, pushState_signals]
    rw [pushState_getElem?] at hn
    split at hn
    · cases hn
      exact .empty label
    · exact (h i n hn).mono (fun _ _ hi => hi) (Nat.le_succ _)
  | action _ hr hw => exact WellFormed.editState h fun n hn => hn.addAction hr hw
  | transition _ ht hg => exact WellFormed.editState h fun n hn => hn.addTransition hg ht
  | default _ _ ht => exact WellFormed.editState h fun n hn => hn.setDefault ht

theorem Reachable.wellFormed {d : Design} (h : Reachable d) : WellFormed d.signals d.states :=
  h.invariant (I := fun d => WellFormed d.signals d.states) (fun _ i n hn => by simp [Design.new] at hn)
    fun _ _ => Edit.wellFormed

/-- **Tables are well formed.** In every design that can be reached the states refer to signals
and states that exist, write no constant, are the sources of their own transitions and
number these from zero; and so in every program that is made from one. -/
theorem reachable_tables_wellFormed {d : Design} (h : Reachable d) :
    WellFormed d.signals d.states ∧
      ∀ top p, d.finish top = .ok p → WellFormed p.signals p.states := by
  refine ⟨h.wellFormed, fun top p hp => ?_⟩
  rw [(finish_ok hp).1]
  exact h.wellFormed

/-- A half adder, then an edge from no state and a name that is in use. -/
def halfAdderCalls : List Call :=
  [.createSignal "a", .createSignal "b", .halfAdder ⟨0⟩ ⟨1⟩, .connect ⟨9⟩ ⟨0⟩, .createSignal "a"]

theorem halfAdder_tables_wellFormed :
    ∃ p, (performAll halfAdderCalls (.new {})).finish ⟨⟨0⟩, ⟨3⟩, []⟩ = .ok p ∧ p.states.size = 4 ∧
      WellFormed p.signals p.states :=
  have hp : (performAll halfAdderCalls (.new {})).finish ⟨⟨0⟩, ⟨3⟩, []⟩ =
      .ok ((performAll halfAdderCalls (.new {})).program ⟨⟨0⟩, ⟨3⟩, []⟩) := by decide +kernel
  ⟨_, hp, by decide +kernel, (reachable_tables_wellFormed ⟨{}, halfAdderCalls, rfl⟩).2 _ _ hp⟩

end Design

end SignalGraph
