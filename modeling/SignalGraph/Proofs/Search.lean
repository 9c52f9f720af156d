/-
The search of a graph is exact, and ends.

What is to be found is said without the search: `Connected` are the states of the table that edges
lead to from the entry, over states of the table. The search is its turns one after the other
(`turn`), each of which takes one from what is in the queue and what can still enter it, so that
there are no more turns than edges, and one for the entry (`iterate_turn`). Whatever gets into the
queue was led to from the entry, so nothing else is marked. And since a machine goes by edges only,
it never is in a state of the table without a mark.
-/
import Mathlib.Logic.Function.Iterate
import Mathlib.Tactic.Ring
import SignalGraph.Proofs.Machines
import SignalGraph.Proofs.Reachability

namespace SignalGraph

namespace Program

variable {p : Program}

/-! ## Paths -/

/-- A transition or the default of a state leads to another. -/
inductive Edge (p : Program) (q : StateId) : StateId → Prop
  | guarded {n : StateNode} {t : Transition} : p.state? q = some n → t ∈ n.transitions → Edge p q t.target
  | default {n : StateNode} {target : StateId} : p.state? q = some n → n.defaultTarget = some target →
      Edge p q target

/-- Edges lead from the entry to the state, and all states on the way are in the table, its ends
included. -/
inductive Connected (p : Program) : StateId → Prop
  | entry {n : StateNode} : p.state? p.entry = some n → Connected p p.entry
  | edge {q q' : StateId} {n : StateNode} : Connected p q → p.Edge q q' → p.state? q' = some n → Connected p q'

theorem leads_iff {q q' : StateId} : p.Leads q q' ↔ p.Edge q q' := by
  unfold Leads successors
  constructor
  · intro h
    split at h
    · next n hn =>
      simp only [StateNode.successors, List.mem_append, List.mem_map, Option.mem_toList] at h
      rcases h with ⟨t, ht, rfl⟩ | hd
      · exact .guarded hn ht
      · exact .default hn hd
    · cases h
  · intro h
    cases h with
    | guarded hn ht => simp only [hn, StateNode.successors, List.mem_append, List.mem_map_of_mem ht, true_or]
    | default hn hd => simp [hn, StateNode.successors, hd]

theorem connected_iff {q : StateId} : p.Connected q ↔ p.Path p.entry q ∧ q.index < p.states.size := by
  constructor
  · intro h
    induction h with
    | entry hn => exact ⟨.refl, (Array.getElem?_eq_some_iff.mp hn).1⟩
    | edge _ hedge hn ih => exact ⟨ih.1.tail (leads_iff.mpr hedge), (Array.getElem?_eq_some_iff.mp hn).1⟩
  · intro h
    obtain ⟨hpath, hlt⟩ := h
    induction hpath with
    | refl => exact .entry (Array.getElem?_eq_getElem hlt)
    | tail _ hlead ih => exact .edge (ih hlead.lt_size) (leads_iff.mp hlead) (Array.getElem?_eq_getElem hlt)

theorem Connected.state?_entry {q : StateId} (h : p.Connected q) : ∃ n, p.state? p.entry = some n := by
  induction h with
  | entry hn => exact ⟨_, hn⟩
  | edge _ _ _ ih => exact ih

/-! ## Marks -/

/-- If the states in the queue and those with a mark were led to from the entry, then so were all that
the search marks. -/
theorem path_of_explore {queue : List StateId} {seen : Array Bool} (hqueue : ∀ q ∈ queue, p.Path p.entry q)
    (hseen : ∀ i, seen[i]? = some true → p.Path p.entry ⟨i⟩) {i : Nat}
    (h : (p.explore queue seen)[i]? = some true) : p.Path p.entry ⟨i⟩ := by
  fun_induction explore p queue seen with
  | case1 seen => exact hseen i h
  | case2 seen q rest _ ih =>
    have hq : p.Path p.entry q := hqueue q (by simp)
    refine ih (fun q' hq' => ?_) (fun j hj => ?_) h
    · rcases List.mem_append.mp hq' with hmem | hlead
      · exact hqueue q' (by simp [hmem])
      · exact hq.tail hlead
    · rw [Array.getElem?_setIfInBounds] at hj
      split at hj
      · next he =>
        subst he
        exact hq
      · exact hseen j hj
  | case3 seen q rest _ ih => exact ih (fun q' hq' => hqueue q' (by simp [hq'])) hseen h

theorem reachable_iff {i : Nat} : p.reachable[i]? = some true ↔ p.Connected ⟨i⟩ := by
  rw [connected_iff]
  constructor
  · intro h
    refine ⟨path_of_explore (List.forall_mem_singleton.mpr .refl) (fun j hj => ?_) h, ?_⟩
    · simp [Array.getElem?_replicate] at hj
    · have hlt := (Array.getElem?_eq_some_iff.mp h).1
      rwa [size_reachable] at hlt
  · exact fun h => reachable_of_path h.1 h.2

/-! ## Turns -/

/-- One turn of the search. The first state of the queue is passed over if it is unknown or has a mark;
else it gets one, and its edges go to the end of the queue. -/
def turn (p : Program) : List StateId × Array Bool → List StateId × Array Bool
  | ([], seen) => ([], seen)
  | (q :: rest, seen) =>
    if seen[q.index]? = some false then (rest ++ p.successors q, seen.setIfInBounds q.index true)
    else (rest, seen)

/-- The number of edges of the graph. -/
def edgeCount (p : Program) : Nat := (p.stateIds.map fun q => (p.successors q).length).sum

/-- As many turns as there are states in the queue and edges of states without a mark empty the queue. -/
theorem iterate_turn (queue : List StateId) (seen : Array Bool) :
    p.turn^[queue.length + p.pendingEdges 0 seen.toList] (queue, seen) = ([], p.explore queue seen) := by
  fun_induction explore p queue seen with
  | case1 seen => exact Function.iterate_fixed rfl _
  | case2 seen q rest hq ih =>
    have hpending := @pendingEdges_set p 0 q.index seen.toList (Array.getElem?_toList.trans hq)
    rw [Nat.zero_add] at hpending
    rw [Array.toList_setIfInBounds, List.length_append] at ih
    have hmeasure : (q :: rest).length + p.pendingEdges 0 seen.toList =
        rest.length + (p.successors q).length + p.pendingEdges 0 (seen.toList.set q.index true) + 1 := by
      rw [← hpending, List.length_cons]
      show _ + (_ + (p.successors q).length) = _
      omega
    rw [hmeasure, Function.iterate_succ_apply, turn, if_pos hq, ih]
  | case3 seen q rest hq ih =>
    rw [List.length_cons, Nat.add_right_comm, Function.iterate_succ_apply, turn, if_neg hq, ih]

theorem pendingEdges_replicate (p : Program) (i k : Nat) : p.pendingEdges i (List.replicate k false) =
    ((List.range' i k).map fun j => (p.successors ⟨j⟩).length).sum := by
  induction k generalizing i with
  | zero => rfl
  | succ k ih =>
    rw [List.replicate_succ, List.range'_succ, List.map_cons, List.sum_cons, ← ih (i + 1)]
    rfl

theorem iterate_turn_entry (p : Program) :
    p.turn^[p.edgeCount + 1] ([p.entry], .replicate p.states.size false) = ([], p.reachable) := by
  have hpending : p.pendingEdges 0 (Array.replicate p.states.size false).toList = p.edgeCount := by
    rw [Array.toList_replicate, pendingEdges_replicate, edgeCount, stateIds, List.map_map, List.range_eq_range']
    rfl
  rw [← hpending, Nat.add_comm]
  exact iterate_turn [p.entry] _

end Program

/-! ## Machines -/

/-- Edges lead from the entry to where the machine is. -/
theorem Machine.Reachable.path {p : Program} {m : Machine} (h : Reachable p m) : p.Path p.entry m.current := by
  have hinv : m.program = p ∧ p.Path p.entry m.current := by
    refine h.invariant (I := fun m => m.program = p ∧ p.Path p.entry m.current) (fun _ => ⟨rfl, .refl⟩) ?_
    rintro m m' hmove ⟨rfl, hpath⟩
    cases hmove with
    | write => exact ⟨rfl, hpath⟩
    | start => exact ⟨start_program m, by rwa [start_current]⟩
    | take _ _ hnext =>
      obtain ⟨n, hn, hnext⟩ := next_ok hnext
      refine ⟨rfl, hpath.tail ?_⟩
      show _ ∈ m.program.successors m.current
      rw [Program.successors, hn]
      exact StateNode.next_mem_successors hnext
    | restart => exact ⟨rfl, .refl⟩
  exact hinv.2

namespace Program

/-- **The search is exact.** Whatever the graph is, the queue is empty after one turn for the entry and one for
each edge, and then a state has a mark if and only if it is in the table and edges lead to it from the entry over
states of the table. No state has one if the entry is not in the table. Whatever is done to a machine for the
program, the state that it is in has a mark if it is in the table. -/
theorem search_exact (p : Program) :
    p.turn^[p.edgeCount + 1] ([p.entry], .replicate p.states.size false) = ([], p.reachable) ∧
      p.reachable.size = p.states.size ∧ (∀ i, p.reachable[i]? = some true ↔ p.Connected ⟨i⟩) ∧
      (p.state? p.entry = none → ∀ i, i < p.states.size → p.reachable[i]? = some false) ∧
      ∀ m, Machine.Reachable p m → ∀ n, p.state? m.current = some n → p.reachable[m.current.index]? = some true := by
  refine ⟨p.iterate_turn_entry, p.size_reachable, fun _ => reachable_iff, fun hentry i hi => ?_, ?_⟩
  · have hmark : p.reachable[i]? ≠ some true := by
      intro hmark
      obtain ⟨n, hn⟩ := (reachable_iff.mp hmark).state?_entry
      cases hentry.symm.trans hn
    rw [Array.getElem?_eq_getElem (by rwa [size_reachable])] at hmark ⊢
    simpa using hmark
  · intro m hm n hn
    exact reachable_of_path hm.path (Array.getElem?_eq_some_iff.mp hn).1

/-- A loop, two edges to the same state, one to no state, and a state that no edge leads to. -/
def tangled : Program :=
  { signals := #[⟨"go", true, false⟩]
    states := #[
      { label := "a",
        transitions := [⟨⟨0⟩, ⟨9⟩, .when ⟨0⟩ true, 0⟩, ⟨⟨0⟩, ⟨0⟩, .always, 1⟩, ⟨⟨0⟩, ⟨2⟩, .always, 2⟩],
        defaultTarget := some ⟨2⟩ },
      { label := "b", defaultTarget := some ⟨0⟩ }, { label := "c", defaultTarget := some ⟨0⟩ }]
    entry := ⟨0⟩
    exit := ⟨3⟩ }

theorem tangled_search_exact :
    tangled.turn^[7] ([⟨0⟩], #[false, false, false]) = ([], #[true, false, true]) ∧ tangled.Connected ⟨2⟩ ∧
      ¬ tangled.Connected ⟨1⟩ ∧
      ∃ m, Machine.performAll [.step, .restart, .setSignal ⟨0⟩ false, .run] (.new tangled ⟨2⟩) = m ∧
        m.current = ⟨0⟩ ∧ tangled.reachable[m.current.index]? = some true := by
  obtain ⟨hturns, -, hmark, -, hmachine⟩ := tangled.search_exact
  have hreachable : tangled.reachable = #[true, false, true] := by decide +kernel
  have hcurrent : (Machine.performAll [.step, .restart, .setSignal ⟨0⟩ false, .run] (.new tangled ⟨2⟩)).current =
      ⟨0⟩ := by
    decide +kernel
  refine ⟨hreachable ▸ hturns, (hmark 2).mp ?_, fun h => ?_, _, rfl, hcurrent,
    hmachine _ ⟨⟨2⟩, _, rfl⟩ tangled.states[0] (by rw [hcurrent]; rfl)⟩
  · rw [hreachable]
    rfl
  · have hmark' := (hmark 1).mpr h
    rw [hreachable] at hmark'
    cases hmark'

end Program

end SignalGraph
