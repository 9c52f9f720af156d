/-
The check reports what is wrong with a graph, and nothing else.

The defects are described here over all valuations, and with no tables: `Report` says which
list a program is to get, state by state. The list that the check computes is one
(`report_violations`), and there is no other (`Report.unique`). The one thing that the
description shares with the tables is their limit: past twelve signals guards count as leaving
a gap, and as not shadowing one another.
-/
import Mathlib.Data.Finset.Card
import Mathlib.Data.Finset.Dedup
import Mathlib.Data.List.Forall2
import SignalGraph.Proofs.Construction
import SignalGraph.Proofs.Reachability
import SignalGraph.Proofs.TruthTable

namespace SignalGraph

/-! ## Guards -/

/-- The guard has no clauses, or all tests of one of them agree with the valuation. -/
def Guard.Satisfied (g : Guard) (v : Valuation) : Prop :=
  g.clauses = [] ∨ ∃ c ∈ g.clauses, ∀ t ∈ c.tests, v t.signal = t.value

theorem Guard.holds_iff {g : Guard} {v : Valuation} : g.holds v = true ↔ g.Satisfied v := by
  simp [Guard.holds, Guard.isAlways, Guard.Satisfied, Clause.holds, Test.holds]

theorem anyHolds_iff {ts : List Transition} {v : Valuation} :
    anyHolds ts v = true ↔ ∃ t ∈ ts, t.guard.Satisfied v := by
  simp only [anyHolds, List.any_eq_true, Guard.holds_iff]

/-- The signals that the guards of some transitions test. -/
def testedSignals (ts : List Transition) : Finset SignalId :=
  (ts.flatMap fun t => t.guard.clauses.flatMap fun c => c.tests.map Test.signal).toFinset

theorem length_guardSignals (ts : List Transition) : (guardSignals ts).length = (testedSignals ts).card := by
  have hset : testedSignals ts = (guardSignals ts).toFinset := by
    ext s
    simp only [testedSignals, List.mem_toFinset, mem_guardSignals, Guard.mem_signals, List.mem_flatMap,
      List.mem_map]
  have hnodup : (guardSignals ts).Nodup := (guardSignals_increasing ts).nodup
  rw [hset, List.toFinset_card_of_nodup hnodup]

/-! ## Descriptions of reports -/

/-- The report is the violation if the condition holds, and else empty. -/
def Flags (condition : Prop) (violation : Violation) (report : List Violation) : Prop :=
  (condition ∧ report = [violation]) ∨ (¬ condition ∧ report = [])

theorem Flags.unique {condition : Prop} {violation : Violation} {r r' : List Violation}
    (h : Flags condition violation r) (h' : Flags condition violation r') : r = r' := by
  rcases h with ⟨hc, rfl⟩ | ⟨hc, rfl⟩
  · exact (h'.resolve_right fun h => h.1 hc).2.symm
  · exact (h'.resolve_left fun h => hc h.1).2.symm

theorem flags_ite {condition : Prop} {b : Bool} (h : b = true ↔ condition) (violation : Violation) :
    Flags condition violation (if b then [violation] else []) := by
  unfold Flags
  rw [← h]
  cases b <;> simp

namespace StateNode

/-- There is no default, and some values satisfy no guard, or more signals are tested than can be
tried. -/
def Leaky (n : StateNode) : Prop :=
  n.defaultTarget = none ∧ (12 < (testedSignals n.transitions).card ∨
    ∃ v : Valuation, ∀ t ∈ n.transitions, ¬ t.guard.Satisfied v)

/-- No values satisfy the guard at the position and none before it, and few enough signals are
tested up to there. -/
def DeadAt (n : StateNode) (k : Nat) : Prop :=
  (testedSignals (n.transitions.take (k + 1))).card ≤ 12 ∧ ∃ t, n.transitions[k]? = some t ∧
    ¬ ∃ v : Valuation, t.guard.Satisfied v ∧ ∀ e ∈ n.transitions.take k, ¬ e.guard.Satisfied v

/-- The violation that names the transition at the position. -/
def NamesAt (n : StateNode) (k : Nat) (violation : Violation) : Prop :=
  ∃ t, n.transitions[k]? = some t ∧ violation = .shadowed n.label t.priority

/-- The report names the dead positions, in ascending order. -/
def DeadReport (n : StateNode) (report : List Violation) : Prop :=
  ∃ positions : List Nat, positions.Pairwise (· < ·) ∧ (∀ k, k ∈ positions ↔ n.DeadAt k) ∧
    List.Forall₂ n.NamesAt positions report

/-- The report on the edges of a state that is not the exit. -/
inductive EdgeReport (n : StateNode) : List Violation → Prop
  | deadEnd (htransitions : n.transitions = []) (hdefault : n.defaultTarget = none) :
    EdgeReport n [.deadEnd n.label]
  | edges {gap dead : List Violation} (hedge : ¬ (n.transitions = [] ∧ n.defaultTarget = none))
    (hgap : Flags n.Leaky (.notExhaustive n.label) gap) (hdead : n.DeadReport dead) :
    EdgeReport n (gap ++ dead)

end StateNode

namespace Program

/-- The report on the state `n`, which is at the position `i`. -/
def StateReport (p : Program) (n : StateNode) (i : Nat) (report : List Violation) : Prop :=
  ∃ lost edges, report = lost ++ edges ∧
    Flags (p.reachable[i]? = some false) (.unreachable n.label) lost ∧
    ((⟨i⟩ = p.exit ∧ edges = []) ∨ (⟨i⟩ ≠ p.exit ∧ n.EdgeReport edges))

/-- The report on the program: those on its states, in order. -/
def Report (p : Program) (report : List Violation) : Prop :=
  ∃ reports : List (List Violation),
    List.Forall₂ (fun state r => p.StateReport state.1 state.2 r) p.states.toList.zipIdx reports ∧
      report = reports.flatten

end Program

/-! ## The check meets them -/

namespace StateNode

theorem leaky_iff {n : StateNode} :
    (n.defaultTarget.isNone && !coversAll n.transitions) = true ↔ n.Leaky := by
  have hcovers : coversAll n.transitions = false ↔ 12 < (testedSignals n.transitions).card ∨
      ∃ v : Valuation, ∀ t ∈ n.transitions, ¬ t.guard.Satisfied v := by
    rw [← Bool.not_eq_true, coversAll_iff, length_guardSignals]
    simp only [anyHolds_iff, maxTableSignals, Classical.not_and_iff_not_or_not, not_forall, Nat.not_le]
    simp only [not_exists, not_and]
  simp only [Bool.and_eq_true, Option.isNone_iff_eq_none, Bool.not_eq_true', Leaky, hcovers]

theorem isShadowed_iff_deadAt {n : StateNode} {t : Transition} {k : Nat} (hk : n.transitions[k]? = some t) :
    isShadowed (n.transitions.take k) t = true ↔ n.DeadAt k := by
  have htake : n.transitions.take k ++ [t] = n.transitions.take (k + 1) := by
    rw [List.take_add_one, hk, Option.toList_some]
  rw [isShadowed_iff, htake, length_guardSignals]
  refine and_congr_right fun _ => ?_
  simp only [Guard.holds_iff, anyHolds_iff]
  constructor
  · intro h
    refine ⟨t, hk, ?_⟩
    intro hlive
    obtain ⟨v, hv, hearlier⟩ := hlive
    obtain ⟨e, he, hsat⟩ := h v hv
    exact hearlier e he hsat
  · intro hdead v hv
    obtain ⟨t', hk', h⟩ := hdead
    cases hk.symm.trans hk'
    by_contra hnone
    simp only [not_exists, not_and] at hnone
    exact h ⟨v, hv, hnone⟩

theorem NamesAt.rightUnique (n : StateNode) : Relator.RightUnique n.NamesAt := by
  intro k v v' h h'
  obtain ⟨t, hk, rfl⟩ := h
  obtain ⟨t', hk', rfl⟩ := h'
  cases hk.symm.trans hk'
  rfl

/-- The dead positions in ascending order determine the report on them. -/
theorem DeadReport.unique {n : StateNode} {r r' : List Violation} (h : n.DeadReport r)
    (h' : n.DeadReport r') : r = r' := by
  obtain ⟨ks, hks, hmem, hr⟩ := h
  obtain ⟨ks', hks', hmem', hr'⟩ := h'
  have hperm : ks.Perm ks' :=
    (List.perm_ext_iff_of_nodup (hks.imp Nat.ne_of_lt) (hks'.imp Nat.ne_of_lt)).mpr fun k =>
      (hmem k).trans (hmem' k).symm
  obtain rfl : ks = ks' := hperm.eq_of_pairwise (fun a b _ _ hab hba => by omega) hks hks'
  exact (NamesAt.rightUnique n).forall₂ hr hr'

theorem deadReport_shadowed (n : StateNode) :
    n.DeadReport (n.shadowed.map fun t => .shadowed n.label t.priority) := by
  have hmem : ∀ x ∈ n.transitions.zipIdx.filter fun x => isShadowed (n.transitions.take x.2) x.1,
      n.transitions[x.2]? = some x.1 := by
    intro x hx
    exact List.mk_mem_zipIdx_iff_getElem?.mp (List.mem_of_mem_filter hx)
  refine ⟨(n.transitions.zipIdx.filter fun x => isShadowed (n.transitions.take x.2) x.1).map Prod.snd, ?_, ?_, ?_⟩
  · refine List.Pairwise.sublist (List.filter_sublist.map Prod.snd) ?_
    rw [List.zipIdx_map_snd]
    exact List.pairwise_lt_range' 1
  · intro k
    simp only [List.mem_map, List.mem_filter]
    constructor
    · intro hx
      obtain ⟨x, ⟨hzip, hshadowed⟩, rfl⟩ := hx
      exact (isShadowed_iff_deadAt (List.mk_mem_zipIdx_iff_getElem?.mp hzip)).mp hshadowed
    · intro hdead
      obtain ⟨-, t, hk, -⟩ := id hdead
      exact ⟨(t, k), ⟨List.mk_mem_zipIdx_iff_getElem?.mpr hk, (isShadowed_iff_deadAt hk).mpr hdead⟩, rfl⟩
  · rw [shadowed, List.map_map, List.forall₂_map_left_iff, List.forall₂_map_right_iff, List.forall₂_same]
    exact fun x hx => ⟨x.1, hmem x hx, rfl⟩

theorem edgeReport_edgeViolations (n : StateNode) : n.EdgeReport n.edgeViolations := by
  have hdead : n.isDeadEnd = true ↔ n.transitions = [] ∧ n.defaultTarget = none := by
    simp [isDeadEnd]
  unfold edgeViolations
  by_cases h : n.isDeadEnd = true
  · rw [if_pos h]
    exact .deadEnd (hdead.mp h).1 (hdead.mp h).2
  · rw [if_neg h]
    exact .edges (mt hdead.mpr h) (flags_ite leaky_iff _) (deadReport_shadowed n)

theorem EdgeReport.unique {n : StateNode} {r r' : List Violation} (h : n.EdgeReport r) (h' : n.EdgeReport r') :
    r = r' := by
  cases h with
  | deadEnd ht hd =>
    cases h' with
    | deadEnd => rfl
    | edges hedge => exact absurd ⟨ht, hd⟩ hedge
  | edges hedge hgap hdead =>
    cases h' with
    | deadEnd ht hd => exact absurd ⟨ht, hd⟩ hedge
    | edges _ hgap' hdead' => rw [hgap.unique hgap', hdead.unique hdead']

end StateNode

namespace Program

variable {p : Program}

theorem stateReport_stateViolations {n : StateNode} {i : Nat} (hi : i < p.states.size) :
    p.StateReport n i (p.stateViolations ⟨i⟩ n (p.reachable.getD i false)) := by
  have hmark : p.reachable.getD i false = false ↔ p.reachable[i]? = some false := by
    have hlt : i < p.reachable.size := by rwa [size_reachable]
    rw [Array.getD_eq_getD_getElem?, Array.getElem?_eq_getElem hlt]
    simp
  refine ⟨_, _, rfl, ?_, ?_⟩
  · cases hreached : p.reachable.getD i false with
    | false => exact .inl ⟨hmark.mp hreached, rfl⟩
    | true =>
      refine .inr ⟨?_, rfl⟩
      intro h
      rw [hmark.mpr h] at hreached
      cases hreached
  · by_cases hexit : (⟨i⟩ : StateId) = p.exit
    · exact .inl ⟨hexit, if_pos hexit⟩
    · rw [if_neg hexit]
      exact .inr ⟨hexit, n.edgeReport_edgeViolations⟩

theorem StateReport.unique {n : StateNode} {i : Nat} {r r' : List Violation} (h : p.StateReport n i r)
    (h' : p.StateReport n i r') : r = r' := by
  obtain ⟨lost, edges, rfl, hlost, hedges⟩ := h
  obtain ⟨lost', edges', rfl, hlost', hedges'⟩ := h'
  rw [hlost.unique hlost']
  congr 1
  rcases hedges with ⟨hexit, rfl⟩ | ⟨hexit, hedges⟩
  · exact (hedges'.resolve_right fun h => h.1 hexit).2.symm
  · exact hedges.unique (hedges'.resolve_left fun h => hexit h.1).2

theorem report_violations (p : Program) : p.Report p.violations := by
  refine ⟨p.states.toList.zipIdx.map fun x => p.stateViolations ⟨x.2⟩ x.1 (p.reachable.getD x.2 false), ?_,
    rfl⟩
  rw [List.forall₂_map_right_iff, List.forall₂_same]
  intro x hmem
  have hi := (List.getElem?_eq_some_iff.mp (List.mk_mem_zipIdx_iff_getElem?.mp hmem)).1
  exact stateReport_stateViolations (by simpa using hi)

theorem Report.unique {r r' : List Violation} (h : p.Report r) (h' : p.Report r') : r = r' := by
  obtain ⟨reports, hr, rfl⟩ := h
  obtain ⟨reports', hr', rfl⟩ := h'
  have hunique : Relator.RightUnique fun (state : StateNode × Nat) r => p.StateReport state.1 state.2 r :=
    fun _ _ _ h h' => h.unique h'
  rw [hunique.forall₂ hr hr']

end Program

/-- **The check is exact.** Whatever its graph is, with cycles or edges to states that do not exist,
the violations of a program are the list that the description asks for, and no other. A design that
is to check its programs hands one out just when that list is empty. -/
theorem check_exact :
    (∀ (p : Program) (report : List Violation), p.violations = report ↔ p.Report report) ∧
      ∀ (d : Design) (top : Fragment), (∃ p, d.finish top = .ok p) ↔
        top.entry.index < d.states.size ∧ top.exit.index < d.states.size ∧
          (d.settings.validateOnFinish = true → (d.program top).Report []) := by
  have hexact : ∀ (p : Program) (report : List Violation), p.violations = report ↔ p.Report report := by
    intro p report
    constructor
    · intro h
      subst h
      exact p.report_violations
    · exact p.report_violations.unique
  refine ⟨hexact, fun d top => ?_⟩
  simp only [Design.finish_eq_ok, hexact]
  constructor
  · intro h
    obtain ⟨p, rfl, h⟩ := h
    exact h
  · intro h
    exact ⟨_, rfl, h⟩

/-- A graph with each kind of defect: the second edge of `entry` asks for more than the first. -/
example : Program.violations ⟨#[], #[
      { label := "entry",
        transitions := [⟨⟨0⟩, ⟨1⟩, .when ⟨0⟩ true, 0⟩, ⟨⟨0⟩, ⟨2⟩, .all [⟨⟨0⟩, true⟩, ⟨⟨1⟩, true⟩], 1⟩] },
      { label := "stuck" }, { label := "exit" }, { label := "orphan", defaultTarget := some ⟨9⟩ }], ⟨0⟩, ⟨2⟩⟩ =
    [.notExhaustive "entry", .shadowed "entry" 1, .deadEnd "stuck", .unreachable "orphan"] := by
  decide +kernel

end SignalGraph
