/-
Shadowed transitions are dead code.

A transition that is reported may be shadowed only by others that are reported too, so it is not
plain that all of them can be taken out together. The transition that is taken is never one of
them: where its guard holds and none before it does, it is not shadowed (`taken_notMem`). So what is
left chooses as the whole did. And where the tables are complete, each transition that is left has a
valuation for which it is taken, and still has it when others before it are gone, so that nothing
is left to report.
-/
import SignalGraph.Proofs.Defects

namespace SignalGraph

/-- Taking out elements does not matter to a search if what it finds stays. -/
theorem find?_filter_of_found {α : Type} {found keep : α → Bool} {l : List α}
    (h : ∀ x, l.find? found = some x → keep x = true) : (l.filter keep).find? found = l.find? found := by
  induction l with
  | nil => rfl
  | cons a l ih =>
    by_cases ha : found a = true
    · rw [List.find?_cons_of_pos ha] at h ⊢
      rw [List.filter_cons_of_pos (h a rfl), List.find?_cons_of_pos ha]
    · rw [List.find?_cons_of_neg ha] at h ⊢
      rw [← ih h, List.filter_cons]
      split
      · rw [List.find?_cons_of_neg ha]
      · rfl

namespace StateNode

/-- The positions of the transitions that are known never to be taken, in ascending order. -/
def shadowedPositions (n : StateNode) : List Nat :=
  (n.transitions.zipIdx.filter fun x => isShadowed (n.transitions.take x.2) x.1).map Prod.snd

/-- The state without the transitions at some positions. The others keep their order. -/
def dropTransitions (n : StateNode) (positions : List Nat) : StateNode :=
  { n with transitions := (n.transitions.zipIdx.filter fun x => !positions.contains x.2).map Prod.fst }

/-- The state without the transitions that are known never to be taken. -/
def prune (n : StateNode) : StateNode := n.dropTransitions n.shadowedPositions

variable {n : StateNode}

theorem mem_shadowedPositions {k : Nat} : k ∈ n.shadowedPositions ↔
    ∃ t, n.transitions[k]? = some t ∧ isShadowed (n.transitions.take k) t = true := by
  simp only [shadowedPositions, List.mem_map, List.mem_filter]
  constructor
  · intro h
    obtain ⟨x, ⟨hx, hshadowed⟩, rfl⟩ := h
    exact ⟨x.1, List.mk_mem_zipIdx_iff_getElem?.mp hx, hshadowed⟩
  · intro h
    obtain ⟨t, ht, hshadowed⟩ := h
    exact ⟨(t, k), ⟨List.mk_mem_zipIdx_iff_getElem?.mpr ht, hshadowed⟩, rfl⟩

/-- The transitions that are reported are those at the positions. -/
theorem shadowed_eq (n : StateNode) : n.shadowed = n.shadowedPositions.filterMap (n.transitions[·]?) := by
  rw [shadowedPositions, List.filterMap_map, shadowed, ← List.filterMap_eq_map]
  refine List.filterMap_congr fun x hx => ?_
  exact (List.mk_mem_zipIdx_iff_getElem?.mp (List.mem_of_mem_filter hx)).symm

/-! ## Choosing -/

/-- The first transition whose guard holds is not shadowed. -/
theorem taken_notMem {v : Valuation} {x : Transition × Nat}
    (h : n.transitions.zipIdx.find? (fun x => x.1.guard.holds v) = some x) : x.2 ∉ n.shadowedPositions := by
  obtain ⟨hholds, k, hk, rfl, hbefore⟩ := List.find?_eq_some_iff_getElem.mp h
  simp only [List.getElem_zipIdx, Nat.zero_add] at hholds hbefore ⊢
  intro hmem
  obtain ⟨t, ht, hshadowed⟩ := mem_shadowedPositions.mp hmem
  obtain ⟨_, rfl⟩ := List.getElem?_eq_some_iff.mp ht
  have hearlier := (isShadowed_iff.mp hshadowed).2 v hholds
  simp only [anyHolds, List.any_eq_true] at hearlier
  obtain ⟨e, he, hsat⟩ := hearlier
  obtain ⟨i, hi, rfl⟩ := List.mem_take_iff_getElem.mp he
  have hnot := hbefore i (by omega)
  rw [hsat] at hnot
  cases hnot

/-- What is left of a state chooses as the state did. -/
theorem next_prune (n : StateNode) (v : Valuation) : n.prune.next v = n.next v := by
  have hfind : n.prune.transitions.find? (·.guard.holds v) = n.transitions.find? (·.guard.holds v) := by
    rw [prune, dropTransitions, List.find?_map, Function.comp_def, find?_filter_of_found]
    · conv_rhs => rw [← List.zipIdx_map_fst 0 n.transitions, List.find?_map, Function.comp_def]
    · intro x hx
      simpa using taken_notMem hx
  rw [next, hfind]
  rfl

/-! ## What is left -/

/-- A transition that is left is one of the state, and those that are left before it stood before it. -/
theorem getElem?_dropTransitions {positions : List Nat} {j : Nat} {t : Transition}
    (h : (n.dropTransitions positions).transitions[j]? = some t) :
    ∃ k, n.transitions[k]? = some t ∧ k ∉ positions ∧
      ∀ e ∈ (n.dropTransitions positions).transitions.take j, e ∈ n.transitions.take k := by
  have hmem : ∀ x ∈ n.transitions.zipIdx.filter (fun x => !positions.contains x.2),
      n.transitions[x.2]? = some x.1 ∧ x.2 ∉ positions := by
    intro x hx
    obtain ⟨hzip, hkeep⟩ := List.mem_filter.mp hx
    exact ⟨List.mk_mem_zipIdx_iff_getElem?.mp hzip, by simpa using hkeep⟩
  -- Positions ascend in what is left, as they did in the whole.
  have hascend : (n.transitions.zipIdx.filter fun x => !positions.contains x.2).Pairwise fun x y => x.2 < y.2 := by
    refine List.Pairwise.filter _ (List.pairwise_map.mp ?_)
    rw [List.zipIdx_map_snd]
    exact List.pairwise_lt_range' 1
  simp only [dropTransitions, List.getElem?_map, Option.map_eq_some_iff] at h
  obtain ⟨x, hx, rfl⟩ := h
  obtain ⟨hj, rfl⟩ := List.getElem?_eq_some_iff.mp hx
  obtain ⟨hposition, hkept⟩ := hmem _ (List.getElem_mem hj)
  refine ⟨_, hposition, hkept, fun e he => ?_⟩
  rw [dropTransitions, ← List.map_take] at he
  obtain ⟨y, hy, rfl⟩ := List.mem_map.mp he
  obtain ⟨i, hi, rfl⟩ := List.mem_take_iff_getElem.mp hy
  have hlt := List.pairwise_iff_getElem.mp hascend i j (by omega) hj (by omega)
  exact List.mem_of_getElem? ((List.getElem?_take_of_lt hlt).trans (hmem _ (List.getElem_mem _)).1)

theorem length_guardSignals_le {ts ts' : List Transition} (h : ts ⊆ ts') :
    (guardSignals ts).length ≤ (guardSignals ts').length := by
  refine ((SignalId.sort_increasing _).nodup.subperm fun s hs => ?_).length_le
  obtain ⟨t, ht, hs⟩ := mem_guardSignals.mp hs
  exact mem_guardSignals.mpr ⟨t, h ht, hs⟩

/-- Where all guards together read few enough signals, a transition that is not shadowed is taken for
some valuation. -/
theorem exists_taken (hfew : (guardSignals n.transitions).length ≤ maxTableSignals) {k : Nat} {t : Transition}
    (hk : n.transitions[k]? = some t) (hlive : k ∉ n.shadowedPositions) :
    ∃ v, t.guard.holds v = true ∧ anyHolds (n.transitions.take k) v = false := by
  have hshadowed : ¬ isShadowed (n.transitions.take k) t = true :=
    fun hshadowed => hlive (mem_shadowedPositions.mpr ⟨t, hk, hshadowed⟩)
  have htable : (guardSignals (n.transitions.take k ++ [t])).length ≤ maxTableSignals := by
    refine Nat.le_trans (length_guardSignals_le fun e he => ?_) hfew
    rcases List.mem_append.mp he with he | he
    · exact List.mem_of_mem_take he
    · rw [List.mem_singleton.mp he]
      exact List.mem_of_getElem? hk
  rw [isShadowed_iff] at hshadowed
  simp only [htable, true_and, not_forall, Bool.not_eq_true] at hshadowed
  obtain ⟨v, hv, hearlier⟩ := hshadowed
  exact ⟨v, hv, hearlier⟩

theorem shadowed_prune (hfew : (guardSignals n.transitions).length ≤ maxTableSignals) : n.prune.shadowed = [] := by
  rw [shadowed, List.map_eq_nil_iff, List.filter_eq_nil_iff]
  intro x hx hshadowed
  obtain ⟨k, hk, hlive, hbefore⟩ := getElem?_dropTransitions (List.mk_mem_zipIdx_iff_getElem?.mp hx)
  obtain ⟨v, hv, hnone⟩ := exists_taken hfew hk hlive
  have hearlier := (isShadowed_iff.mp hshadowed).2 v hv
  simp only [anyHolds, List.any_eq_true, List.any_eq_false] at hearlier hnone
  obtain ⟨e, he, hsat⟩ := hearlier
  exact hnone e (hbefore e he) hsat

/-- **Shadowed transitions are dead code.** A state from which all the transitions that the check finds are taken out at
once chooses as before, whatever the values are. If the guards together test no more than twelve signals, the check
then finds none. -/
theorem pruned_chooses_alike (n : StateNode) :
    n.shadowed = n.shadowedPositions.filterMap (n.transitions[·]?) ∧ (∀ v, n.prune.next v = n.next v) ∧
      ((testedSignals n.transitions).card ≤ 12 → n.prune.shadowed = []) :=
  ⟨n.shadowed_eq, n.next_prune, fun hfew => shadowed_prune (by rwa [length_guardSignals])⟩

/-- The third guard holds only where the first or the second does, and the fourth only where the third does. -/
def layered : StateNode :=
  { label := "q", defaultTarget := some ⟨4⟩
    transitions := [⟨⟨0⟩, ⟨0⟩, .when ⟨0⟩ true, 0⟩, ⟨⟨0⟩, ⟨1⟩, .all [⟨⟨0⟩, false⟩, ⟨⟨1⟩, true⟩], 1⟩,
      ⟨⟨0⟩, ⟨2⟩, .when ⟨1⟩ true, 2⟩, ⟨⟨0⟩, ⟨3⟩, .all [⟨⟨1⟩, true⟩, ⟨⟨2⟩, true⟩], 3⟩] }

theorem layered_chooses_alike :
    layered.shadowedPositions = [2, 3] ∧ layered.prune.transitions = layered.transitions.take 2 ∧
    (∀ v, layered.prune.next v = layered.next v) ∧ layered.prune.shadowed = [] := by
  obtain ⟨-, hnext, hnone⟩ := layered.pruned_chooses_alike
  exact ⟨by decide +kernel, by decide +kernel, hnext, hnone (by decide +kernel)⟩

end StateNode

end SignalGraph
