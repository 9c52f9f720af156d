/-
What the search of a graph marks.

At each turn of the search an edge from a marked state leads to a marked state, to one in the
queue, or out of the table (`Accounted`). When the queue is empty the marks are therefore
closed under edges, and every state of the table on a path from the entry has one.
-/
import Mathlib.Logic.Relation
import SignalGraph.Check.Reachability

namespace SignalGraph.Program

variable {p : Program}

/-- An edge leads from one state to another. -/
def Leads (p : Program) (q q' : StateId) : Prop := q' ∈ p.successors q

/-- Some edges lead from one state to another. -/
abbrev Path (p : Program) : StateId → StateId → Prop := Relation.ReflTransGen p.Leads

theorem Leads.lt_size {q q' : StateId} (h : p.Leads q q') : q.index < p.states.size := by
  unfold Leads successors at h
  split at h
  · next n hn => exact (Array.getElem?_eq_some_iff.mp hn).1
  · cases h

/-- Every edge from a marked state was followed, or will be from the queue. -/
def Accounted (p : Program) (queue : List StateId) (seen : Array Bool) : Prop :=
  ∀ q q', seen[q.index]? = some true → p.Leads q q' → q'.index < seen.size →
    seen[q'.index]? = some true ∨ q' ∈ queue

theorem Accounted.skip {q : StateId} {rest : List StateId} {seen : Array Bool}
    (h : p.Accounted (q :: rest) seen) (hq : seen[q.index]? ≠ some false) : p.Accounted rest seen := by
  intro q₁ q₂ hseen hlead hlt
  rcases h q₁ q₂ hseen hlead hlt with hmarked | hmem
  · exact .inl hmarked
  · rcases List.mem_cons.mp hmem with rfl | hmem
    · rw [Array.getElem?_eq_getElem hlt] at hq ⊢
      exact .inl (by simpa using hq)
    · exact .inr hmem

theorem Accounted.mark {q : StateId} {rest : List StateId} {seen : Array Bool}
    (h : p.Accounted (q :: rest) seen) :
    p.Accounted (rest ++ p.successors q) (seen.setIfInBounds q.index true) := by
  intro q₁ q₂ hseen hlead hlt
  rw [Array.size_setIfInBounds] at hlt
  rw [Array.getElem?_setIfInBounds] at hseen ⊢
  by_cases h₂ : q.index = q₂.index
  · rw [if_pos h₂, if_pos (h₂ ▸ hlt)]
    exact .inl rfl
  rw [if_neg h₂]
  by_cases h₁ : q.index = q₁.index
  · -- The edge leaves the state that was marked just now, so it is at the end of the queue.
    obtain rfl : q = q₁ := congrArg StateId.mk h₁
    exact .inr (List.mem_append_right _ hlead)
  · rw [if_neg h₁] at hseen
    rcases h q₁ q₂ hseen hlead hlt with hmarked | hmem
    · exact .inl hmarked
    · rcases List.mem_cons.mp hmem with rfl | hmem
      · exact absurd rfl h₂
      · exact .inr (List.mem_append_left _ hmem)

@[simp] theorem size_explore (queue : List StateId) (seen : Array Bool) :
    (p.explore queue seen).size = seen.size := by
  fun_induction explore p queue seen with
  | case1 => rfl
  | case2 _ _ _ _ ih => rw [ih, Array.size_setIfInBounds]
  | case3 _ _ _ _ ih => exact ih

/-- A mark stays. -/
theorem explore_of_seen {queue : List StateId} {seen : Array Bool} {i : Nat} (h : seen[i]? = some true) :
    (p.explore queue seen)[i]? = some true := by
  fun_induction explore p queue seen with
  | case1 => exact h
  | case2 seen q rest hq ih =>
    refine ih ?_
    rw [Array.getElem?_setIfInBounds]
    split
    · next he => rw [if_pos (he ▸ (Array.getElem?_eq_some_iff.mp h).1)]
    · exact h
  | case3 _ _ _ _ ih => exact ih h

/-- What is in the queue is marked in the end. -/
theorem explore_of_mem {queue : List StateId} {seen : Array Bool} {q : StateId} (hq : q ∈ queue)
    (hlt : q.index < seen.size) : (p.explore queue seen)[q.index]? = some true := by
  fun_induction explore p queue seen with
  | case1 => cases hq
  | case2 seen q₁ rest hfirst ih =>
    rcases List.mem_cons.mp hq with rfl | hq
    · exact explore_of_seen (Array.getElem?_setIfInBounds_self_of_lt hlt)
    · exact ih (List.mem_append_left _ hq) (by rwa [Array.size_setIfInBounds])
  | case3 seen q₁ rest hfirst ih =>
    rcases List.mem_cons.mp hq with rfl | hq
    · refine explore_of_seen ?_
      rw [Array.getElem?_eq_getElem hlt] at hfirst ⊢
      simpa using hfirst
    · exact ih hq hlt

theorem explore_accounted {queue : List StateId} {seen : Array Bool} (h : p.Accounted queue seen) :
    p.Accounted [] (p.explore queue seen) := by
  fun_induction explore p queue seen with
  | case1 => exact h
  | case2 _ _ _ _ ih => exact ih h.mark
  | case3 _ _ _ hq ih => exact ih (h.skip hq)

@[simp] theorem size_reachable (p : Program) : p.reachable.size = p.states.size := by
  simp [reachable]

/-- Every state of the table on a path from the entry is marked. -/
theorem reachable_of_path {q : StateId} (h : p.Path p.entry q) (hlt : q.index < p.states.size) :
    p.reachable[q.index]? = some true := by
  have hclosed : p.Accounted [] p.reachable := by
    refine explore_accounted fun q₁ _ hseen => ?_
    simp [Array.getElem?_replicate] at hseen
  induction h with
  | refl => exact explore_of_mem (by simp) (by simpa using hlt)
  | tail _ hlead ih =>
    have hmarked := hclosed _ _ (ih hlead.lt_size) hlead (by simpa using hlt)
    exact hmarked.resolve_right (by simp)

end SignalGraph.Program
