/-
Stretches of a table that control goes through forward.

In a stretch every edge leads to a later state, some edge can always be taken, and each state
but the first is led to from an earlier one (`Forward`). So control that is in it gets to its
end and enters no state twice (`Forward.walk`), and every state of it can be reached from the
first (`Forward.path`). Code in which each guard can be the first to hold is such a stretch
(`Code.At.stretch`): nothing is asked of what its actions write or what its guards read.
-/
import SignalGraph.Proofs.Defects
import SignalGraph.Proofs.Layout

namespace SignalGraph

/-! ## Forward stretches -/

/-- The state at the position `i` has a default, no edge of it is shadowed, and its edges lead to
later positions, up to `hi`. -/
structure StateNode.Advances (n : StateNode) (i hi : Nat) : Prop where
  default : n.defaultTarget.isSome = true
  live : n.shadowed = []
  targets : ∀ q ∈ n.successors, i < q.index ∧ q.index ≤ hi

/-- The table from the position `lo` up to `hi`: control advances at each position before `hi`, and
each after `lo` is led to from an earlier one. -/
structure Forward (t : Array StateNode) (lo hi : Nat) : Prop where
  advances : ∀ i, lo ≤ i → i < hi → ∃ n, t[i]? = some n ∧ n.Advances i hi
  led : ∀ i, lo < i → i ≤ hi → ∃ j n, lo ≤ j ∧ j < i ∧ t[j]? = some n ∧ ⟨i⟩ ∈ n.successors

theorem StateNode.Advances.mono {n : StateNode} {i mid hi : Nat} (h : n.Advances i mid) (hle : mid ≤ hi) :
    n.Advances i hi :=
  { h with targets := fun q hq => ⟨(h.targets q hq).1, Nat.le_trans (h.targets q hq).2 hle⟩ }

theorem StateNode.edgeViolations_of_default {n : StateNode} (h : n.defaultTarget.isSome = true)
    (hlive : n.shadowed = []) : n.edgeViolations = [] := by
  obtain ⟨target, htarget⟩ := Option.isSome_iff_exists.mp h
  simp [StateNode.edgeViolations, StateNode.isDeadEnd, htarget, hlive]

theorem StateNode.next_of_default {n : StateNode} (h : n.defaultTarget.isSome = true) (v : Valuation) :
    ∃ q, n.next v = some q := by
  rw [← Option.isSome_iff_exists]
  unfold StateNode.next
  split
  · rfl
  · exact h

namespace Forward

variable {t : Array StateNode} {lo mid hi : Nat}

theorem refl (t : Array StateNode) (lo : Nat) : Forward t lo lo :=
  ⟨fun i _ _ => by omega, fun i _ _ => by omega⟩

/-- Stretches one after the other. -/
theorem trans (h : Forward t lo mid) (h' : Forward t mid hi) (hlo : lo ≤ mid) (hhi : mid ≤ hi) :
    Forward t lo hi := by
  constructor
  · intro i hi₁ hi₂
    by_cases hmid : i < mid
    · obtain ⟨n, hn, hadv⟩ := h.advances i hi₁ hmid
      exact ⟨n, hn, hadv.mono hhi⟩
    · exact h'.advances i (by omega) hi₂
  · intro i hi₁ hi₂
    by_cases hmid : i ≤ mid
    · exact h.led i hi₁ hmid
    · obtain ⟨j, n, hj, hrest⟩ := h'.led i (by omega) hi₂
      exact ⟨j, n, by omega, hrest⟩

/-- The last position may be any state. -/
theorem congr {t' : Array StateNode} (h : Forward t lo hi) (heq : ∀ i, lo ≤ i → i < hi → t'[i]? = t[i]?) :
    Forward t' lo hi := by
  constructor
  · intro i hi₁ hi₂
    rw [heq i hi₁ hi₂]
    exact h.advances i hi₁ hi₂
  · intro i hi₁ hi₂
    obtain ⟨j, n, hj, hlt, hn, hmem⟩ := h.led i hi₁ hi₂
    exact ⟨j, n, hj, hlt, (heq j hj (by omega)).trans hn, hmem⟩

/-- Control gets to the last position, whatever the values are, and the positions that it comes by
increase. -/
theorem walk (h : Forward t lo hi) {i : Nat} (hlo : lo ≤ i) (hhi : i ≤ hi) (v : Array Bool) :
    ∃ path w, Walk t ⟨i⟩ v path ⟨hi⟩ w ∧ path.Pairwise (fun q q' => q.index < q'.index) ∧
      ∀ q ∈ path, i ≤ q.index ∧ q.index < hi := by
  rcases Nat.eq_or_lt_of_le hhi with rfl | hlt
  · exact ⟨[], v, .nil, .nil, by simp⟩
  · obtain ⟨n, hn, hadv⟩ := h.advances i hlo hlt
    obtain ⟨q, hnext⟩ := StateNode.next_of_default hadv.default (.ofArray (n.fire v))
    have hq := hadv.targets q (StateNode.next_mem_successors hnext)
    obtain ⟨path, w, hwalk, hincreasing, hin⟩ := h.walk (i := q.index) (by omega) hq.2 (n.fire v)
    refine ⟨⟨i⟩ :: path, w, .cons hn hnext hwalk, List.pairwise_cons.mpr ⟨?_, hincreasing⟩, ?_⟩
    · intro q' hq'
      have := (hin q' hq').1
      dsimp only
      omega
    · intro q' hq'
      rcases List.mem_cons.mp hq' with rfl | hq'
      · exact ⟨Nat.le_refl i, hlt⟩
      · have := hin q' hq'
        omega
termination_by hi - i

/-- Every position can be reached from the first. -/
theorem path {p : Program} (h : Forward p.states lo hi) {i : Nat} (hlo : lo ≤ i) (hhi : i ≤ hi) :
    p.Path ⟨lo⟩ ⟨i⟩ := by
  rcases Nat.eq_or_lt_of_le hlo with rfl | hlt
  · exact .refl
  · obtain ⟨j, n, hj, hji, hn, hmem⟩ := h.led i hlt hhi
    refine (h.path (i := j) hj (by omega)).tail ?_
    simp only [Program.Leads, Program.successors, Program.state?, hn]
    exact hmem
termination_by i

end Forward

/-! ## Fragments that are stretches -/

/-- The fragment is a stretch of the table: its entry is the first state and its exit the last. -/
structure Fragment.Stretch (f : Fragment) (t : Array StateNode) : Prop where
  mem_states : ∀ {q : StateId}, q ∈ f.states ↔ f.entry.index ≤ q.index ∧ q.index ≤ f.exit.index
  le : f.entry.index ≤ f.exit.index
  lt_size : f.exit.index < t.size
  forward : Forward t f.entry.index f.exit.index

/-- No edge leaves the exit, so that the fragment can be linked to another. -/
def Fragment.Open (f : Fragment) (t : Array StateNode) : Prop :=
  ∃ n, t[f.exit.index]? = some n ∧ n.transitions = [] ∧ n.defaultTarget = none

namespace Fragment.Stretch

variable {t : Array StateNode} {f : Fragment}

theorem entry_mem (h : f.Stretch t) : f.entry ∈ f.states := h.mem_states.mpr ⟨Nat.le_refl _, h.le⟩

theorem exit_mem (h : f.Stretch t) : f.exit ∈ f.states := h.mem_states.mpr ⟨h.le, Nat.le_refl _⟩

theorem lt_exit (h : f.Stretch t) {q : StateId} (hq : q ∈ f.states) (hne : q ≠ f.exit) :
    q.index < f.exit.index := by
  exact Nat.lt_of_le_of_ne (h.mem_states.mp hq).2 fun he => hne (congrArg StateId.mk he)

theorem confined (h : f.Stretch t) : f.Confined t := by
  refine ⟨h.entry_mem, h.exit_mem, fun q hq hne n hn target htarget => ?_⟩
  have hlo := (h.mem_states.mp hq).1
  obtain ⟨n', hn', hadv⟩ := h.forward.advances q.index hlo (h.lt_exit hq hne)
  cases hn'.symm.trans hn
  have := hadv.targets target htarget
  exact h.mem_states.mpr ⟨by omega, this.2⟩

theorem encloses {d : Design} (h : f.Stretch d.states) (hopen : f.Open d.states) : d.Encloses f := by
  refine ⟨fun q hq => ?_, h.entry_mem, h.exit_mem, h.confined.inside, fun n hn => ?_⟩
  · exact Nat.lt_of_le_of_lt (h.mem_states.mp hq).2 h.lt_size
  · obtain ⟨n', hn', htrans, hdefault⟩ := hopen
    cases hn'.symm.trans hn
    simp [StateNode.isDeadEnd, htrans, hdefault]

theorem congr {t' : Array StateNode} (h : f.Stretch t) (heq : ∀ q ∈ f.states, t'[q.index]? = t[q.index]?) :
    f.Stretch t' := by
  refine ⟨h.mem_states, h.le, ?_, h.forward.congr fun i hlo hhi => ?_⟩
  · have hexit := heq f.exit h.exit_mem
    rw [Array.getElem?_eq_getElem h.lt_size] at hexit
    exact (Array.getElem?_eq_some_iff.mp hexit).1
  · exact heq ⟨i⟩ (h.mem_states.mpr ⟨hlo, Nat.le_of_lt hhi⟩)

/-- From all values control gets from the entry to the exit, and it enters no state twice. -/
theorem completes (h : f.Stretch t) (signals : Array SignalInfo) (v : Array Bool) :
    ∃ k path w, Program.Completes ⟨signals, t, f.entry, f.exit⟩ v k path w ∧ path.Nodup ∧
      ∀ q ∈ path, q ∈ f.states := by
  obtain ⟨route, w, hwalk, hincreasing, hin⟩ := h.forward.walk (Nat.le_refl _) h.le v
  have hexit : f.exit ∉ route := fun hm => Nat.lt_irrefl _ (hin _ hm).2
  have hnodup : route.Nodup := by
    refine List.Pairwise.imp ?_ hincreasing
    intro q q' hlt he
    exact Nat.lt_irrefl _ (he ▸ hlt)
  refine ⟨_, _, _, completes_iff.mpr ⟨route, w, hwalk, hexit, rfl, rfl, rfl⟩, ?_, ?_⟩
  · exact List.nodup_append'.mpr ⟨hnodup, List.nodup_singleton _, by simpa using hexit⟩
  · intro q hq
    rcases List.mem_append.mp hq with hq | hq
    · have := hin q hq
      exact h.mem_states.mpr ⟨this.1, Nat.le_of_lt this.2⟩
    · rw [List.mem_singleton.mp hq]
      exact h.exit_mem

end Fragment.Stretch

/-! ## Live code -/

/-- Each guard of the list holds of some values of which none before it does. -/
def EachLive (guards : List Guard) : Prop :=
  ∀ (k : Nat) (g : Guard), guards[k]? = some g → ∃ v, g.holds v = true ∧ ∀ e ∈ guards.take k, e.holds v = false

theorem EachLive.singleton {g : Guard} (h : ∃ v, g.holds v = true) : EachLive [g] := by
  intro k e he
  obtain ⟨v, hv⟩ := h
  rcases k with _ | k
  · cases he
    exact ⟨v, hv, by simp⟩
  · cases he

theorem StateNode.shadowed_of_live {n : StateNode} (h : EachLive (n.transitions.map Transition.guard)) :
    n.shadowed = [] := by
  simp only [StateNode.shadowed, List.map_eq_nil_iff, List.filter_eq_nil_iff]
  intro x hmem hshadowed
  obtain ⟨t, k⟩ := x
  have hk := List.mk_mem_zipIdx_iff_getElem?.mp hmem
  obtain ⟨v, hv, hearlier⟩ := h k t.guard (by simp [hk])
  have hany := (isShadowed_iff.mp hshadowed).2 v hv
  simp only [anyHolds, List.any_eq_true] at hany
  obtain ⟨e, he, hholds⟩ := hany
  have hfalse := hearlier e.guard (by rw [← List.map_take]; exact List.mem_map_of_mem he)
  rw [hholds] at hfalse
  cases hfalse

namespace Step

/-- Each of the step's arms can be taken, by each of its guards. -/
structure Live (s : Step) : Prop where
  guards : EachLive (s.arms.flatMap Arm.guards)
  arms : ∀ arm ∈ s.arms, arm.guards ≠ []

theorem Live.of_no_arms (actions : List Action) (otherwise : Option (List Action)) :
    Live ⟨actions, [], otherwise⟩ :=
  ⟨fun k g hg => by simp at hg, by simp⟩

theorem map_fst_edges : ∀ (arms : List Arm) (k : Nat), (edges k arms).map Prod.fst = arms.flatMap Arm.guards
  | [], _ => rfl
  | arm :: rest, k => by
    rw [edges, List.map_append, map_fst_edges rest (k + 1), List.flatMap_cons, List.map_map]
    simp [Function.comp_def]

theorem mem_map_snd_edges : ∀ {arms : List Arm} {k : Nat} {q : StateId}, q ∈ (edges k arms).map Prod.snd →
    k ≤ q.index ∧ q.index < k + arms.length
  | [], k, q, h => by simp [edges] at h
  | arm :: rest, k, q, h => by
    rw [edges, List.map_append, List.mem_append] at h
    rw [List.length_cons]
    rcases h with h | h
    · simp only [List.map_map, List.mem_map] at h
      obtain ⟨g, -, rfl⟩ := h
      dsimp only [Function.comp_apply]
      omega
    · have := mem_map_snd_edges h
      omega

/-- An arm with a guard is led to. -/
theorem mem_edges_of_arm : ∀ {arms : List Arm} {k i : Nat} {arm : Arm}, arms[i]? = some arm → arm.guards ≠ [] →
    ⟨k + i⟩ ∈ (edges k arms).map Prod.snd
  | arm :: rest, k, 0, arm', h, hne => by
    cases h
    obtain ⟨g, hg⟩ := List.exists_mem_of_ne_nil _ hne
    simp only [edges, List.map_append, List.map_map, List.mem_append, List.mem_map]
    exact .inl ⟨g, hg, rfl⟩
  | arm :: rest, k, i + 1, arm', h, hne => by
    have hrest := mem_edges_of_arm (k := k + 1) (show rest[i]? = some arm' from h) hne
    rw [edges, List.map_append, List.mem_append, show k + (i + 1) = k + 1 + i by omega]
    exact .inr hrest

variable {t : Array StateNode} {s : Step} {lo : Nat}

/-- The edges that leave the first state of a step. -/
theorem At.successors {n : StateNode}
    (hedges : n.transitions.map (fun e => (e.guard, e.target)) = edges (lo + 1) s.arms)
    (hdefault : n.defaultTarget = some ⟨lo + 1 + s.arms.length⟩) :
    n.successors = (edges (lo + 1) s.arms).map Prod.snd ++ [⟨lo + 1 + s.arms.length⟩] := by
  rw [StateNode.successors, hdefault, ← hedges, List.map_map, Option.toList_some]
  rfl

theorem At.forward (h : s.At t lo) (hlive : s.Live) : Forward t lo (lo + s.size) := by
  obtain ⟨n, hn, -, hedges, hdefault⟩ := h.first
  have hsucc := At.successors hedges hdefault
  have hsize : s.size = s.bodies.length + 1 := rfl
  have hbodies : s.bodies.length = s.arms.length + s.otherwise.toList.length := by simp [bodies]
  have hguards : n.transitions.map Transition.guard = s.arms.flatMap Arm.guards := by
    rw [← map_fst_edges s.arms (lo + 1), ← hedges, List.map_map]
    rfl
  have hrest : ∀ k, k < s.bodies.length → ∃ n, t[lo + 1 + k]? = some n ∧ n.transitions = [] ∧
      n.defaultTarget = some ⟨lo + s.size⟩ := by
    intro k hk
    obtain ⟨n, hn, -, hrest⟩ := h.rest k _ (List.getElem?_eq_getElem hk)
    exact ⟨n, hn, hrest⟩
  constructor
  · intro i hlo hhi
    rcases Nat.eq_or_lt_of_le hlo with rfl | hlt
    · refine ⟨n, hn, by rw [hdefault]; rfl, StateNode.shadowed_of_live (hguards ▸ hlive.guards), ?_⟩
      intro q hq
      rw [hsucc, List.mem_append, List.mem_singleton] at hq
      rcases hq with hq | rfl
      · have := mem_map_snd_edges hq
        omega
      · dsimp only
        omega
    · obtain ⟨k, rfl⟩ : ∃ k, i = lo + 1 + k := ⟨i - (lo + 1), by omega⟩
      obtain ⟨n', hn', htrans, hdefault'⟩ := hrest k (by omega)
      refine ⟨n', hn', by rw [hdefault']; rfl, by simp [StateNode.shadowed, htrans], ?_⟩
      intro q hq
      simp only [StateNode.successors, htrans, hdefault', List.map_nil, Option.toList_some, List.nil_append,
        List.mem_singleton] at hq
      subst hq
      exact ⟨hhi, Nat.le_refl _⟩
  · intro i hlo hhi
    obtain ⟨k, rfl⟩ : ∃ k, i = lo + 1 + k := ⟨i - (lo + 1), by omega⟩
    by_cases hk : k ≤ s.arms.length
    · -- An arm, or what comes after the arms: the first state leads there.
      refine ⟨lo, n, Nat.le_refl lo, by omega, hn, ?_⟩
      rw [hsucc, List.mem_append, List.mem_singleton]
      rcases Nat.eq_or_lt_of_le hk with rfl | hlt
      · exact .inr rfl
      · exact .inl (mem_edges_of_arm (List.getElem?_eq_getElem hlt) (hlive.arms _ (List.getElem_mem hlt)))
    · -- What comes after the step, when there is one more state after the arms.
      obtain ⟨n', hn', htrans, hdefault'⟩ := hrest s.arms.length (by omega)
      refine ⟨lo + 1 + s.arms.length, n', by omega, by omega, hn', ?_⟩
      have hlen := s.otherwise.length_toList_le
      have hend : lo + 1 + k = lo + s.size := by omega
      simp [StateNode.successors, htrans, hdefault', hend]

end Step

theorem StepsAt.forward {t : Array StateNode} : ∀ {steps : List Step} {lo : Nat}, StepsAt t lo steps →
    (∀ s ∈ steps, s.Live) → Forward t lo (lo + span steps)
  | [], lo, _, _ => .refl t lo
  | s :: rest, lo, ⟨hs, hrest⟩, hlive => by
    have hfirst := hs.forward (hlive s (by simp))
    have hthen := forward hrest fun s' hs' => hlive s' (by simp [hs'])
    rw [Nat.add_assoc] at hthen
    exact hfirst.trans hthen (by omega) (by rw [span_cons]; omega)

namespace Code

/-- Every step of the code is live. -/
def Live (c : Code) : Prop := ∀ s ∈ c.steps, s.Live

theorem At.stretch {t : Array StateNode} {c : Code} {lo : Nat} (h : c.At t lo) (hlive : c.Live) :
    (c.fragment lo).Stretch t := by
  refine ⟨fun {q} => ?_, Nat.le_add_right _ _, h.lt_size, h.steps.forward hlive⟩
  simp only [fragment, mem_stateRange, size]
  omega

theorem At.isOpen {t : Array StateNode} {c : Code} {lo : Nat} (h : c.At t lo) : (c.fragment lo).Open t := by
  obtain ⟨n, hn, -, hrest⟩ := h.last
  exact ⟨n, hn, hrest⟩

namespace Live

theorem single (actions : List Action) : (Code.single actions).Live := by
  intro s hs
  cases hs

theorem act {c : Code} (h : c.Live) (a : Action) : (c.act a).Live := h

theorem andThen {c e : Code} (hc : c.Live) (he : e.Live) : (c.andThen e).Live := by
  intro s hs
  simp only [Code.andThen, List.mem_append, List.mem_cons] at hs
  rcases hs with hs | rfl | hs
  · exact hc s hs
  · exact .of_no_arms _ _
  · exact he s hs

theorem foldl_andThen {es : List Code} : ∀ {c : Code}, c.Live → (∀ e ∈ es, e.Live) →
    (es.foldl Code.andThen c).Live := by
  induction es with
  | nil => exact fun hc _ => hc
  | cons e es ih => exact fun hc hes => ih (hc.andThen (hes e (by simp))) fun e' he' => hes e' (by simp [he'])

theorem branch {c : Code} {guard : Guard} (hc : c.Live) (hguard : ∃ v, guard.holds v = true)
    (actions : List Action) : (c.branch guard actions).Live := by
  intro s hs
  simp only [Code.branch, List.mem_append, List.mem_singleton] at hs
  rcases hs with hs | rfl
  · exact hc s hs
  · exact ⟨.singleton hguard, by simp⟩

end Live

end Code

end SignalGraph
