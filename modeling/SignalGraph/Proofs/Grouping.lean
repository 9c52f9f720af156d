/-
Fragments may be put in sequence group by group.

A sequence is nothing but its links, one from each exit to the next entry (`foldlM_chain_eq_ok`). A link
asks that its ends exist and that its source has no default yet, and other links change none of that
unless they leave the same state; then one of the two is refused, whichever comes second. So links can be
made in any order (`connectAll_perm`), and the grouping only tells in which order they are made.
-/
import SignalGraph.Proofs.Edits
import SignalGraph.Proofs.Sequencing

namespace SignalGraph

instance : Std.Associative Fragment.join :=
  ⟨fun f g h => congrArg (Fragment.mk f.entry h.exit) (List.append_assoc f.states g.states h.states)⟩

namespace Design

/-! ## Links -/

/-- The edges that put fragments in sequence, from each exit to the next entry. -/
def links : Fragment → List Fragment → List (StateId × StateId)
  | _, [] => []
  | f, g :: rest => (f.exit, g.entry) :: links g rest

/-- The links do not depend on what comes before the first exit. -/
theorem links_join (f g : Fragment) (rest : List Fragment) : links (f.join g) rest = links g rest := by
  cases rest <;> rfl

/-- The links of two lists, and the one at the seam. -/
theorem links_append (f g : Fragment) (rest rest' : List Fragment) :
    links f (rest ++ g :: rest') = links f rest ++ ((rest.foldl Fragment.join f).exit, g.entry) :: links g rest' := by
  induction rest generalizing f with
  | nil => rfl
  | cons h rest ih =>
    rw [List.foldl_cons, Fragment.exit_foldl_join rest (f.join h) h rfl, List.cons_append, links, ih h]
    rfl

/-- Makes the edges, one after the other. -/
def connectAll (l : List (StateId × StateId)) : BuildM PUnit := l.forM fun e => connect e.1 e.2

section

variable {l l' : List (StateId × StateId)} {u : PUnit} {d d' : Design}

theorem connectAll_nil : connectAll [] d = .ok u d' ↔ d = d' := forM_nil_eq_ok

theorem connectAll_cons {e : StateId × StateId} :
    connectAll (e :: l) d = .ok u d' ↔ ∃ d₁, connect e.1 e.2 d = .ok ⟨⟩ d₁ ∧ connectAll l d₁ = .ok u d' :=
  forM_cons_eq_ok

theorem connectAll_append :
    connectAll (l ++ l') d = .ok u d' ↔ ∃ d₁, connectAll l d = .ok ⟨⟩ d₁ ∧ connectAll l' d₁ = .ok u d' := by
  induction l generalizing d with
  | nil => simp only [List.nil_append, connectAll_nil, exists_eq_left']
  | cons e l ih =>
    simp only [List.cons_append, connectAll_cons, ih]
    constructor
    · intro h
      obtain ⟨d₁, he, d₂, hl, hl'⟩ := h
      exact ⟨d₂, ⟨d₁, he, hl⟩, hl'⟩
    · intro h
      obtain ⟨d₂, ⟨d₁, he, hl⟩, hl'⟩ := h
      exact ⟨d₁, he, d₂, hl, hl'⟩

end

theorem chain_eq_ok_iff_connect {f g h : Fragment} {d d' : Design} :
    chain f g d = .ok h d' ↔ h = f.join g ∧ connect f.exit g.entry d = .ok ⟨⟩ d' := by
  rw [chain_eq_ok, connect_eq_ok]

theorem foldlM_chain_eq_ok {rest : List Fragment} {f top : Fragment} {d d' : Design} :
    rest.foldlM chain f d = .ok top d' ↔
      top = rest.foldl Fragment.join f ∧ connectAll (links f rest) d = .ok ⟨⟩ d' := by
  induction rest generalizing f d with
  | nil =>
    show (pure f : BuildM Fragment) d = .ok top d' ↔ _
    rw [pure_eq_ok, links, connectAll_nil, eq_comm]
    rfl
  | cons g rest ih =>
    simp only [List.foldlM_cons, bind_eq_ok, chain_eq_ok_iff_connect, ih, List.foldl_cons, links, connectAll_cons]
    constructor
    · intro h
      obtain ⟨_, d₁, ⟨rfl, hc⟩, htop, hrest⟩ := h
      exact ⟨htop, d₁, hc, links_join f g rest ▸ hrest⟩
    · intro h
      obtain ⟨htop, d₁, hc, hrest⟩ := h
      exact ⟨_, d₁, ⟨rfl, hc⟩, htop, (links_join f g rest).symm ▸ hrest⟩

/-- Putting fragments in sequence is making their links. -/
theorem sequence_cons_eq_ok {rest : List Fragment} {f top : Fragment} {d d' : Design} :
    sequence (f :: rest) d = .ok top d' ↔
      top = rest.foldl Fragment.join f ∧ connectAll (links f rest) d = .ok ⟨⟩ d' := foldlM_chain_eq_ok

/-! ## Links in any order -/

theorem editState_comm {d : Design} {q q' : StateId} (hne : q.index ≠ q'.index) (change change' : StateNode → StateNode) :
    (d.editState q change).editState q' change' = (d.editState q' change').editState q change := by
  have : (d.states.modify q.index change).modify q'.index change' =
      (d.states.modify q'.index change').modify q.index change := by
    refine Array.ext_getElem? fun i => ?_
    simp only [Array.getElem?_modify]
    by_cases hq : q.index = i
    · have hq' : q'.index ≠ i := fun he => hne (hq.trans he.symm)
      simp only [hq, hq', if_true, if_false]
    · simp only [hq, if_false]
  simp only [editState, this]

/-- Of two edges it does not matter which is made first. -/
theorem connect_comm {a b a' b' : StateId} {d d₁ d' : Design} (h : connect a b d = .ok ⟨⟩ d₁)
    (h' : connect a' b' d₁ = .ok ⟨⟩ d') : ∃ d₂, connect a' b' d = .ok ⟨⟩ d₂ ∧ connect a b d₂ = .ok ⟨⟩ d' := by
  obtain ⟨hb, ⟨n, hn, hdefault⟩, rfl⟩ := connect_eq_ok.mp h
  obtain ⟨hb', ⟨n', hn', hdefault'⟩, rfl⟩ := connect_eq_ok.mp h'
  rw [editState_size] at hb'
  -- The first edge gave its source a default, so the second leaves another state.
  have hne : a.index ≠ a'.index := by
    intro he
    rw [state?, ← he, editState_getElem?_self hn] at hn'
    cases hn'
    cases hdefault'
  rw [state?, editState_getElem?_of_ne hne] at hn'
  refine ⟨_, connect_eq_ok.mpr ⟨hb', ⟨n', hn', hdefault'⟩, rfl⟩, connect_eq_ok.mpr ⟨?_, ⟨n, ?_, hdefault⟩, ?_⟩⟩
  · rwa [editState_size]
  · rwa [state?, editState_getElem?_of_ne hne.symm]
  · exact editState_comm hne _ _

/-- Edges can be made in any order. -/
theorem connectAll_perm {l l' : List (StateId × StateId)} (hperm : l.Perm l') {d d' : Design}
    (h : connectAll l d = .ok ⟨⟩ d') : connectAll l' d = .ok ⟨⟩ d' := by
  induction hperm generalizing d with
  | nil => exact h
  | cons e _ ih =>
    obtain ⟨d₁, he, hrest⟩ := connectAll_cons.mp h
    exact connectAll_cons.mpr ⟨d₁, he, ih hrest⟩
  | swap e e' l =>
    obtain ⟨d₁, he', h⟩ := connectAll_cons.mp h
    obtain ⟨d₂, he, hrest⟩ := connectAll_cons.mp h
    obtain ⟨d₃, he, he'⟩ := connect_comm he' he
    exact connectAll_cons.mpr ⟨d₃, he, connectAll_cons.mpr ⟨d₂, he', hrest⟩⟩
  | trans _ _ ih ih' => exact ih' (ih h)

/-! ## Groups -/

/-- **Sequencing does not depend on grouping.** Two lists of fragments can be put in sequence as one list
just when this can be done with each and then with the two results, and both ways the fragment and the
design are the same. Nothing is asked of the fragments: their ends may be unknown, and may occur again. -/
theorem sequence_append_iff_chain {xs ys : List Fragment} (hxs : xs ≠ []) (hys : ys ≠ []) (d d' : Design)
    (top : Fragment) :
    sequence (xs ++ ys) d = .ok top d' ↔
      ∃ f d₁ g d₂, sequence xs d = .ok f d₁ ∧ sequence ys d₁ = .ok g d₂ ∧ chain f g d₂ = .ok top d' := by
  obtain ⟨x, xs, rfl⟩ := List.exists_cons_of_ne_nil hxs
  obtain ⟨y, ys, rfl⟩ := List.exists_cons_of_ne_nil hys
  -- In the long sequence the link at the seam is made before those of the second list, else after them.
  have hperm : (links x xs ++ ((xs.foldl Fragment.join x).exit, y.entry) :: links y ys).Perm
      (links x xs ++ (links y ys ++ [((xs.foldl Fragment.join x).exit, y.entry)])) :=
    (List.perm_append_singleton _ _).symm.append_left _
  have hjoin : (xs ++ y :: ys).foldl Fragment.join x =
      (xs.foldl Fragment.join x).join (ys.foldl Fragment.join y) := by
    rw [List.foldl_append, List.foldl_cons, List.foldl_assoc]
  rw [List.cons_append, sequence_cons_eq_ok, hjoin, links_append,
    show connectAll _ d = .ok ⟨⟩ d' ↔ _ from ⟨connectAll_perm hperm, connectAll_perm hperm.symm⟩]
  simp only [connectAll_append, connectAll_cons, connectAll_nil, exists_eq_right, sequence_cons_eq_ok,
    chain_eq_ok_iff_connect]
  constructor
  · intro h
    obtain ⟨htop, d₁, hx, d₂, hy, hc⟩ := h
    exact ⟨_, d₁, _, d₂, ⟨rfl, hx⟩, ⟨rfl, hy⟩, htop, by rwa [Fragment.entry_foldl_join]⟩
  · intro h
    obtain ⟨_, d₁, _, d₂, ⟨rfl, hx⟩, ⟨rfl, hy⟩, htop, hc⟩ := h
    rw [Fragment.entry_foldl_join] at hc
    exact ⟨htop, d₁, hx, d₂, hy, hc⟩

/-- Three states without edges. -/
def threeStates : Design := performAll [.createState "a", .createState "b", .createState "c"] (.new {})

/-- The states as a ring, in two groups: it is left where it was entered, and the first entry is no state.
Each state leads to the next one. To leave a state twice is refused, in one group and in two. -/
theorem ring_append_iff_chain :
    (∃ d' f d₁ g d₂,
      sequence ([⟨⟨7⟩, ⟨0⟩, []⟩, .single ⟨1⟩] ++ [.single ⟨2⟩, .single ⟨0⟩]) threeStates =
        .ok ⟨⟨7⟩, ⟨0⟩, [⟨1⟩, ⟨2⟩, ⟨0⟩]⟩ d' ∧
      sequence [⟨⟨7⟩, ⟨0⟩, []⟩, .single ⟨1⟩] threeStates = .ok f d₁ ∧
      sequence [.single ⟨2⟩, .single ⟨0⟩] d₁ = .ok g d₂ ∧ chain f g d₂ = .ok ⟨⟨7⟩, ⟨0⟩, [⟨1⟩, ⟨2⟩, ⟨0⟩]⟩ d' ∧
      d'.states.toList.map StateNode.defaultTarget = [some ⟨1⟩, some ⟨2⟩, some ⟨0⟩]) ∧
    (∃ d', sequence ([.single ⟨0⟩, .single ⟨1⟩] ++ [.single ⟨0⟩, .single ⟨2⟩]) threeStates =
      .error (.duplicateDefault "a") d') ∧
    ¬ ∃ f d₁ g d₂ top d', sequence [.single ⟨0⟩, .single ⟨1⟩] threeStates = .ok f d₁ ∧
      sequence [.single ⟨0⟩, .single ⟨2⟩] d₁ = .ok g d₂ ∧ chain f g d₂ = .ok top d' := by
  have hring : sequence ([⟨⟨7⟩, ⟨0⟩, []⟩, .single ⟨1⟩] ++ [.single ⟨2⟩, .single ⟨0⟩]) threeStates =
      .ok ⟨⟨7⟩, ⟨0⟩, [⟨1⟩, ⟨2⟩, ⟨0⟩]⟩ _ := rfl
  have htwice : sequence ([.single ⟨0⟩, .single ⟨1⟩] ++ [.single ⟨0⟩, .single ⟨2⟩]) threeStates =
      .error (.duplicateDefault "a") _ := rfl
  obtain ⟨f, d₁, g, d₂, hxs, hys, hchain⟩ := (sequence_append_iff_chain (by simp) (by simp) _ _ _).mp hring
  refine ⟨⟨_, f, d₁, g, d₂, hring, hxs, hys, hchain, rfl⟩, ⟨_, htwice⟩, ?_⟩
  rintro ⟨f, d₁, g, d₂, top, d', hgroups⟩
  have hok := (sequence_append_iff_chain (by simp) (by simp) _ _ _).mpr ⟨f, d₁, g, d₂, hgroups⟩
  cases htwice.symm.trans hok

end Design

end SignalGraph
