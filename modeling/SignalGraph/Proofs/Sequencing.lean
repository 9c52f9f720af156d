/-
Fragments in sequence are run one after the other.

A fragment that keeps its edges to itself can only be left through its exit
(`Walk.leaves`), and putting fragments in sequence gives each exit but the last one edge, to
the next entry (`foldlM_chain_linked`). So a walk through the sequence falls apart at the exits
into walks through the fragments, and such walks join to one through the sequence.
-/
import Mathlib.Data.List.Pairwise
import Mathlib.Tactic.Ring
import SignalGraph.Proofs.Construction
import SignalGraph.Proofs.Walks

namespace SignalGraph

/-! ## Walks inside a fragment -/

/-- In the table, edges from the fragment's states other than its exit lead to its states. -/
structure Fragment.Confined (f : Fragment) (t : Array StateNode) : Prop where
  entry : f.entry ∈ f.states
  exit : f.exit ∈ f.states
  inside : ∀ q ∈ f.states, q ≠ f.exit → ∀ n, t[q.index]? = some n → ∀ target ∈ n.successors, target ∈ f.states

namespace Walk

variable {t : Array StateNode} {f : Fragment}

/-- Control that does not come by the exit stays inside. -/
theorem stays (hf : f.Confined t) {q q' : StateId} {v w : Array Bool} {path : List StateId}
    (h : Walk t q v path q' w) (hq : q ∈ f.states) (hx : f.exit ∉ path) : ∀ s ∈ path, s ∈ f.states := by
  induction h with
  | nil => simp
  | cons hn hnext _ ih =>
    simp only [List.mem_cons, not_or] at hx
    have hnext' := hf.inside _ hq (fun he => hx.1 he.symm) _ hn _ (StateNode.next_mem_successors hnext)
    intro s hs
    simp only [List.mem_cons] at hs
    rcases hs with rfl | hs
    · exact hq
    · exact ih hnext' hx.2 s hs

/-- A walk that leads out of the fragment comes by its exit. -/
theorem leaves (hf : f.Confined t) {q q' : StateId} {v w : Array Bool} {path : List StateId}
    (h : Walk t q v path q' w) (hq : q ∈ f.states) (hq' : q' ∉ f.states) :
    ∃ path₁ path₂ u n q₁, path = path₁ ++ f.exit :: path₂ ∧ f.exit ∉ path₁ ∧ Walk t q v path₁ f.exit u ∧
      t[f.exit.index]? = some n ∧ n.next (.ofArray (n.fire u)) = some q₁ ∧
      Walk t q₁ (n.fire u) path₂ q' w := by
  induction h with
  | nil => exact absurd hq hq'
  | @cons q q₁ _ v _ path n hn hnext hrest ih =>
    by_cases he : q = f.exit
    · subst he
      exact ⟨[], path, v, n, q₁, rfl, by simp, .nil, hn, hnext, hrest⟩
    · have hmem := hf.inside _ hq he _ hn _ (StateNode.next_mem_successors hnext)
      obtain ⟨path₁, path₂, u, n', q₂, rfl, hx, h₁, hn', hnext', h₂⟩ := ih hmem hq'
      refine ⟨q :: path₁, path₂, u, n', q₂, rfl, ?_, .cons hn hnext h₁, hn', hnext', h₂⟩
      simp only [List.mem_cons, not_or]
      exact ⟨fun h => he h.symm, hx⟩

end Walk

/-! ## Joined fragments -/

theorem Fragment.entry_foldl_join (rest : List Fragment) : ∀ f : Fragment,
    (rest.foldl Fragment.join f).entry = f.entry := by
  induction rest with
  | nil => exact fun _ => rfl
  | cons g rest ih => exact fun f => ih (f.join g)

theorem Fragment.exit_foldl_join (rest : List Fragment) : ∀ f g : Fragment, f.exit = g.exit →
    (rest.foldl Fragment.join f).exit = (rest.foldl Fragment.join g).exit := by
  induction rest with
  | nil => exact fun _ _ h => h
  | cons h rest ih => exact fun f g _ => ih (f.join h) (g.join h) rfl

theorem Fragment.exit_foldl_join_mem (rest : List Fragment) : ∀ f : Fragment,
    ∃ g ∈ f :: rest, (rest.foldl Fragment.join f).exit = g.exit := by
  induction rest with
  | nil => exact fun f => ⟨f, by simp, rfl⟩
  | cons g rest ih =>
    intro f
    obtain ⟨h, hmem, he⟩ := ih g
    exact ⟨h, List.mem_cons_of_mem _ hmem, (exit_foldl_join rest (f.join g) g rfl).trans he⟩

/-- In the table, each exit but the last has one edge, to the next entry. -/
def Linked (t : Array StateNode) : Fragment → List Fragment → Prop
  | _, [] => True
  | f, g :: rest =>
    (∃ n, t[f.exit.index]? = some n ∧ n.transitions = [] ∧ n.defaultTarget = some g.entry) ∧ Linked t g rest

theorem StateNode.next_default {n : StateNode} (h : n.transitions = []) (v : Valuation) :
    n.next v = n.defaultTarget := by
  simp [StateNode.next, h]

/-! ## Runs in turn -/

/-- Runs of programs, each from the values with which the one before ended: how many
transitions each takes, the states that each enters, and the values at the end. -/
inductive InTurn : List Program → Array Bool → List Nat → List (List StateId) → Array Bool → Prop
  | nil {v : Array Bool} : InTurn [] v [] [] v
  | cons {p : Program} {ps : List Program} {v w u : Array Bool} {k : Nat} {ks : List Nat}
      {path : List StateId} {paths : List (List StateId)} :
      p.Completes v k path w → InTurn ps w ks paths u → InTurn (p :: ps) v (k :: ks) (path :: paths) u

theorem Program.actions_eq {p : Program} {q : StateId} {n : StateNode} (h : p.states[q.index]? = some n)
    (v : Array Bool) : (p.actions q).foldl Action.fire v = n.fire v := by
  simp only [Program.actions, Program.state?, h, StateNode.fire]

section

variable {signals : Array SignalInfo} {t : Array StateNode}

/-- The runs of a linked list of fragments join to a run from the first entry to the last exit. -/
theorem completes_of_inTurn : ∀ (rest : List Fragment) (f : Fragment),
    (∀ g ∈ f :: rest, g.Confined t) → (f :: rest).Pairwise (fun f g => f.states.Disjoint g.states) →
    Linked t f rest → ∀ {v w : Array Bool} {ks : List Nat} {paths : List (List StateId)},
    InTurn ((f :: rest).map fun g => ⟨signals, t, g.entry, g.exit⟩) v ks paths w →
    Program.Completes ⟨signals, t, f.entry, (rest.foldl Fragment.join f).exit⟩ v (ks.sum + rest.length)
      paths.flatten w
  | [], f, _, _, _, v, w, ks, paths, h => by
    cases h with
    | cons hp hps =>
      cases hps
      simpa using hp
  | g :: rest, f, hconf, hdisj, hlink, v, w, ks, paths, h => by
    obtain ⟨⟨n, hn, htrans, hdef⟩, hlink⟩ := hlink
    rw [List.pairwise_cons] at hdisj
    cases h with
    | cons hp hps =>
    have hrest := completes_of_inTurn rest g (fun h hh => hconf h (List.mem_cons_of_mem _ hh)) hdisj.2 hlink hps
    rw [completes_iff] at hp hrest
    obtain ⟨route₁, u₁, hw₁, hx₁, rfl, rfl, rfl⟩ := hp
    obtain ⟨route₂, u₂, hw₂, hx₂, hk, hpath, rfl⟩ := hrest
    rw [Program.actions_eq hn] at hw₂
    have hexit : ((g :: rest).foldl Fragment.join f).exit = (rest.foldl Fragment.join g).exit :=
      Fragment.exit_foldl_join rest _ _ rfl
    -- The walk through `f` stays in `f`, and the last exit is not one of its states.
    have hf := hconf f (by simp)
    have hstay := hw₁.stays hf hf.entry hx₁
    obtain ⟨l, hl, hlast⟩ := Fragment.exit_foldl_join_mem rest g
    have hout : ∀ q ∈ f.states, q ≠ (rest.foldl Fragment.join g).exit := fun q hq he =>
      hdisj.1 l hl hq (by rw [he, hlast]; exact (hconf l (List.mem_cons_of_mem _ hl)).exit)
    rw [hexit, completes_iff]
    refine ⟨route₁ ++ [f.exit] ++ route₂, u₂, (hw₁.snoc hn ?_).append hw₂, ?_, ?_, ?_, rfl⟩
    · rw [StateNode.next_default htrans, hdef]
    · simp only [List.mem_append, List.mem_singleton, not_or]
      exact ⟨⟨fun hm => hout _ (hstay _ hm) rfl, fun he => hout _ hf.exit he.symm⟩, hx₂⟩
    · simp only [List.sum_cons, List.length_cons, List.length_append, List.length_nil]
      omega
    · simp only [List.flatten_cons, hpath, List.append_assoc]

/-- A run from the first entry to the last exit falls apart into runs of the fragments. -/
theorem inTurn_of_completes : ∀ (rest : List Fragment) (f : Fragment),
    (∀ g ∈ f :: rest, g.Confined t) → (f :: rest).Pairwise (fun f g => f.states.Disjoint g.states) →
    Linked t f rest → ∀ {v w : Array Bool} {k : Nat} {path : List StateId},
    Program.Completes ⟨signals, t, f.entry, (rest.foldl Fragment.join f).exit⟩ v k path w →
    ∃ ks paths, InTurn ((f :: rest).map fun g => ⟨signals, t, g.entry, g.exit⟩) v ks paths w
  | [], f, _, _, _, v, w, k, path, h => ⟨[k], [path], .cons h .nil⟩
  | g :: rest, f, hconf, hdisj, hlink, v, w, k, path, h => by
    obtain ⟨⟨n, hn, htrans, hdef⟩, hlink⟩ := hlink
    rw [List.pairwise_cons] at hdisj
    have hexit : ((g :: rest).foldl Fragment.join f).exit = (rest.foldl Fragment.join g).exit :=
      Fragment.exit_foldl_join rest _ _ rfl
    rw [hexit, completes_iff] at h
    obtain ⟨route, u, hw, hx, rfl, rfl, rfl⟩ := h
    have hf := hconf f (by simp)
    obtain ⟨l, hl, hlast⟩ := Fragment.exit_foldl_join_mem rest g
    have hout : (rest.foldl Fragment.join g).exit ∉ f.states := fun hm =>
      hdisj.1 l hl hm (by rw [hlast]; exact (hconf l (List.mem_cons_of_mem _ hl)).exit)
    obtain ⟨route₁, route₂, u₁, n', q₁, rfl, hx₁, hw₁, hn', hnext, hw₂⟩ := hw.leaves hf hf.entry hout
    rw [hn] at hn'
    cases hn'
    rw [StateNode.next_default htrans, hdef] at hnext
    cases hnext
    have hrest : Program.Completes ⟨signals, t, g.entry, (rest.foldl Fragment.join g).exit⟩ (n.fire u₁)
        route₂.length (route₂ ++ [(rest.foldl Fragment.join g).exit]) _ :=
      completes_iff.mpr ⟨route₂, u, hw₂, fun hm => hx (by simp [hm]), rfl, rfl, rfl⟩
    obtain ⟨ks, paths, hturn⟩ := inTurn_of_completes rest g
      (fun h hh => hconf h (List.mem_cons_of_mem _ hh)) hdisj.2 hlink hrest
    refine ⟨route₁.length :: ks, (route₁ ++ [f.exit]) :: paths, .cons ?_ hturn⟩
    exact completes_iff.mpr ⟨route₁, u₁, hw₁, hx₁, rfl, rfl, (Program.actions_eq hn u₁).symm⟩

end

/-! ## What sequencing changes -/

namespace Design

theorem chain_eq_ok {f g h : Fragment} {d d' : Design} :
    chain f g d = .ok h d' ↔ h = f.join g ∧ g.entry.index < d.states.size ∧
      (∃ n, d.state? f.exit = some n ∧ n.defaultTarget = none) ∧
      d' = d.editState f.exit (·.setDefault g.entry) := by
  simp only [chain, bind_eq_ok, connect_eq_ok, pure_eq_ok]
  constructor
  · intro h
    obtain ⟨_, _, ⟨hg, hf, rfl⟩, rfl, rfl⟩ := h
    exact ⟨rfl, hg, hf, rfl⟩
  · intro h
    obtain ⟨rfl, hg, hf, rfl⟩ := h
    exact ⟨(), _, ⟨hg, hf, rfl⟩, rfl, rfl⟩

/-- Every state is as it was, or had no default target and was given one. -/
def DefaultsAdded (d d' : Design) : Prop :=
  ∀ i : Nat, d'.states[i]? = d.states[i]? ∨
    ∃ n target, d.states[i]? = some n ∧ n.defaultTarget = none ∧ d'.states[i]? = some (n.setDefault target)

theorem DefaultsAdded.refl (d : Design) : DefaultsAdded d d := fun _ => .inl rfl

theorem DefaultsAdded.trans {d₁ d₂ d₃ : Design} (h₁ : DefaultsAdded d₁ d₂) (h₂ : DefaultsAdded d₂ d₃) :
    DefaultsAdded d₁ d₃ := by
  intro i
  rcases h₂ i with h | ⟨n, target, hn, hd, h⟩
  · rw [h]
    exact h₁ i
  · rcases h₁ i with h' | ⟨n', target', hn', hd', h'⟩
    · exact .inr ⟨n, target, h' ▸ hn, hd, h⟩
    · rw [h'] at hn
      cases hn
      cases hd

theorem chain_defaultsAdded {f g h : Fragment} {d d' : Design} (hc : chain f g d = .ok h d') :
    DefaultsAdded d d' := by
  obtain ⟨-, -, ⟨n, hn, hd⟩, rfl⟩ := chain_eq_ok.mp hc
  intro i
  rw [editState_getElem?]
  split
  · next hi =>
    subst hi
    exact .inr ⟨n, g.entry, hn, hd, by rw [show d.states[f.exit.index]? = some n from hn]; rfl⟩
  · exact .inl rfl

theorem chain_signals {f g h : Fragment} {d d' : Design} (hc : chain f g d = .ok h d') :
    d'.signals = d.signals := by
  obtain ⟨-, -, -, rfl⟩ := chain_eq_ok.mp hc
  rfl

theorem foldlM_chain_cons {f g top : Fragment} {rest : List Fragment} {d d' : Design}
    (h : (g :: rest).foldlM chain f d = .ok top d') :
    ∃ d₁, chain f g d = .ok (f.join g) d₁ ∧ rest.foldlM chain (f.join g) d₁ = .ok top d' := by
  rw [List.foldlM_cons, bind_eq_ok] at h
  obtain ⟨_, d₁, hc, h⟩ := h
  obtain ⟨rfl, -⟩ := chain_eq_ok.mp hc
  exact ⟨d₁, hc, h⟩

theorem foldlM_chain_top : ∀ {rest : List Fragment} {f top : Fragment} {d d' : Design},
    rest.foldlM chain f d = .ok top d' → top = rest.foldl Fragment.join f ∧ d'.signals = d.signals
  | [], f, top, d, d', h => by
    obtain ⟨rfl, rfl⟩ := pure_eq_ok.mp h
    exact ⟨rfl, rfl⟩
  | g :: rest, f, top, d, d', h => by
    obtain ⟨d₁, hc, h⟩ := foldlM_chain_cons h
    obtain ⟨htop, hsig⟩ := foldlM_chain_top h
    exact ⟨htop, hsig.trans (chain_signals hc)⟩

theorem foldlM_chain_defaultsAdded : ∀ {rest : List Fragment} {f top : Fragment} {d d' : Design},
    rest.foldlM chain f d = .ok top d' → DefaultsAdded d d'
  | [], f, top, d, d', h => by
    obtain ⟨rfl, rfl⟩ := pure_eq_ok.mp h
    exact .refl d
  | g :: rest, f, top, d, d', h => by
    obtain ⟨d₁, hc, h⟩ := foldlM_chain_cons h
    exact (chain_defaultsAdded hc).trans (foldlM_chain_defaultsAdded h)

theorem foldlM_chain_size : ∀ {rest : List Fragment} {f top : Fragment} {d d' : Design},
    rest.foldlM chain f d = .ok top d' → d'.states.size = d.states.size
  | [], f, top, d, d', h => by
    obtain ⟨rfl, rfl⟩ := pure_eq_ok.mp h
    rfl
  | g :: rest, f, top, d, d', h => by
    obtain ⟨d₁, hc, h⟩ := foldlM_chain_cons h
    obtain ⟨-, -, -, rfl⟩ := chain_eq_ok.mp hc
    rw [foldlM_chain_size h, editState_size]

/-- Fragments can be put in sequence if their exits are different states with no default. -/
theorem foldlM_chain_exists : ∀ {rest : List Fragment} {f : Fragment} {d : Design},
    (∀ g ∈ rest, g.entry.index < d.states.size) →
    (∀ g ∈ f :: rest, ∃ n, d.state? g.exit = some n ∧ n.defaultTarget = none) →
    (f :: rest).Pairwise (fun f g => f.exit.index ≠ g.exit.index) → ∃ top d', rest.foldlM chain f d = .ok top d'
  | [], f, d, _, _, _ => ⟨f, d, rfl⟩
  | g :: rest, f, d, hentry, hexit, hne => by
    rw [List.pairwise_cons] at hne
    have hchain := chain_eq_ok.mpr ⟨rfl, hentry g (by simp), hexit f (by simp), rfl⟩
    -- The first exit has its default now, and the others are as they were.
    have hkept : ∀ h ∈ g :: rest, ∃ n,
        (d.editState f.exit (·.setDefault g.entry)).state? h.exit = some n ∧ n.defaultTarget = none := by
      intro h hh
      obtain ⟨n, hn, hdefault⟩ := hexit h (List.mem_cons_of_mem _ hh)
      exact ⟨n, (editState_getElem?_of_ne (hne.1 h hh) _).trans hn, hdefault⟩
    obtain ⟨top, d', hrest⟩ := foldlM_chain_exists (f := f.join g) (d := d.editState f.exit (·.setDefault g.entry))
      (fun h hh => by rw [editState_size]; exact hentry h (by simp [hh]))
      (List.forall_mem_cons.mpr (List.forall_mem_cons.mp hkept))
      (List.pairwise_cons.mpr (List.pairwise_cons.mp hne.2))
    refine ⟨top, d', ?_⟩
    rw [List.foldlM_cons, bind_eq_ok]
    exact ⟨_, _, hchain, hrest⟩

/-- States that are no exit of a fragment stay as they were. -/
theorem foldlM_chain_keeps : ∀ {rest : List Fragment} {f top : Fragment} {d d' : Design},
    rest.foldlM chain f d = .ok top d' → ∀ {i : Nat}, (∀ g ∈ f :: rest, g.exit.index ≠ i) →
    d'.states[i]? = d.states[i]?
  | [], f, top, d, d', h, i, _ => by
    obtain ⟨rfl, rfl⟩ := pure_eq_ok.mp h
    rfl
  | g :: rest, f, top, d, d', h, i, hi => by
    obtain ⟨d₁, hc, h⟩ := foldlM_chain_cons h
    have hrest : d'.states[i]? = d₁.states[i]? := foldlM_chain_keeps h fun g' hg' => by
      simp only [List.mem_cons] at hg'
      rcases hg' with rfl | hg'
      · exact hi g (by simp)
      · exact hi g' (by simp [hg'])
    obtain ⟨-, -, -, rfl⟩ := chain_eq_ok.mp hc
    rw [hrest, editState_getElem?, if_neg (hi f (by simp))]

/-- Each exit but the last has got the next entry as its default target. -/
theorem foldlM_chain_linked : ∀ {rest : List Fragment} {f top : Fragment} {d d' : Design},
    rest.foldlM chain f d = .ok top d' →
    (∀ g ∈ f :: rest, ∀ n, d.state? g.exit = some n → n.transitions = []) → Linked d'.states f rest
  | [], _, _, _, _, _, _ => trivial
  | g :: rest, f, top, d, d', h, hexit => by
    obtain ⟨d₁, hc, h⟩ := foldlM_chain_cons h
    have hadded := chain_defaultsAdded hc
    obtain ⟨-, -, ⟨n, hn, hd⟩, rfl⟩ := chain_eq_ok.mp hc
    have hn₁ : (d.editState f.exit (·.setDefault g.entry)).states[f.exit.index]? =
        some (n.setDefault g.entry) := by
      rw [editState_getElem?, if_pos rfl, show d.states[f.exit.index]? = some n from hn]
      rfl
    refine ⟨⟨n.setDefault g.entry, ?_, hexit f (by simp) n hn, rfl⟩, ?_⟩
    · -- A default target that was set is there for good.
      rcases foldlM_chain_defaultsAdded h f.exit.index with heq | ⟨n', target, hn', hd', -⟩
      · rw [heq, hn₁]
      · rw [hn₁] at hn'
        cases hn'
        cases hd'
    · have hrest : Linked d'.states (f.join g) rest := foldlM_chain_linked h fun g' hg' n' hn' => by
        have hmem : ∃ h ∈ f :: g :: rest, h.exit = g'.exit := by
          simp only [List.mem_cons] at hg'
          rcases hg' with rfl | hg'
          · exact ⟨g, by simp, rfl⟩
          · exact ⟨g', by simp [hg'], rfl⟩
        obtain ⟨h', hh', he⟩ := hmem
        rcases hadded g'.exit.index with heq | ⟨n₀, target, hn₀, -, heq⟩
        · exact hexit h' hh' n' (by rw [he]; exact heq.symm.trans hn')
        · rw [state?, heq] at hn'
          cases hn'
          exact hexit h' hh' n₀ (by rw [he]; exact hn₀)
      cases rest with
      | nil => trivial
      | cons _ _ => exact hrest

/-- A fragment of the design's states with one way in and one way out: no edge leads out of it,
and none leaves its exit. -/
structure Encloses (d : Design) (f : Fragment) : Prop where
  known : ∀ q ∈ f.states, q.index < d.states.size
  entry : f.entry ∈ f.states
  exit : f.exit ∈ f.states
  inside : ∀ q ∈ f.states, q ≠ f.exit → ∀ n, d.state? q = some n → ∀ target ∈ n.successors, target ∈ f.states
  leaves : ∀ n, d.state? f.exit = some n → n.isDeadEnd = true

instance : Std.Symm fun f g : Fragment => f.states.Disjoint g.states := ⟨fun _ _ h _ ha hb => h hb ha⟩

/-- A state of a fragment other than its exit stays as it was. -/
theorem sequence_keeps {rest : List Fragment} {f g top : Fragment} {d d' : Design}
    (h : rest.foldlM chain f d = .ok top d') (henc : ∀ g ∈ f :: rest, d.Encloses g)
    (hdisj : (f :: rest).Pairwise fun f g => f.states.Disjoint g.states) (hg : g ∈ f :: rest) {q : StateId}
    (hq : q ∈ g.states) (hne : q ≠ g.exit) : d'.states[q.index]? = d.states[q.index]? := by
  refine foldlM_chain_keeps h fun g' hg' he => ?_
  -- It is the exit of no fragment, as fragments are disjoint.
  have heq : g'.exit = q := congrArg StateId.mk he
  by_cases hgg : g = g'
  · exact hne (hgg ▸ heq).symm
  · exact hdisj.forall hg hg' hgg hq (heq ▸ (henc g' hg').exit)

theorem sequence_confined {rest : List Fragment} {f top : Fragment} {d d' : Design}
    (h : rest.foldlM chain f d = .ok top d') (henc : ∀ g ∈ f :: rest, d.Encloses g)
    (hdisj : (f :: rest).Pairwise fun f g => f.states.Disjoint g.states) :
    ∀ g ∈ f :: rest, g.Confined d'.states := by
  intro g hg
  have hgd := henc g hg
  refine ⟨hgd.entry, hgd.exit, fun q hq hne n hn => hgd.inside q hq hne n ?_⟩
  rwa [sequence_keeps h henc hdisj hg hq hne] at hn

/-- Fragments that are put in sequence run one after the other: the sequence reaches its exit just
when they do in turn, and then it does what they do, with one more transition between two of them. -/
theorem sequence_runs_in_turn {fs : List Fragment} {f : Fragment} {d d' : Design}
    (hdisj : fs.Pairwise fun f g => f.states.Disjoint g.states) (henc : ∀ g ∈ fs, d.Encloses g)
    (h : sequence fs d = .ok f d') (v : Array Bool) :
    ((∃ k path w, (d'.program f).Completes v k path w) ↔
      ∃ ks paths w, InTurn (fs.map d'.program) v ks paths w) ∧
    ∀ k path w ks paths u, (d'.program f).Completes v k path w → InTurn (fs.map d'.program) v ks paths u →
      w = u ∧ path = paths.flatten ∧ k = ks.sum + (fs.length - 1) := by
  cases fs with
  | nil => cases h
  | cons g rest =>
    have hconf := sequence_confined h henc hdisj
    have hlink : Linked d'.states g rest := foldlM_chain_linked h fun g' hg' n hn => by
      have := (henc g' hg').leaves n hn
      simp only [StateNode.isDeadEnd, Bool.and_eq_true, List.isEmpty_iff] at this
      exact this.1
    obtain ⟨rfl, -⟩ := foldlM_chain_top h
    have hp : d'.program (rest.foldl Fragment.join g) =
        ⟨d'.signals, d'.states, g.entry, (rest.foldl Fragment.join g).exit⟩ := by
      rw [program, Fragment.entry_foldl_join]
    have hjoin : ∀ {w ks paths}, InTurn ((g :: rest).map d'.program) v ks paths w →
        (d'.program (rest.foldl Fragment.join g)).Completes v (ks.sum + rest.length) paths.flatten w :=
      fun hturn => hp ▸ completes_of_inTurn rest g hconf hdisj hlink hturn
    refine ⟨⟨?_, ?_⟩, ?_⟩
    · intro hc
      obtain ⟨k, path, w, hc⟩ := hc
      obtain ⟨ks, paths, hturn⟩ := inTurn_of_completes rest g hconf hdisj hlink (hp ▸ hc)
      exact ⟨ks, paths, w, hturn⟩
    · intro hturn
      obtain ⟨ks, paths, w, hturn⟩ := hturn
      exact ⟨_, _, w, hjoin hturn⟩
    · intro k path w ks paths u hc hturn
      obtain ⟨rfl, rfl, rfl⟩ := hc.det (hjoin hturn)
      exact ⟨rfl, rfl, rfl⟩

/-- A loop that runs until `x` is set, which it does itself, and a state that clears `x`. -/
def loopThenClear : Design where
  settings := {}
  signals := #[⟨"x", false, false⟩]
  states := #[{ label := "test", transitions := [⟨⟨0⟩, ⟨2⟩, .when ⟨0⟩ true, 0⟩], defaultTarget := some ⟨1⟩ },
    { label := "set", actions := [.drive ⟨0⟩ true], defaultTarget := some ⟨0⟩ }, { label := "done" },
    { label := "clear", actions := [.drive ⟨0⟩ false] }]

def loopFragments : List Fragment := [⟨⟨0⟩, ⟨2⟩, [⟨0⟩, ⟨1⟩, ⟨2⟩]⟩, .single ⟨3⟩]

theorem loopThenClear_encloses : ∀ f ∈ loopFragments, loopThenClear.Encloses f := by
  intro f hf
  have hentry : ∀ f ∈ loopFragments, f.entry ∈ f.states := by decide
  have hexit : ∀ f ∈ loopFragments, f.exit ∈ f.states := by decide
  have hknown : ∀ f ∈ loopFragments, ∀ q ∈ f.states, q.index < loopThenClear.states.size := by decide
  have hinside : ∀ f ∈ loopFragments, ∀ q ∈ f.states, q ≠ f.exit → ∀ n ∈ loopThenClear.state? q,
      ∀ target ∈ n.successors, target ∈ f.states := by decide
  have hleaves : ∀ f ∈ loopFragments, ∀ n ∈ loopThenClear.state? f.exit, n.isDeadEnd = true := by decide
  exact ⟨hknown f hf, hentry f hf, hexit f hf, hinside f hf, hleaves f hf⟩

theorem loopThenClear_runs_in_turn :
    ∃ f d', sequence loopFragments loopThenClear = .ok f d' ∧
      (d'.program f).Completes #[false] 4 [⟨0⟩, ⟨1⟩, ⟨0⟩, ⟨2⟩, ⟨3⟩] #[false] ∧
      ∃ ks paths w, InTurn (loopFragments.map d'.program) #[false] ks paths w := by
  have hapart : loopFragments.Pairwise fun f g => ∀ q ∈ f.states, q ∉ g.states := by decide
  refine ⟨_, _, rfl, ⟨4, _, rfl, rfl, rfl⟩, ?_⟩
  exact (sequence_runs_in_turn hapart loopThenClear_encloses rfl #[false]).1.mp
    ⟨4, _, _, 4, _, rfl, rfl, rfl⟩

end Design

end SignalGraph
