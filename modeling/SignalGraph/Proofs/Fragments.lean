/-
Fragments at work in the tables of a design.

`d.Runs f R` is what a caller sees of a fragment: from all values that are faithful to the signals a
machine gets from its entry to its exit, and ends with values as `R` says. Behind it are the states
of the fragment, which hold code that does `R` (`Performs`). They go on to do so whatever else is
built, as long as they are left alone (`Performs.spared`). And two fragments that stand apart can be
put in sequence, whichever was built first, and do in turn what each of them does
(`Performs.sequence`).
-/
import SignalGraph.Proofs.Reruns

namespace SignalGraph

open Design

/-! ## Runs that halt -/

namespace Program.Completes

variable {p : Program} {v w : Array Bool} {k : Nat} {path : List StateId}

/-- Runs keep values faithful. -/
theorem faithful (h : p.Completes v k path w) (hw : WellFormed p.signals p.states) (hv : Faithful p.signals v) :
    Faithful p.signals w := by
  obtain ⟨limit, m, hrun, -, rfl⟩ := h
  have hmoves : Machine.Moves (.load p ⟨limit⟩ v) m := after_of_ok hrun ▸ Machine.runFor_moves _ _ _ _
  have hintact : Machine.Intact p m := hmoves.invariant (fun _ _ => Machine.Move.intact hw) ⟨rfl, hv⟩
  exact hintact.values

/-- A run that reaches the exit does so under every limit that it keeps to. -/
theorem run_within (h : p.Completes v k path w) {limit : Nat} (hk : k ≤ limit) :
    ∃ m, Machine.run (.load p ⟨limit⟩ v) = .ok k m ∧ m.values = w := by
  obtain ⟨route, u, hwalk, hexit, rfl, -, rfl⟩ := completes_iff.mp h
  obtain ⟨m, hrun, -, hvalues⟩ := run_of_walk hwalk hexit hk
  exact ⟨m, hrun, hvalues⟩

end Program.Completes

namespace Design

/-- From all values that are faithful to the signals, a machine that is allowed as many transitions as there
are states runs through the fragment and halts at its exit, with values as `R` says. -/
def Runs (d : Design) (f : Fragment) (R : Valuation → Valuation → Prop) : Prop :=
  ∀ v : Array Bool, Faithful d.signals v → ∀ limit, d.states.size ≤ limit →
    ∃ k m, Machine.run (.load (d.program f) ⟨limit⟩ v) = .ok k m ∧ m.isHalted = true ∧ R (.ofArray v) m.valuation

theorem Runs.mono {d : Design} {f : Fragment} {R S : Valuation → Valuation → Prop} (h : d.Runs f R)
    (hRS : ∀ v w, R v w → S v w) : d.Runs f S := by
  intro v hv limit hlimit
  obtain ⟨k, m, hrun, hhalted, hR⟩ := h v hv limit hlimit
  exact ⟨k, m, hrun, hhalted, hRS _ _ hR⟩

end Design

theorem Realizes.runs {d d' : Design} {f : Fragment} {R : Valuation → Valuation → Prop} (h : Realizes d d' [f] R)
    (hd' : Sound d') : d'.Runs f R := by
  intro v hv limit hlimit
  obtain ⟨k, m, hrun, hR⟩ := h.run hd' hv.size hv.constants hlimit
  exact ⟨k, m, hrun, Machine.isHalted_of_run hrun, hR⟩

/-! ## Fragments that stand in a design -/

theorem Lays.keeps {d d' : Design} {fs : List Fragment} (h : Lays d d' fs) {q : StateId}
    (hq : q.index < d.states.size) : d'.state? q = d.state? q := by
  obtain ⟨l, -, -, hl⟩ := h
  exact hl.old q.index hq

/-- Of two stretches that share no states one comes first. -/
theorem Fragment.Stretch.before_or_after {t : Array StateNode} {f g : Fragment} (hf : f.Stretch t) (hg : g.Stretch t)
    (hdisj : f.states.Disjoint g.states) : f.exit.index < g.entry.index ∨ g.exit.index < f.entry.index := by
  by_contra hmeet
  have hfle := hf.le
  have hgle := hg.le
  -- The later of the two entries would be a state of both.
  refine hdisj (a := ⟨max f.entry.index g.entry.index⟩) (hf.mem_states.mpr ?_) (hg.mem_states.mpr ?_)
  · dsimp only
    omega
  · dsimp only
    omega

namespace Design

/-- The states of the fragment hold code that does what `R` says, and nothing leads on from its exit. -/
structure Performs (d : Design) (f : Fragment) (R : Valuation → Valuation → Prop) : Prop where
  stretch : f.Stretch d.states
  isOpen : f.Open d.states
  does : ∃ c : Code, f.Holds c d.states ∧ ∀ v, ConstantsHold d.signals v → R v (c.exec v)

namespace Performs

variable {d d' : Design} {f g : Fragment} {R S : Valuation → Valuation → Prop}

theorem of_realizes (h : Realizes d d' [f] R) (hlays : Lays d d' [f]) : d'.Performs f R := by
  obtain ⟨-, hstretch, hopen, -⟩ := hlays.stretch
  obtain ⟨l, hl, hemitted, -, hR⟩ := h
  obtain ⟨⟨_, c⟩, rfl, rfl⟩ := List.map_eq_singleton_iff.mp hl
  exact ⟨hstretch, hopen, c, hemitted.holds, hR⟩

/-- What leaves the states of the fragment alone leaves it to do what it does. -/
theorem spared (h : d.Performs f R) (he : Edits d d') (hkeep : ∀ q ∈ f.states, d'.state? q = d.state? q) :
    d'.Performs f R := by
  have hexit := hkeep f.exit h.stretch.exit_mem
  obtain ⟨n, hn, hlast⟩ := h.isOpen
  obtain ⟨c, hc, hR⟩ := h.does
  refine ⟨h.stretch.congr hkeep, ⟨n, hexit.trans hn, hlast⟩, c, ?_, fun v hv => hR v (he.constantsHold hv)⟩
  exact hc.congr (fun q hq _ => hkeep q hq) fun n hn => ⟨n, hexit.trans hn, rfl⟩

theorem exists_sequence (hf : d.Performs f R) (hg : d.Performs g S) (hdisj : f.states.Disjoint g.states) :
    ∃ top d', Design.sequence [f, g] d = .ok top d' := by
  have hplace := hf.stretch.before_or_after hg.stretch hdisj
  have hfle := hf.stretch.le
  have hgle := hg.stretch.le
  obtain ⟨n, hn, -, hdefault⟩ := hf.isOpen
  obtain ⟨n', hn', -, hdefault'⟩ := hg.isOpen
  refine @foldlM_chain_exists [g] f d ?_ ?_ (List.pairwise_pair.mpr (by omega))
  · exact List.forall_mem_singleton.mpr (Nat.lt_of_le_of_lt hgle hg.stretch.lt_size)
  · exact List.forall_mem_cons.mpr ⟨⟨n, hn, hdefault⟩, List.forall_mem_singleton.mpr ⟨n', hn', hdefault'⟩⟩

/-- Two fragments that stand apart do in sequence what each of them does in turn. -/
theorem sequence {top : Fragment} (hf : d.Performs f R) (hg : d.Performs g S) (hd : Sound d)
    (hdisj : f.states.Disjoint g.states) (hs : Design.sequence [f, g] d = .ok top d') :
    d'.Runs top (Relation.Comp R S) := by
  intro v hv limit hlimit
  have hapart : [f, g].Pairwise fun f g => f.states.Disjoint g.states := List.pairwise_pair.mpr hdisj
  have henc : ∀ h ∈ [f, g], d.Encloses h := List.forall_mem_cons.mpr
    ⟨hf.stretch.encloses hf.isOpen, List.forall_mem_singleton.mpr (hg.stretch.encloses hg.isOpen)⟩
  have hw : WellFormed d'.signals d'.states := (((sequence_makes [f, g]).edits hs).sound hd).wellFormed
  have hsignals : d'.signals = d.signals := (foldlM_chain_top hs).2
  obtain ⟨c, hc, hR⟩ := hf.does
  obtain ⟨e, he, hS⟩ := hg.does
  obtain ⟨u, hfirst, hu, hexec⟩ := (hc.sequence hs henc hapart (by simp)).completes hw hv.size
  have hfaithful : Faithful d'.signals u := hfirst.faithful hw hv
  obtain ⟨w, hsecond, -, hexec'⟩ := (he.sequence hs henc hapart (by simp)).completes hw hu
  have hcompletes := completes_sequence hs henc hapart (.cons hfirst (.cons hsecond .nil))
  -- Each fragment takes fewer transitions than it has states, and they have no state in common.
  have hbound : [(route f.entry.index c.steps (c.choices (.ofArray v))).length,
      (route g.entry.index e.steps (e.choices (.ofArray u))).length].sum + 1 ≤ limit := by
    have hlength := length_route_le c.steps f.entry.index (c.choices (.ofArray v))
    have hlength' := length_route_le e.steps g.entry.index (e.choices (.ofArray u))
    have hplace := hf.stretch.before_or_after hg.stretch hdisj
    have hspan := hc.exit_index
    have hspan' := he.exit_index
    have hsize : d'.states.size = d.states.size := foldlM_chain_size hs
    have hlt := hf.stretch.lt_size
    have hlt' := hg.stretch.lt_size
    simp only [List.sum_cons, List.sum_nil]
    omega
  obtain ⟨m, hrun, hvalues⟩ := hcompletes.run_within hbound
  refine ⟨_, m, hrun, Machine.isHalted_of_run hrun, .ofArray u, ?_, ?_⟩
  · rw [hexec]
    exact hR _ (hsignals ▸ hv.constants)
  · rw [Machine.valuation, hvalues, hexec']
    exact hS _ (hsignals ▸ hfaithful.constants)

end Performs

end Design

end SignalGraph
