/-
What the fragments of a design do when they run one after the other.

`Realizes d d' fs R` is the contract of construction that led from `d` to `d'`: it added the
code of the fragments `fs` and nothing else, and from every valuation in which constants have
their values that code does what `R` says. Contracts are put together with `append`, where the
second construction went on from the first, and `sequence` makes one fragment of them.
-/
import SignalGraph.Proofs.Constants
import SignalGraph.Proofs.Layout

namespace SignalGraph

namespace Design

/-- What holds of every design that can be reached. -/
structure Sound (d : Design) : Prop where
  wellFormed : WellFormed d.signals d.states
  constants : ConstantsKept d

theorem Edits.sound {d d' : Design} (h : Edits d d') (hd : Sound d) : Sound d' :=
  ⟨h.invariant (I := fun d => WellFormed d.signals d.states) (fun _ _ => Edit.wellFormed) hd.wellFormed,
    h.constantsKept hd.constants⟩

theorem Sound.new (settings : DesignSettings) : Sound (.new settings) :=
  ⟨fun i n hn => by simp [Design.new] at hn, .new settings⟩

theorem Edits.writable {d d' : Design} (h : Edits d d') {s : SignalId} (hs : d.Writable s) : d'.Writable s := by
  obtain ⟨info, hinfo, hc⟩ := hs
  exact ⟨info, h.signal? hinfo, hc⟩

theorem Edits.constantsHold {d d' : Design} (h : Edits d d') {v : Valuation}
    (hv : ConstantsHold d'.signals v) : ConstantsHold d.signals v :=
  fun _ _ hs => hv _ _ (h.signal? hs)

theorem Edits.signals_size_le {d d' : Design} (h : Edits d d') : d.signals.size ≤ d'.signals.size := by
  rcases Nat.eq_zero_or_pos d.signals.size with h₀ | h₀
  · omega
  · have hlast := h.signal? (s := ⟨d.signals.size - 1⟩) (Array.getElem?_eq_getElem (by simp only; omega))
    have := signal?_lt hlast
    simp only at this
    omega

theorem Knows.mono {d d' : Design} {bits : List SignalId} (h : d.Knows bits) (he : Edits d d') : d'.Knows bits :=
  fun s hs => Nat.lt_of_lt_of_le (h s hs) he.signals_size_le

end Design

open Design

/-- What codes do one after the other. -/
def execAll (l : List (Fragment × Code)) (v : Valuation) : Valuation := l.foldl (fun v p => p.2.exec v) v

/-- From `d` to `d'` the code of the fragments was added, and it takes valuations to others as `R` says. -/
def Realizes (d d' : Design) (fs : List Fragment) (R : Valuation → Valuation → Prop) : Prop :=
  ∃ l : List (Fragment × Code), l.map Prod.fst = fs ∧ Emitted d.states d'.signals.size d' l ∧
    (∀ p ∈ l, ∀ a ∈ p.2.actions, d'.Writable a.target) ∧ ∀ v, ConstantsHold d'.signals v → R v (execAll l v)

/-- A signal that cannot be written has the same value after code that writes what it may. -/
theorem execAll_of_not_writable {d : Design} {l : List (Fragment × Code)}
    (hl : ∀ p ∈ l, ∀ a ∈ p.2.actions, d.Writable a.target) {s : SignalId} (hs : ¬ d.Writable s) (v : Valuation) :
    execAll l v s = v s := by
  induction l generalizing v with
  | nil => rfl
  | cons p l ih =>
    have hfirst : ∀ a ∈ p.2.actions, a.target ≠ s := fun a ha he => hs (he ▸ hl p (by simp) a ha)
    exact (ih (fun q hq => hl q (by simp [hq])) _).trans (Code.exec_of_not_target hfirst)

theorem ConstantsHold.execAll {d : Design} {l : List (Fragment × Code)}
    (hl : ∀ p ∈ l, ∀ a ∈ p.2.actions, d.Writable a.target) {v : Valuation} (hv : ConstantsHold d.signals v) :
    ConstantsHold d.signals (execAll l v) := by
  intro s info hs hc
  rw [execAll_of_not_writable hl (not_writable_of_constant hs hc), hv s info hs hc]

namespace Realizes

variable {d d₁ d' : Design} {fs : List Fragment} {f : Fragment} {R S : Valuation → Valuation → Prop}

theorem nil (d : Design) : Realizes d d [] fun v w => w = v :=
  ⟨[], rfl, .start d, by simp, fun _ _ => rfl⟩

theorem of_emitted {n : Nat} {c : Code} (hd' : Sound d') (h : Emitted d.states n d' [(f, c)])
    (hR : ∀ v, ConstantsHold d'.signals v → R v (c.exec v)) : Realizes d d' [f] R := by
  refine ⟨[(f, c)], rfl, h.signals ▸ h, fun p hp a ha => ?_, hR⟩
  rw [List.mem_singleton.mp hp] at ha
  obtain ⟨i, n, hn, ha⟩ := h.code.mem_table ha
  exact (hd'.wellFormed i n hn).writes a ha

theorem mono (h : Realizes d d' fs R) (hRS : ∀ v w, ConstantsHold d'.signals v → R v w → S v w) :
    Realizes d d' fs S := by
  obtain ⟨l, hfs, hl, hw, hR⟩ := h
  exact ⟨l, hfs, hl, hw, fun v hv => hRS v _ hv (hR v hv)⟩

/-- What cannot be written keeps its value. -/
theorem keeps (h : Realizes d d' fs R) :
    Realizes d d' fs fun v w => R v w ∧ ∀ s, ¬ d'.Writable s → w s = v s := by
  obtain ⟨l, hfs, hl, hw, hR⟩ := h
  exact ⟨l, hfs, hl, hw, fun v hv => ⟨hR v hv, fun _ hs => execAll_of_not_writable hw hs v⟩⟩

/-- Construction that adds no states keeps a contract. -/
theorem extend (h : Realizes d d₁ fs R) (he : Edits d₁ d') (hstates : d'.states = d₁.states) :
    Realizes d d' fs R := by
  obtain ⟨l, hfs, hl, hw, hR⟩ := h
  exact ⟨l, hfs, hl.of_states hstates rfl, fun p hp a ha => he.writable (hw p hp a ha),
    fun v hv => hR v (he.constantsHold hv)⟩

/-- So does construction that added no states and came before. -/
theorem after (hstates : d₁.states = d.states) (h : Realizes d₁ d' fs R) : Realizes d d' fs R := by
  rw [Realizes, hstates] at h
  exact h

theorem append {gs : List Fragment} (h : Realizes d d₁ fs R) (h' : Realizes d₁ d' gs S) (he : Edits d₁ d') :
    Realizes d d' (fs ++ gs) fun v w => ∃ u, ConstantsHold d'.signals u ∧ R v u ∧ S u w := by
  obtain ⟨l, rfl, hl, hw, hR⟩ := h
  obtain ⟨l', rfl, hl', hw', hS⟩ := h'
  have hwrite : ∀ p ∈ l, ∀ a ∈ p.2.actions, d'.Writable a.target := fun p hp a ha => he.writable (hw p hp a ha)
  refine ⟨l ++ l', by simp, hl.append hl', fun p hp => ?_, fun v hv => ?_⟩
  · rcases List.mem_append.mp hp with hp | hp
    · exact hwrite p hp
    · exact hw' p hp
  · rw [execAll, List.foldl_append]
    exact ⟨_, hv.execAll hwrite, hR v (he.constantsHold hv), hS _ (hv.execAll hwrite)⟩

/-- Fragments that are put in sequence do together what they do in turn. -/
theorem sequence {top : Fragment} (h : Realizes d d₁ (f :: fs) R) (hs : Design.sequence (f :: fs) d₁ = .ok top d')
    (hd' : Sound d') : Realizes d d' [top] R := by
  obtain ⟨l, hfs, hl, -, hR⟩ := h
  cases l with
  | nil => cases hfs
  | cons p l =>
    obtain ⟨g, c⟩ := p
    rw [List.map_cons, List.cons.injEq] at hfs
    obtain ⟨rfl, rfl⟩ := hfs
    have hemitted := hl.sequence hs
    have hsignals : d'.signals = d₁.signals := (foldlM_chain_top hs).2
    refine of_emitted hd' hemitted fun v hv => ?_
    have := hR v (hsignals ▸ hv)
    rw [Code.exec_foldl_andThen, List.foldl_map]
    exact this

theorem exists_sequence (h : Realizes d d₁ (f :: fs) R) :
    ∃ top d', Design.sequence (f :: fs) d₁ = .ok top d' := by
  obtain ⟨l, hfs, hl, -⟩ := h
  cases l with
  | nil => cases hfs
  | cons p l =>
    rw [List.map_cons, List.cons.injEq] at hfs
    obtain ⟨rfl, rfl⟩ := hfs
    obtain ⟨top, d', hs, -⟩ := hl.foldlM_chain
    exact ⟨top, d', hs⟩

theorem chain {g top : Fragment} (h : Realizes d d₁ [f, g] R) (hs : Design.chain f g d₁ = .ok top d')
    (hd' : Sound d') : Realizes d d' [top] R :=
  h.sequence (bind_eq_ok.mpr ⟨top, d', hs, rfl⟩) hd'

/-- A machine that may take as many steps as there are states runs through a fragment and does what
its contract says. -/
theorem run {top : Fragment} (h : Realizes d d' [top] R) (hd' : Sound d') {v : Array Bool}
    (hsize : v.size = d'.signals.size) (hv : ConstantsHold d'.signals (.ofArray v)) {limit : Nat}
    (hlimit : d'.states.size ≤ limit) :
    ∃ k m, Machine.run (.load (d'.program top) ⟨limit⟩ v) = .ok k m ∧ R (.ofArray v) m.valuation := by
  obtain ⟨l, hfs, hl, -, hR⟩ := h
  obtain ⟨⟨_, c⟩, rfl, rfl⟩ := List.map_eq_singleton_iff.mp hfs
  obtain ⟨path, w, n, hwalk, hn, hexec, hlength, hbefore⟩ := hl.code.walk hd'.wellFormed hsize
  have htop := hl.fragment
  have hstates : d'.states.size = d.states.size + (c.size + 0) := hl.size
  dsimp only at htop ⊢
  subst htop
  obtain ⟨m, hrun, -, hvalues⟩ := run_of_walk (p := d'.program (c.fragment d.states.size)) hwalk
    (fun hmem => Nat.lt_irrefl _ (hbefore _ hmem)) (show path.length ≤ limit by omega)
  refine ⟨_, m, hrun, ?_⟩
  rw [Program.actions_eq hn] at hvalues
  rw [Machine.valuation, hvalues, hexec]
  exact hR _ hv

end Realizes

end SignalGraph
