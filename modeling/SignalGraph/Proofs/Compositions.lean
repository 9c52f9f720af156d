/-
Blocks in sequence, in any order.

The fragments of a design of blocks share no states and cover the table, and each is a
stretch that control goes through forward (`Tiled`). None of this depends on the order of the
fragments. Putting them in sequence keeps it and links each exit to the next entry
(`Tiled.sequence`), so every state is on a path from the first entry
(`Tiled.violations_nil`), and from all values control goes through the fragments in turn and
enters no state twice (`Tiled.completes`).
-/
import SignalGraph.Proofs.Assembly
import SignalGraph.Proofs.Iteration

namespace SignalGraph

open Design Block

/-- The table is made of the fragments: stretches that share no states. -/
structure Tiled (t : Array StateNode) (fs : List Fragment) : Prop where
  stretches : ∀ f ∈ fs, f.Stretch t
  apart : fs.Pairwise fun f g => f.states.Disjoint g.states
  covered : ∀ q : StateId, q.index < t.size → ∃ f ∈ fs, q ∈ f.states

theorem Tiled.perm {t : Array StateNode} {fs gs : List Fragment} (h : Tiled t fs) (hperm : gs.Perm fs) :
    Tiled t gs := by
  refine ⟨fun f hf => h.stretches f (hperm.mem_iff.mp hf), ?_, fun q hq => ?_⟩
  · exact (hperm.pairwise_iff fun hdisj => hdisj.symm).mpr h.apart
  · obtain ⟨f, hf, hmem⟩ := h.covered q hq
    exact ⟨f, hperm.mem_iff.mpr hf, hmem⟩

/-! ## The table of a composition -/

/-- A row of live codes is tiled by their fragments, from its first position on. -/
theorem RowAt.tiles {t : Array StateNode} : ∀ {l : List (Fragment × Code)} {lo : Nat}, RowAt t lo l →
    (∀ p ∈ l, p.2.Live) →
    (∀ f ∈ l.map Prod.fst, f.Stretch t ∧ f.Open t ∧ ∀ q ∈ f.states, lo ≤ q.index) ∧
      (l.map Prod.fst).Pairwise (fun f g => f.states.Disjoint g.states) ∧
      ∀ q : StateId, lo ≤ q.index → q.index < lo + rowSize l → ∃ f ∈ l.map Prod.fst, q ∈ f.states
  | [], lo, _, _ => by
    refine ⟨by simp, by simp, fun q hlo hhi => ?_⟩
    rw [rowSize_nil] at hhi
    omega
  | (f, c) :: l, lo, ⟨hf, hc, hl⟩, hlive => by
    subst hf
    obtain ⟨hrest, hapart, hcover⟩ := tiles hl fun p hp => hlive p (by simp [hp])
    have hmem : ∀ q, q ∈ (c.fragment lo).states ↔ lo ≤ q.index ∧ q.index < lo + c.size := fun q => mem_stateRange
    rw [List.map_cons]
    refine ⟨List.forall_mem_cons.mpr ⟨⟨hc.stretch (hlive (c.fragment lo, c) (by simp)), hc.isOpen, fun q hq => ?_⟩, ?_⟩,
      List.pairwise_cons.mpr ⟨?_, hapart⟩, ?_⟩
    · exact ((hmem q).mp hq).1
    · intro g hg
      obtain ⟨hstretch, hopen, hafter⟩ := hrest g hg
      exact ⟨hstretch, hopen, fun q hq => Nat.le_trans (Nat.le_add_right lo c.size) (hafter q hq)⟩
    · intro g hg q hq hq'
      exact absurd ((hmem q).mp hq).2 (Nat.not_lt.mpr ((hrest g hg).2.2 q hq'))
    · intro q hlo hhi
      rw [rowSize_cons] at hhi
      by_cases hq : q.index < lo + c.size
      · exact ⟨c.fragment lo, List.mem_cons_self, (hmem q).mpr ⟨hlo, hq⟩⟩
      · obtain ⟨g, hg, hqg⟩ := hcover q (by omega) (by omega)
        exact ⟨g, List.mem_cons_of_mem _ hg, hqg⟩

theorem Composed.tiled {settings : DesignSettings} {d : Design} {fs : List Fragment} (h : Composed settings d fs) :
    Tiled d.states fs ∧ ∀ f ∈ fs, f.Open d.states := by
  obtain ⟨l, rfl, hlive, hl⟩ := h.lays
  obtain ⟨hfragments, hapart, hcover⟩ := hl.row.tiles hlive
  refine ⟨⟨fun f hf => (hfragments f hf).1, hapart, fun q hq => hcover q (Nat.zero_le _) ?_⟩,
    fun f hf => (hfragments f hf).2.1⟩
  rwa [← hl.size]

namespace Tiled

variable {d d' : Design} {f top : Fragment} {rest : List Fragment}

/-- Fragments with open exits can be put in sequence, in the order in which they are listed. -/
theorem exists_sequence (h : Tiled d.states (f :: rest)) (hopen : ∀ g ∈ f :: rest, g.Open d.states) :
    ∃ top d', rest.foldlM chain f d = .ok top d' := by
  refine foldlM_chain_exists (fun g hg => ?_) (fun g hg => ?_) (h.apart.imp_of_mem ?_)
  · have hg := h.stretches g (List.mem_cons_of_mem _ hg)
    exact Nat.lt_of_le_of_lt hg.le hg.lt_size
  · obtain ⟨n, hn, -, hdefault⟩ := hopen g hg
    exact ⟨n, hn, hdefault⟩
  · intro a b ha hb hdisj he
    have ha := h.stretches a ha
    have hb := h.stretches b hb
    exact hdisj ha.exit_mem (hb.mem_states.mpr ⟨he ▸ hb.le, Nat.le_of_eq he⟩)

theorem sequence (h : Tiled d.states (f :: rest)) (hopen : ∀ g ∈ f :: rest, g.Open d.states)
    (hs : rest.foldlM chain f d = .ok top d') : Tiled d'.states (f :: rest) ∧ Linked d'.states f rest := by
  have hsize := foldlM_chain_size hs
  have henc : ∀ g ∈ f :: rest, d.Encloses g := fun g hg => (h.stretches g hg).encloses (hopen g hg)
  refine ⟨⟨fun g hg => ?_, h.apart, by rw [hsize]; exact h.covered⟩, foldlM_chain_linked hs fun g hg n hn => ?_⟩
  · have hstretch := h.stretches g hg
    refine ⟨hstretch.mem_states, hstretch.le, by rw [hsize]; exact hstretch.lt_size, ?_⟩
    refine hstretch.forward.congr fun i hlo hhi => ?_
    refine sequence_keeps hs henc h.apart hg (q := ⟨i⟩) (hstretch.mem_states.mpr ⟨hlo, Nat.le_of_lt hhi⟩) ?_
    intro he
    exact Nat.lt_irrefl _ (he ▸ hhi)
  · obtain ⟨n', hn', htrans, -⟩ := hopen g hg
    cases hn'.symm.trans hn
    exact htrans

end Tiled

/-! ## Reachability in a linked table -/

theorem Linked.path {p : Program} : ∀ {rest : List Fragment} {f : Fragment}, Linked p.states f rest →
    (∀ g ∈ f :: rest, g.Stretch p.states) → ∀ g ∈ f :: rest, p.Path f.entry g.entry
  | [], f, _, _, g, hg => by
    rw [List.mem_singleton.mp hg]
  | g' :: rest, f, ⟨⟨n, hn, _, hdefault⟩, hlink⟩, hstretch, g, hg => by
    rcases List.mem_cons.mp hg with rfl | hg
    · exact .refl
    · have hf := hstretch f (by simp)
      have hthrough : p.Path f.entry f.exit := hf.forward.path hf.le (Nat.le_refl _)
      have hleads : p.Leads f.exit g'.entry := by
        simp [Program.Leads, Program.successors, Program.state?, hn, StateNode.successors, hdefault]
      exact (hthrough.tail hleads).trans (path hlink (fun g hg => hstretch g (List.mem_cons_of_mem _ hg)) g hg)

/-- Every exit but the last has a default. -/
theorem Linked.exit {t : Array StateNode} : ∀ {rest : List Fragment} {f : Fragment}, Linked t f rest →
    ∀ g ∈ f :: rest, g.exit = (rest.foldl Fragment.join f).exit ∨
      ∃ n, t[g.exit.index]? = some n ∧ n.transitions = [] ∧ n.defaultTarget.isSome = true
  | [], f, _, g, hg => by
    rw [List.mem_singleton.mp hg]
    exact .inl rfl
  | g' :: rest, f, ⟨⟨n, hn, htrans, hdefault⟩, hlink⟩, g, hg => by
    rcases List.mem_cons.mp hg with rfl | hg
    · exact .inr ⟨n, hn, htrans, by rw [hdefault]; rfl⟩
    · rw [List.foldl_cons, Fragment.exit_foldl_join rest (f.join g') g' rfl]
      exact exit hlink g hg

/-- A program made of linked fragments has no defects. -/
theorem Tiled.violations_nil {p : Program} {f : Fragment} {rest : List Fragment} (h : Tiled p.states (f :: rest))
    (hlink : Linked p.states f rest) (hentry : p.entry = f.entry)
    (hexit : p.exit = (rest.foldl Fragment.join f).exit) : p.violations = [] := by
  simp only [Program.violations, List.flatMap_eq_nil_iff]
  intro x hmem
  obtain ⟨n, i⟩ := x
  have hn : p.states[i]? = some n := by simpa using List.mk_mem_zipIdx_iff_getElem?.mp hmem
  have hlt : i < p.states.size := (Array.getElem?_eq_some_iff.mp hn).1
  obtain ⟨g, hg, hq⟩ := h.covered ⟨i⟩ hlt
  have hstretch := h.stretches g hg
  obtain ⟨hlo, hhi⟩ := hstretch.mem_states.mp hq
  have hpath : p.Path p.entry ⟨i⟩ :=
    hentry ▸ (hlink.path h.stretches g hg).trans (hstretch.forward.path hlo hhi)
  have hreached : p.reachable.getD i false = true := by
    rw [Array.getD_eq_getD_getElem?, p.reachable_of_path hpath hlt, Option.getD_some]
  simp only [Program.stateViolations, hreached, if_true, List.nil_append]
  by_cases hend : (⟨i⟩ : StateId) = p.exit
  · rw [if_pos hend]
  · rw [if_neg hend]
    by_cases hbefore : (⟨i⟩ : StateId) = g.exit
    · -- The exit of a fragment that is not the last.
      rcases hlink.exit g hg with hlast | ⟨n', hn', htrans, hdefault⟩
      · exact absurd (hbefore.trans (hlast.trans hexit.symm)) hend
      · rw [← hbefore] at hn'
        cases hn'.symm.trans hn
        exact StateNode.edgeViolations_of_default hdefault (by simp [StateNode.shadowed, htrans])
    · obtain ⟨n', hn', hadv⟩ := hstretch.forward.advances i hlo (hstretch.lt_exit hq hbefore)
      cases hn'.symm.trans hn
      exact StateNode.edgeViolations_of_default hadv.default hadv.live

/-! ## Runs through a linked table -/

/-- Fragments that are stretches and share no states can be run in turn from all values, and then
no state is entered twice. -/
theorem inTurn_of_stretches {t : Array StateNode} (signals : Array SignalInfo) : ∀ {fs : List Fragment},
    (∀ f ∈ fs, f.Stretch t) → fs.Pairwise (fun f g => f.states.Disjoint g.states) → ∀ v : Array Bool,
    ∃ ks paths w, InTurn (fs.map fun g => ⟨signals, t, g.entry, g.exit⟩) v ks paths w ∧ paths.flatten.Nodup ∧
      ∀ q ∈ paths.flatten, ∃ f ∈ fs, q ∈ f.states
  | [], _, _, v => ⟨[], [], v, .nil, by simp, by simp⟩
  | f :: fs, hstretch, hapart, v => by
    rw [List.pairwise_cons] at hapart
    obtain ⟨k, path, w, hcompletes, hnodup, hin⟩ := (hstretch f (by simp)).completes signals v
    obtain ⟨ks, paths, u, hturn, hnodup', hin'⟩ :=
      inTurn_of_stretches signals (fun g hg => hstretch g (List.mem_cons_of_mem _ hg)) hapart.2 w
    refine ⟨k :: ks, path :: paths, u, .cons hcompletes hturn, ?_, ?_⟩
    · rw [List.flatten_cons]
      refine List.nodup_append'.mpr ⟨hnodup, hnodup', fun q hq hq' => ?_⟩
      obtain ⟨g, hg, hqg⟩ := hin' q hq'
      exact hapart.1 g hg (hin q hq) hqg
    · intro q hq
      rw [List.flatten_cons, List.mem_append] at hq
      rcases hq with hq | hq
      · exact ⟨f, by simp, hin q hq⟩
      · obtain ⟨g, hg, hqg⟩ := hin' q hq
        exact ⟨g, List.mem_cons_of_mem _ hg, hqg⟩

theorem Tiled.completes {p : Program} {f : Fragment} {rest : List Fragment} (h : Tiled p.states (f :: rest))
    (hlink : Linked p.states f rest) (hentry : p.entry = f.entry)
    (hexit : p.exit = (rest.foldl Fragment.join f).exit) (v : Array Bool) :
    ∃ k path w, p.Completes v k path w ∧ path.Nodup ∧ ∀ q ∈ path, q.index < p.states.size := by
  obtain ⟨ks, paths, w, hturn, hnodup, hin⟩ := inTurn_of_stretches p.signals h.stretches h.apart v
  have hcompletes := completes_of_inTurn rest f (fun g hg => (h.stretches g hg).confined) h.apart hlink hturn
  rw [← hentry, ← hexit] at hcompletes
  refine ⟨_, _, w, hcompletes, hnodup, fun q hq => ?_⟩
  obtain ⟨g, hg, hqg⟩ := hin q hq
  have hg := h.stretches g hg
  exact Nat.lt_of_le_of_lt (hg.mem_states.mp hqg).2 hg.lt_size

/-- States of a table that are all different are no more than the table has. -/
theorem length_le_of_nodup {path : List StateId} {n : Nat} (hnodup : path.Nodup) (hlt : ∀ q ∈ path, q.index < n) :
    path.length ≤ n := by
  have hindices : (path.map StateId.index).Nodup := by
    refine hnodup.map ?_
    intro q q' he
    exact congrArg StateId.mk he
  have hsub : path.map StateId.index ⊆ List.range n := by
    intro i hi
    obtain ⟨q, hq, rfl⟩ := List.mem_map.mp hi
    exact List.mem_range.mpr (hlt q hq)
  simpa using (hindices.subperm hsub).length_le

/-- A run that enters no state twice needs a limit of one less than there are states. -/
theorem Program.Completes.run_of_nodup {p : Program} {v w : Array Bool} {k : Nat} {path : List StateId}
    (h : p.Completes v k path w) (hnodup : path.Nodup) (hlt : ∀ q ∈ path, q.index < p.states.size) {limit : Nat}
    (hlimit : p.states.size - 1 ≤ limit) :
    ∃ m, Machine.run (.load p ⟨limit⟩ v) = .ok k m ∧ k ≤ p.states.size - 1 ∧ m.entered.Nodup := by
  obtain ⟨route, u, hwalk, hexit, rfl, rfl, -⟩ := completes_iff.mp h
  have hlength := length_le_of_nodup hnodup hlt
  rw [List.length_append, List.length_singleton] at hlength
  obtain ⟨m, hrun, hentered, -⟩ := run_of_walk hwalk hexit (show route.length ≤ limit by omega)
  exact ⟨m, hrun, by omega, hentered ▸ hnodup⟩

/-! ## Compositions -/

/-- The fragments of a composition can be put in sequence in any order, and the result is a program
made of linked fragments. -/
theorem Composed.sequence {settings : DesignSettings} {d : Design} {fs rest : List Fragment} {f : Fragment}
    (h : Composed settings d fs) (hperm : (f :: rest).Perm fs) :
    ∃ d', Design.sequence (f :: rest) d = .ok (rest.foldl Fragment.join f) d' ∧ Tiled d'.states (f :: rest) ∧
      Linked d'.states f rest := by
  obtain ⟨htiled, hopen⟩ := h.tiled
  have htiled := htiled.perm hperm
  have hopen : ∀ g ∈ f :: rest, g.Open d.states := fun g hg => hopen g (hperm.mem_iff.mp hg)
  obtain ⟨top, d', hs⟩ := htiled.exists_sequence hopen
  obtain ⟨rfl, -⟩ := foldlM_chain_top hs
  exact ⟨d', hs, htiled.sequence hopen hs⟩

/-- A program made of linked fragments is handed out, with the check or without it. -/
theorem Tiled.finish {d : Design} {f : Fragment} {rest : List Fragment} (h : Tiled d.states (f :: rest))
    (hlink : Linked d.states f rest) :
    (d.program (rest.foldl Fragment.join f)).violations = [] ∧
      d.finish (rest.foldl Fragment.join f) = .ok (d.program (rest.foldl Fragment.join f)) := by
  have hentry := Fragment.entry_foldl_join rest f
  have hviolations : (d.program (rest.foldl Fragment.join f)).violations = [] := h.violations_nil hlink hentry rfl
  have hfirst := h.stretches f (by simp)
  obtain ⟨last, hlast, hexit⟩ := Fragment.exit_foldl_join_mem rest f
  refine ⟨hviolations, finish_eq_ok.mpr ⟨rfl, ?_, ?_, fun _ => hviolations⟩⟩
  · rw [hentry]
    exact Nat.lt_of_le_of_lt hfirst.le hfirst.lt_size
  · rw [hexit]
    exact (h.stretches last hlast).lt_size

/-- **Every composition of blocks passes the check.** Blocks that could be built, on any operands, can
be put in sequence in any order. The program has no defects, and it is handed out. -/
theorem composed_passes_check {settings : DesignSettings} {d : Design} {fs gs : List Fragment}
    (h : Composed settings d fs) (hne : fs ≠ []) (hperm : gs.Perm fs) :
    ∃ top d', Design.sequence gs d = .ok top d' ∧ (d'.program top).violations = [] ∧
      d'.finish top = .ok (d'.program top) := by
  cases gs with
  | nil => exact absurd hperm.nil_eq.symm hne
  | cons f rest =>
    obtain ⟨d', hs, htiled, hlink⟩ := h.sequence hperm
    exact ⟨_, d', hs, htiled.finish hlink⟩

/-- A register that repeats a signal. -/
def doubledBit : Register := ⟨"aa", [⟨0⟩, ⟨0⟩]⟩

def halfAdderOfOne : Design := after (halfAdder ⟨0⟩ ⟨0⟩) (after (Call.createSignal "a").perform (.new {}))

/-- Two adders, all operands of which are one signal. -/
def addersOfOne : Design := after (add doubledBit doubledBit (some ⟨0⟩)) halfAdderOfOne

def adderFragments : List Fragment := [⟨⟨0⟩, ⟨2⟩, stateRange 0 3⟩, ⟨⟨3⟩, ⟨25⟩, stateRange 3 23⟩]

theorem composed_addersOfOne : Composed {} addersOfOne adderFragments := by
  obtain ⟨cell, hcell, hfirst⟩ := eq_ok_of_result? (x := halfAdder ⟨0⟩ ⟨0⟩)
    (s := after (Call.createSignal "a").perform (.new {})) (f := AdderCell.fragment)
    (b := ⟨⟨0⟩, ⟨2⟩, stateRange 0 3⟩) (by decide +kernel)
  obtain ⟨adder, hadder, hsecond⟩ := eq_ok_of_result? (x := add doubledBit doubledBit (some ⟨0⟩))
    (s := halfAdderOfOne) (f := RippleAdder.fragment) (b := ⟨⟨3⟩, ⟨25⟩, stateRange 3 23⟩) (by decide +kernel)
  have hdeclared : Composed {} (after (Call.createSignal "a").perform (.new {})) [] := .declare .new rfl
  have hbuilt := (hdeclared.build (.halfAdder hcell)).build (.add hadder)
  rw [hfirst, hsecond] at hbuilt
  exact hbuilt

/-- The adders in the order in which they were not built. -/
theorem addersOfOne_pass_check :
    ∃ top d', Design.sequence adderFragments.reverse addersOfOne = .ok top d' ∧
      (d'.program top).violations = [] ∧ d'.finish top = .ok (d'.program top) :=
  composed_passes_check composed_addersOfOne (by simp [adderFragments]) (List.reverse_perm _)

/-- **Every composition of blocks halts.** With a limit of one less than there are states, a run from
any values ends at the exit within the limit, and it enters no state twice. -/
theorem composed_halts {settings : DesignSettings} {d : Design} {fs gs : List Fragment}
    (h : Composed settings d fs) (hne : fs ≠ []) (hperm : gs.Perm fs) :
    ∃ top d' p, Design.sequence gs d = .ok top d' ∧ d'.finish top = .ok p ∧
      ∀ (v : Array Bool) (limit : Nat), p.states.size - 1 ≤ limit →
        ∃ k m, Machine.run (.load p ⟨limit⟩ v) = .ok k m ∧ m.isHalted = true ∧ k ≤ p.states.size - 1 ∧
          m.entered.Nodup := by
  cases gs with
  | nil => exact absurd hperm.nil_eq.symm hne
  | cons f rest =>
    obtain ⟨d', hs, htiled, hlink⟩ := h.sequence hperm
    refine ⟨_, d', _, hs, (htiled.finish hlink).2, fun v limit hlimit => ?_⟩
    obtain ⟨k, path, w, hcompletes, hnodup, hlt⟩ := Tiled.completes
      (p := d'.program (rest.foldl Fragment.join f)) htiled hlink (Fragment.entry_foldl_join rest f) rfl v
    obtain ⟨m, hrun, hk, hentered⟩ := hcompletes.run_of_nodup hnodup hlt hlimit
    exact ⟨k, m, hrun, Machine.isHalted_of_run hrun, hk, hentered⟩

theorem addersOfOne_halt :
    ∃ top d' p, Design.sequence adderFragments.reverse addersOfOne = .ok top d' ∧ d'.finish top = .ok p ∧
      ∃ k m, Machine.run (.load p ⟨25⟩ (p.signals.map fun _ => true)) = .ok k m ∧ m.isHalted = true ∧ k ≤ 25 ∧
        m.entered.Nodup := by
  obtain ⟨top, d', p, hs, hp, hrun⟩ :=
    composed_halts composed_addersOfOne (by simp [adderFragments]) (List.reverse_perm _)
  have hsize : p.states.size = 26 := by
    obtain ⟨rfl, -⟩ := finish_eq_ok.mp hp
    exact (foldlM_chain_size hs).trans (by decide +kernel)
  rw [hsize] at hrun
  exact ⟨top, d', p, hs, hp, hrun _ 25 (Nat.le_refl _)⟩

end SignalGraph
