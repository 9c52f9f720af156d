/-
Adders of one bit, wherever they stand.

A half adder and a full adder say what their outputs are for every value that signals may have, stale
outputs and even constants included, so nothing is asked of the values that a run starts from. Their inputs
may be the same signal. How long a run may be is read off the code: each step takes one transition if it
only leads on, and at most two if it has arms (`Code.longest`).
-/
import SignalGraph.Proofs.Exactness

namespace SignalGraph

/-! ## The longest run of code -/

/-- The most transitions that a step takes. -/
def Step.longest (s : Step) : Nat := min s.size 2

theorem Step.length_route_le_longest (s : Step) (lo j : Nat) : (s.route lo j).length ≤ s.longest := by
  unfold route longest size
  by_cases hj : j < s.bodies.length
  · rw [if_pos hj, List.length_cons, List.length_singleton]
    omega
  · rw [if_neg hj, List.length_singleton]
    omega

namespace Code

/-- The most transitions that some code takes. -/
def longest (c : Code) : Nat := (c.steps.map Step.longest).sum

@[simp] theorem longest_single (actions : List Action) : (single actions).longest = 0 := rfl

@[simp] theorem longest_act (c : Code) (a : Action) : (c.act a).longest = c.longest := rfl

@[simp] theorem longest_andThen (c e : Code) : (c.andThen e).longest = c.longest + 1 + e.longest := by
  simp [longest, andThen, Step.longest, Step.size, Step.bodies, Nat.add_assoc]

@[simp] theorem longest_branch (c : Code) (guard : Guard) (actions : List Action) :
    (c.branch guard actions).longest = c.longest + 2 := by
  simp [longest, branch, Step.longest, Step.size, Step.bodies]

end Code

namespace Design

/-! ## Fragments in their surroundings -/

/-- From all values a machine takes at most `n` transitions through the fragment, and if it is allowed as many
as it takes, it halts at the exit with values as `R` says. -/
def RunsWithin (d : Design) (f : Fragment) (n : Nat) (R : Valuation → Valuation → Prop) : Prop :=
  ∀ v : Array Bool, v.size = d.signals.size → ∃ k ≤ n, ∀ limit, k ≤ limit →
    ∃ m, Machine.run (.load (d.program f) ⟨limit⟩ v) = .ok k m ∧ m.isHalted = true ∧ R (.ofArray v) m.valuation

/-- The operations that lead from one design to the other leave the fragment as it was, apart from edges that
lead on from its exit. -/
structure Hosts (f : Fragment) (d d' : Design) : Prop where
  calls : ∃ calls, performAll calls d = d'
  inner : ∀ q ∈ f.states, q ≠ f.exit → d'.state? q = d.state? q
  exit : ∀ n, d.state? f.exit = some n → ∃ n', d'.state? f.exit = some n' ∧ n'.actions = n.actions

theorem Hosts.edits {f : Fragment} {d d' : Design} (h : Hosts f d d') : Edits d d' := by
  obtain ⟨calls, rfl⟩ := h.calls
  exact performAll_edits calls d

/-- A fragment with code of its own does what its code does, whatever has been built around it. -/
theorem Hosts.runsWithin {f : Fragment} {d d' : Design} {t : Array StateNode} {n : Nat} {c : Code}
    {R : Valuation → Valuation → Prop} (hhosts : Hosts f d d') (hd : Sound d) (hc : Emitted t n d [(f, c)])
    (hR : ∀ v, R v (c.exec v)) : d'.RunsWithin f c.longest R := by
  intro v hv
  have hholds : f.Holds c d'.states := hc.holds.congr hhosts.inner hhosts.exit
  obtain ⟨w, hcompletes, -, hexec⟩ := hholds.completes (hhosts.edits.sound hd).wellFormed hv
  have hlength : (route f.entry.index c.steps (c.choices (.ofArray v))).length ≤ c.longest :=
    length_route_le_sum Step.length_route_le_longest c.steps _ _
  refine ⟨_, hlength, fun limit hlimit => ?_⟩
  obtain ⟨m, hrun, hvalues⟩ := hcompletes.run_within hlimit
  refine ⟨m, hrun, Machine.isHalted_of_run hrun, ?_⟩
  rw [Machine.valuation, hvalues, hexec]
  exact hR _

end Design

namespace Block

open Design

variable {d d' : Design}

/-! ## Adders -/

theorem longest_halfAdderCode (a b sum carry : SignalId) : (halfAdderCode a b sum carry).longest = 2 := by
  unfold halfAdderCode
  by_cases hab : a = b
  · rw [if_pos hab, Code.longest_branch, Code.longest_single]
  · rw [if_neg hab]
    rfl

theorem longest_fullAdderCode (n : Nat) (a b carryIn : SignalId) : (fullAdderCode n a b carryIn).longest = 8 := by
  simp [fullAdderCode, longest_halfAdderCode]

/-- **Adders of one bit are exact.** Take a design that operations can lead to, and inputs that exist in it, be
they the same or constant. However the design goes on, if it leaves the states of the adder alone, apart from
edges that lead on from its exit, then from all values of all signals the half adder halts after at most 2
transitions with the exclusive or and the conjunction of its inputs, and the full adder after at most 8 with the
exclusive or and the majority of its three. No signal that there was before the adder changes. Adders are built
wherever names are plain. -/
theorem adders_exact (hd : d.Reachable) :
    (∀ a b, d.Knows [a, b] →
      (d.PlainlyReachable → ∃ cell d', halfAdder a b d = .ok cell d') ∧
      ∀ cell d', halfAdder a b d = .ok cell d' → ∀ d'', Hosts cell.fragment d' d'' →
        d''.RunsWithin cell.fragment 2 fun v w =>
          w cell.sum = (v a ^^ v b) ∧ w cell.carry = (v a && v b) ∧ ∀ s ∈ d.known, w s = v s) ∧
    ∀ a b c, d.Knows [a, b, c] →
      (d.PlainlyReachable → ∃ cell d', fullAdder a b c d = .ok cell d') ∧
      ∀ cell d', fullAdder a b c d = .ok cell d' → ∀ d'', Hosts cell.fragment d' d'' →
        d''.RunsWithin cell.fragment 8 fun v w =>
          w cell.sum = (v a ^^ v b ^^ v c) ∧ w cell.carry = (v a && v b || v a && v c || v b && v c) ∧
            ∀ s ∈ d.known, w s = v s := by
  refine ⟨fun a b hknows => ⟨fun hplain => ?_, fun cell d' h d'' hhosts => ?_⟩,
    fun a b c hknows => ⟨fun hplain => ?_, fun cell d' h d'' hhosts => ?_⟩⟩
  · obtain ⟨d', h⟩ := hplain.exists_perform (c := .halfAdder a b) rfl hknows trivial
    obtain ⟨cell, h⟩ := discard_eq_ok.mp h
    exact ⟨cell, d', h⟩
  · obtain ⟨hemitted, hsum, hcarry⟩ := halfAdder_emitted h
    have hd' : Sound d' := ((halfAdder_makes a b).edits h).sound hd.sound
    rw [← longest_halfAdderCode a b ⟨d.signals.size⟩ ⟨d.signals.size + 1⟩]
    refine hhosts.runsWithin hd' hemitted fun v => ?_
    obtain ⟨hxor, hand, hkept⟩ := halfAdderCode_outputs (hknows a (by simp)) (hknows b (by simp)) v
    rw [hsum, hcarry]
    exact ⟨hxor, hand, fun s hs => hkept s hs (by simp)⟩
  · obtain ⟨d', h⟩ := hplain.exists_perform (c := .fullAdder a b c) rfl hknows trivial
    obtain ⟨cell, h⟩ := discard_eq_ok.mp h
    exact ⟨cell, d', h⟩
  · obtain ⟨hemitted, hsum, hcarry⟩ := fullAdder_emitted h
    have hd' : Sound d' := ((fullAdder_makes a b c).edits h).sound hd.sound
    rw [← longest_fullAdderCode d.signals.size a b c]
    refine hhosts.runsWithin hd' hemitted fun v => ?_
    obtain ⟨hxor, hmajority, hkept⟩ :=
      fullAdderCode_outputs (hknows a (by simp)) (hknows b (by simp)) (hknows c (by simp)) v
    rw [hsum, hcarry]
    exact ⟨hxor, hmajority, fun s hs => hkept s hs (by simp)⟩

/-- An adder of a signal, the same signal and a constant. -/
def repeatedInput : Design := after (fullAdder ⟨0⟩ ⟨0⟩ ⟨1⟩) signalAndOne

def repeatedInputCell : Fragment := ⟨⟨0⟩, ⟨9⟩, stateRange 0 10⟩

/-- The adder leads on to a load that clears the signal. -/
def repeatedThenCleared : Design :=
  performAll [.loadSignal ⟨0⟩ false, .sequence [repeatedInputCell, .single ⟨10⟩]] repeatedInput

theorem repeatedInput_adders_exact : ∃ cell, fullAdder ⟨0⟩ ⟨0⟩ ⟨1⟩ signalAndOne = .ok cell repeatedInput ∧
    repeatedThenCleared.state? cell.fragment.exit ≠ repeatedInput.state? cell.fragment.exit ∧
    ∃ k m, Machine.run (.load (repeatedThenCleared.program cell.fragment) ⟨8⟩ (.replicate 9 true)) = .ok k m ∧ k ≤ 8 ∧
      m.isHalted = true ∧ m.valuation cell.sum = true ∧ m.valuation cell.carry = true ∧ m.valuation ⟨0⟩ = true := by
  obtain ⟨cell, h, hcell⟩ := eq_ok_of_result? (x := fullAdder ⟨0⟩ ⟨0⟩ ⟨1⟩) (s := signalAndOne)
    (f := AdderCell.fragment) (b := repeatedInputCell) (by decide +kernel)
  have hhosts : Hosts cell.fragment repeatedInput repeatedThenCleared := by
    rw [hcell]
    exact ⟨⟨_, rfl⟩, by decide +kernel, by decide +kernel⟩
  obtain ⟨-, hfull⟩ := adders_exact (d := signalAndOne) ⟨{}, _, rfl⟩
  obtain ⟨k, hk, hruns⟩ := (hfull ⟨0⟩ ⟨0⟩ ⟨1⟩ (by decide +kernel)).2 cell _ h _ hhosts (.replicate 9 true)
    (by decide +kernel)
  obtain ⟨m, hrun, hhalted, hsum, hcarry, hkept⟩ := hruns 8 hk
  refine ⟨cell, h, ?_, k, m, hrun, hk, hhalted, hsum, hcarry, hkept ⟨0⟩ (by decide +kernel)⟩
  rw [hcell]
  decide +kernel

end Block

end SignalGraph
