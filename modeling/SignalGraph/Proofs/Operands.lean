/-
What a block that was built says about its operands.

An operand is looked up when an edge or an action names it. The tables are well-formed, so what
the code of a block tests is in the table that the block leaves; and where a block makes no signals
of its own, what its actions read and write was in the table before.
-/
import SignalGraph.Proofs.Acceptance
import SignalGraph.Proofs.Copying

namespace SignalGraph

open Design Block

/-! ## What code tests -/

namespace Code

/-- The code asks for the value of the signal. -/
def Tests (c : Code) (s : SignalId) : Prop := ∃ step ∈ c.steps, ∃ arm ∈ step.arms, ∃ g ∈ arm.guards, s ∈ g.signals

variable {c e : Code} {s : SignalId}

@[simp] theorem tests_act {a : Action} : (c.act a).Tests s ↔ c.Tests s := Iff.rfl

@[simp] theorem tests_andThen : (c.andThen e).Tests s ↔ c.Tests s ∨ e.Tests s := by
  simp [Tests, andThen, or_and_right, exists_or]

@[simp] theorem tests_branch {guard : Guard} {actions : List Action} :
    (c.branch guard actions).Tests s ↔ c.Tests s ∨ s ∈ guard.signals := by
  simp [Tests, branch, or_and_right, exists_or]

/-- What code in a table tests is in the table of signals. -/
theorem At.tests_lt {signals : Array SignalInfo} {t : Array StateNode} {lo : Nat} (hwf : WellFormed signals t)
    (h : c.At t lo) (hs : c.Tests s) : s.index < signals.size := by
  obtain ⟨step, hstep, arm, harm, g, hg, hs⟩ := hs
  obtain ⟨k, hk⟩ := h.steps.mem_table hstep
  obtain ⟨n, hn, -, hedges, -⟩ := hk.first
  have hguard : g ∈ n.transitions.map Transition.guard := by
    have := congrArg (List.map Prod.fst) hedges
    rw [Step.map_fst_edges, List.map_map] at this
    exact this ▸ List.mem_flatMap.mpr ⟨arm, harm, hg⟩
  obtain ⟨e, he, rfl⟩ := List.mem_map.mp hguard
  obtain ⟨c, hc, test, htest, rfl⟩ := Guard.mem_signals.mp hs
  exact (hwf k n hn).tests e he c hc test htest

end Code

namespace Block

theorem halfAdderCode_tests (a b sum carry : SignalId) :
    (halfAdderCode a b sum carry).Tests a ∧ (halfAdderCode a b sum carry).Tests b := by
  by_cases hab : a = b
  · simp [halfAdderCode, hab, Guard.mem_signals, Guard.when, Guard.all]
  · simp [halfAdderCode, hab, Code.Tests, halfAdderStep, Guard.mem_signals, Guard.all]

theorem fullAdderCode_tests (n : Nat) (a b carryIn : SignalId) : (fullAdderCode n a b carryIn).Tests a ∧
    (fullAdderCode n a b carryIn).Tests b ∧ (fullAdderCode n a b carryIn).Tests carryIn := by
  simp [fullAdderCode, halfAdderCode_tests]

/-- A row of full adders tests the bits that it adds and what is carried in. -/
theorem rippleCode_tests {s : SignalId} : ∀ {bits : List BitSlice} {c : Code} (n : Nat) {carryIn : SignalId},
    c.Tests s ∨ (∃ bit ∈ bits, s = bit.a ∨ s = bit.b) ∨ (bits ≠ [] ∧ s = carryIn) →
    (rippleCode c n carryIn bits).Tests s
  | [], _, _, _, h => by simpa [rippleCode] using h
  | bit :: rest, c, n, carryIn, h => by
    obtain ⟨ha, hb, hc⟩ := fullAdderCode_tests n bit.a bit.b carryIn
    refine rippleCode_tests (n + 6) ?_
    simp only [Code.tests_andThen, Code.tests_act]
    rcases h with h | ⟨other, hother, h⟩ | ⟨-, rfl⟩
    · exact .inl (.inl h)
    · rcases List.mem_cons.mp hother with rfl | hother
      · rcases h with rfl | rfl
        · exact .inl (.inr ha)
        · exact .inl (.inr hb)
      · exact .inr (.inl ⟨other, hother, h⟩)
    · exact .inl (.inr hc)

theorem addCode_tests {a b sum : Register} (hab : a.width = b.width) (hsum : sum.width = a.width) (hpos : 0 < a.width)
    (n : Nat) {carryIn s : SignalId} (hs : s ∈ a.bits ++ b.bits ++ [carryIn]) :
    (addCode n a b sum carryIn).Tests s := by
  obtain ⟨hmapa, hmapb, -⟩ := map_bitSlices hab hsum.symm
  have hne : bitSlices a b sum ≠ [] := fun h => by
    have := congrArg List.length hmapa
    rw [bitSlices] at h
    rw [h] at this
    exact absurd hpos (by simpa [Register.width] using this.symm)
  rw [addCode, Code.tests_branch]
  refine .inl (rippleCode_tests _ (.inr ?_))
  rcases List.mem_append.mp hs with hs | hs
  · rcases List.mem_append.mp hs with hs | hs
    · rw [← hmapa] at hs
      obtain ⟨bit, hbit, rfl⟩ := List.mem_map.mp hs
      exact .inl ⟨bit, hbit, .inl rfl⟩
    · rw [← hmapb] at hs
      obtain ⟨bit, hbit, rfl⟩ := List.mem_map.mp hs
      exact .inl ⟨bit, hbit, .inr rfl⟩
  · exact .inr ⟨hne, List.mem_singleton.mp hs⟩

end Block

/-! ## What a block that was built says about its operands -/

section

variable {d d' : Design}

theorem Emitted.tests_known {t : Array StateNode} {n : Nat} {f : Fragment} {c : Code} (hd' : Sound d')
    (h : Emitted t n d' [(f, c)]) {s : SignalId} (hs : c.Tests s) : s.index < d'.signals.size :=
  h.code.tests_lt hd'.wellFormed hs

theorem Design.Edits.writable_of_lt (he : Edits d d') {s : SignalId} (hs : s.index < d.signals.size)
    (hw : d'.Writable s) : d.Writable s := by
  obtain ⟨info, hinfo, hc⟩ := hw
  have hold : d.signal? s = some d.signals[s.index] := Array.getElem?_eq_getElem hs
  cases hinfo.symm.trans (he.signal? hold)
  exact ⟨_, hold, hc⟩

theorem Design.Edits.not_fixed (he : Edits d d') {s : SignalId} (hw : d'.Writable s) : s ∉ d.fixed := by
  rintro ⟨info, hinfo, hc⟩
  exact not_writable_of_constant (he.signal? hinfo) hc hw

/-- The actions of code for which no signals were made are about signals that there were. -/
theorem Emitted.actions_grounded {f : Fragment} {c : Code} (hd : Sound d) (he : Edits d d')
    (h : Emitted d.states d.signals.size d' [(f, c)]) {a : Action} (ha : a ∈ c.actions) :
    d.Writable a.target ∧ d.Knows a.reads := by
  obtain ⟨i, n, hn, ha⟩ := h.code.mem_table ha
  have hgrounded := (he.sound hd).wellFormed i n hn
  have hw : d'.Writable a.target := hgrounded.writes a ha
  exact ⟨he.writable_of_lt (h.signals ▸ hw.lt) hw, fun s hs => h.signals ▸ hgrounded.reads a ha s hs⟩

namespace Block

theorem halfAdder_knows {a b : SignalId} {cell : AdderCell} (hd : Sound d) (h : halfAdder a b d = .ok cell d') :
    d'.Knows [a, b] := by
  have hd' := ((halfAdder_makes a b).edits h).sound hd
  have hemitted := (halfAdder_emitted h).1
  obtain ⟨ha, hb⟩ := halfAdderCode_tests a b ⟨d.signals.size⟩ ⟨d.signals.size + 1⟩
  simp [hemitted.tests_known hd' ha, hemitted.tests_known hd' hb]

theorem fullAdder_knows {a b carryIn : SignalId} {cell : AdderCell} (hd : Sound d)
    (h : fullAdder a b carryIn d = .ok cell d') : d'.Knows [a, b, carryIn] := by
  have hd' := ((fullAdder_makes a b carryIn).edits h).sound hd
  have hemitted := (fullAdder_emitted h).1
  obtain ⟨ha, hb, hc⟩ := fullAdderCode_tests d.signals.size a b carryIn
  simp [hemitted.tests_known hd' ha, hemitted.tests_known hd' hb, hemitted.tests_known hd' hc]

theorem add_knows {a b : Register} {carryIn : Option SignalId} {adder : RippleAdder} (hd : Sound d)
    (h : add a b carryIn d = .ok adder d') : d'.Knows (a.bits ++ b.bits ++ carryIn.toList) := by
  have hd' := ((add_makes a b carryIn).edits h).sound hd
  obtain ⟨hab, hpos, hsum, -⟩ := add_sum h
  simp only [add, bind_eq_ok, requireSameWidth_eq_ok] at h
  obtain ⟨_, _, ⟨-, rfl⟩, c, d₁, hcarryIn, h⟩ := h
  have hemitted := (addWithCarry_emitted h hab).1
  intro s hs
  refine hemitted.tests_known hd' (addCode_tests hab hsum hpos _ ?_)
  cases carryIn with
  | some s =>
    obtain ⟨rfl, -⟩ := pure_eq_ok.mp hcarryIn
    exact hs
  | none =>
    rw [Option.toList_none, List.append_nil] at hs
    exact List.mem_append_left _ hs

theorem invert_writable {a : Register} {f : Fragment} (hd : Sound d) (h : invert a d = .ok f d') :
    ∀ s ∈ a.bits, d.Writable s := by
  intro s hs
  have hmem : Action.drive s true ∈ (invertCode a.bits).actions := by
    simp [invertCode, Code.actions, Step.allActions, Step.bodies, invertStep, hs]
  exact ((invert_emitted h).actions_grounded hd ((invert_makes a).edits h) hmem).1

theorem loadSignal_writable {s : SignalId} {value : Bool} {f : Fragment} (hd : Sound d)
    (h : loadSignal s value d = .ok f d') : d.Writable s :=
  ((loadSignal_emitted h).actions_grounded hd ((loadSignal_makes s value).edits h) (a := .drive s value)
    (by simp [Code.actions, Code.single])).1

theorem loadRegister_writable {r : Register} {value : Word} {f : Fragment} (hd : Sound d)
    (h : loadRegister r value d = .ok f d') : value.fits r.width = true ∧ ∀ s ∈ r.bits, d.Writable s := by
  have hemitted := loadRegister_emitted h
  have he := (loadRegister_makes r value).edits h
  refine ⟨?_, fun s hs => ?_⟩
  · simp only [loadRegister, bind_eq_ok, requireFits_eq_ok] at h
    obtain ⟨_, _, ⟨hfits, -⟩, -⟩ := h
    exact hfits
  · rw [← List.zipIdx_map_fst 0 r.bits] at hs
    obtain ⟨p, hp, rfl⟩ := List.mem_map.mp hs
    exact (hemitted.actions_grounded hd he (a := .drive p.1 (value.bit p.2))
      (List.mem_append_right _ (List.mem_map_of_mem hp))).1

theorem complement_writable {a : Register} {c : Complement} (hd : Sound d) (h : complement a d = .ok c d') :
    0 < a.width ∧ ∀ s ∈ a.bits, d.Writable s := by
  simp only [complement, one, bind_eq_ok] at h
  obtain ⟨unit, d₁, hunit, inverted, d₂, hinvert, sum, d₃, hsum, -⟩ := h
  obtain ⟨-, hpos, -⟩ := add_sum hsum
  have he : Edits d d₁ := (constantRegister_makes 1 a.width).edits hunit
  refine ⟨hpos, fun s hs => ?_⟩
  have hw := invert_writable (he.sound hd) hinvert s hs
  -- What was made for the constant cannot be written, so the signal was there before.
  rcases constantRegister_known hunit hw.lt with hold | ⟨info, hinfo, hc⟩
  · exact he.writable_of_lt hold hw
  · exact absurd hw (not_writable_of_constant hinfo hc)

theorem accumulate_grounded {a : Register} {make : BuildM Register} {acc : Accumulator} (hmakes : Makes make)
    (h : (make >>= accumulate a) d = .ok acc d') :
    0 < a.width ∧ d'.Knows a.bits ∧ ∀ s ∈ a.bits, s ∉ d.fixed := by
  simp only [accumulate, bind_eq_ok, pure_eq_ok] at h
  obtain ⟨b, d₁, hb, sum, d₂, hsum, back, d₃, hback, top, d₄, htop, -, rfl⟩ := h
  obtain ⟨-, hpos, -⟩ := add_sum hsum
  have he₂ : Edits d d₂ := (hmakes.edits hb).trans ((add_makes a b none).edits hsum)
  have he₄ : Edits d₂ d₄ := ((move_makes _ _).edits hback).trans ((chain_makes _ _).edits htop)
  obtain ⟨-, -, ⟨-, hw⟩, -⟩ := move_eq_ok.mp hback
  exact ⟨hpos, fun s hs => he₄.known_subset (hw s hs).lt, fun s hs => he₂.not_fixed (hw s hs)⟩

theorem subtract_grounded {a b : Register} {c : Difference} (hd : Sound d) (h : subtract a b d = .ok c d') :
    a.width = b.width ∧ 0 < b.width ∧ a.overlaps b = false ∧ (∀ s ∈ b.bits, d.Writable s) ∧ d'.Knows a.bits := by
  simp only [subtract, bind_eq_ok, requireSameWidth_eq_ok, requireDisjoint_eq_ok, pure_eq_ok] at h
  obtain ⟨_, _, ⟨hwidth, rfl⟩, _, _, ⟨hdisjoint, rfl⟩, negated, d₁, hneg, sum, d₂, hsum, back, d₃, hback, top, d₄,
    htop, -, rfl⟩ := h
  have he₁ : Edits d d₁ := (complement_makes b).edits hneg
  have he₂ : Edits d₂ d₄ := ((move_makes _ _).edits hback).trans ((sequence_makes _).edits htop)
  obtain ⟨hpos, hb⟩ := complement_writable hd hneg
  refine ⟨hwidth, hpos, hdisjoint, hb, fun s hs => he₂.known_subset ?_⟩
  exact add_knows (he₁.sound hd) hsum s (by simp [hs])

end Block

end

end SignalGraph
