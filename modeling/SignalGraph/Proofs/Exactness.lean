/-
Exact arithmetic.

What a caller of a block can rely on: the fragment that it was given runs to its exit from whatever
values there are, with the result that its arithmetic says and with its flags exact, and no signal
that was there before the block, apart from those that it is meant to write, is changed. Widths are
not bounded, and operands that are only read may be constants and may repeat signals. A block that
undoes itself can be built twice and put in sequence, whatever was built in between (`SelfInverse`).
-/
import SignalGraph.Proofs.Fragments
import SignalGraph.Proofs.Outcomes

namespace SignalGraph

namespace Design

/-! ## Blocks that undo themselves -/

/-- The operations that lead from one design to the other leave the states of the fragment alone. -/
def Spares (f : Fragment) (d d' : Design) : Prop :=
  (∃ calls, performAll calls d = d') ∧ ∀ q ∈ f.states, d'.state? q = d.state? q

theorem Spares.refl (f : Fragment) (d : Design) : Spares f d d := ⟨⟨[], rfl⟩, fun _ _ => rfl⟩

theorem Spares.edits {f : Fragment} {d d' : Design} (h : Spares f d d') : Edits d d' := by
  obtain ⟨⟨calls, rfl⟩, -⟩ := h
  exact performAll_edits calls d

/-- A block that is built twice can be put in sequence with itself, whatever else was built meanwhile,
and no signal that was there before the two is then changed. -/
def SelfInverse (build : BuildM Fragment) (d : Design) : Prop :=
  ∀ f d₁ d₂ g d₃ d₄, build d = .ok f d₁ → Spares f d₁ d₂ → build d₂ = .ok g d₃ → Spares f d₃ d₄ → Spares g d₃ d₄ →
    ∃ top d₅, sequence [f, g] d₄ = .ok top d₅ ∧ d₅.Runs top fun v w => ∀ s ∈ d.known, w s = v s

/-- A block is its own inverse if what it does, done twice, changes nothing. -/
theorem SelfInverse.of_realizes {build : BuildM Fragment} {d : Design} {R : Valuation → Valuation → Prop} (hd : Sound d)
    (hmakes : Makes build)
    (hbuild : ∀ e f e', Edits d e → build e = .ok f e' → Lays e e' [f] ∧ Realizes e e' [f] R)
    (htwice : ∀ v u w, R v u → R u w → ∀ s ∈ d.known, w s = v s) : SelfInverse build d := by
  intro f d₁ d₂ g d₃ d₄ hf hspared hg hspared' hspared''
  have he₁ : Edits d d₁ := hmakes.edits hf
  have he₂ : Edits d d₂ := he₁.trans hspared.edits
  have he₃ : Edits d₂ d₃ := hmakes.edits hg
  obtain ⟨hlays, hreal⟩ := hbuild d f d₁ .refl hf
  obtain ⟨hlays', hreal'⟩ := hbuild d₂ g d₃ he₂ hg
  obtain ⟨-, hstretch, -⟩ := hlays.stretch
  obtain ⟨-, hstretch', -, -, hsecond⟩ := hlays'.stretch
  have hle := hspared.edits.states_size_le
  -- The second block has only new states, so it leaves those of the first alone and shares none of them.
  have hold : ∀ q ∈ f.states, q.index < d₂.states.size := by
    intro q hq
    have hq' := hstretch.mem_states.mp hq
    have hlt := hstretch.lt_size
    omega
  have hperf : d₄.Performs f R :=
    (((Performs.of_realizes hreal hlays).spared hspared.edits hspared.2).spared he₃ fun q hq =>
      hlays'.keeps (hold q hq)).spared hspared'.edits hspared'.2
  have hperf' : d₄.Performs g R := (Performs.of_realizes hreal' hlays').spared hspared''.edits hspared''.2
  have hdisj : f.states.Disjoint g.states := by
    intro q hq hq'
    have hnew := hstretch'.mem_states.mp hq'
    rw [hsecond] at hnew
    exact absurd (hold q hq) (Nat.not_lt.mpr hnew.1)
  have hd₄ : Sound d₄ := hspared'.edits.sound (he₃.sound (he₂.sound hd))
  obtain ⟨top, d₅, hs⟩ := hperf.exists_sequence hperf' hdisj
  refine ⟨top, d₅, hs, (hperf.sequence hperf' hd₄ hdisj hs).mono ?_⟩
  rintro v w ⟨u, hu, hw⟩
  exact htwice v u w hu hw

end Design

namespace Block

open Design

variable {d d' : Design}

/-! ## Addition and subtraction -/

/-- The sum is exact at every width, and so is the carry out of it. -/
theorem add_computes_sum {a b : Register} {carryIn : Option SignalId} {adder : RippleAdder} (hd : d.Reachable)
    (ha : d.Knows a.bits) (hb : d.Knows b.bits) (hc : d.Knows carryIn.toList) (h : add a b carryIn d = .ok adder d') :
    adder.sum.width = a.width ∧ d'.Runs adder.fragment fun v w =>
      adder.sum.value w = (a.value v + b.value v + carryValue v carryIn) % 2 ^ a.width ∧
        (w adder.carry = true ↔ 2 ^ a.width ≤ a.value v + b.value v + carryValue v carryIn) ∧
        ∀ s ∈ d.known, w s = v s := by
  have hd' : Sound d' := ((add_makes a b carryIn).edits h).sound hd.sound
  obtain ⟨-, hadds⟩ := add_adds hd.sound h ha hb hc
  refine ⟨hadds.length, (hadds.realizes.runs hd').mono ?_⟩
  rintro v w ⟨hsum, hcarry, hkept⟩
  simp only [Register.value_eq]
  refine ⟨hsum, ?_, fun s hs => hkept s hs (by simp)⟩
  rw [hcarry, decide_eq_true_iff]
  rfl

/-- A signal and a constant one of two bits. -/
def signalAndOne : Design := performAll [.createSignal "n", .one 2] (.new {})

theorem repeatedConstant_computes_sum :
    ∃ adder d' k m, add ⟨"a", [⟨1⟩, ⟨1⟩]⟩ ⟨"b", [⟨1⟩, ⟨0⟩]⟩ (some ⟨1⟩) signalAndOne = .ok adder d' ∧
      Machine.run (.load (d'.program adder.fragment) ⟨d'.states.size⟩ (d'.signals.map SignalInfo.initial)) = .ok k m ∧
      adder.sum.value m.valuation = 1 ∧ m.valuation adder.carry = true := by
  obtain ⟨adder, h, -⟩ := eq_ok_of_result? (x := add ⟨"a", [⟨1⟩, ⟨1⟩]⟩ ⟨"b", [⟨1⟩, ⟨0⟩]⟩ (some ⟨1⟩))
    (s := signalAndOne) (f := RippleAdder.carry) (b := ⟨5⟩) (by decide +kernel)
  obtain ⟨-, hruns⟩ := add_computes_sum ⟨{}, _, rfl⟩ (by decide +kernel) (by decide +kernel) (by decide +kernel) h
  obtain ⟨k, m, hrun, -, hsum, hcarry, -⟩ := hruns _ (.initial _) _ (Nat.le_refl _)
  refine ⟨adder, _, k, m, h, hrun, hsum.trans ?_, hcarry.mpr ?_⟩
  · decide +kernel
  · decide +kernel

/-- The second operand becomes the difference, and the first one is only read. -/
theorem subtract_computes_difference {a b : Register} {diff : Difference} (hd : d.Reachable) (ha : d.Knows a.bits)
    (hb : d.Knows b.bits) (hnodup : b.bits.Nodup) (h : subtract a b d = .ok diff d') :
    a.width = b.width ∧ d'.Runs diff.fragment fun v w =>
      b.value w = (a.value v + 2 ^ b.width - b.value v) % 2 ^ b.width ∧
        (∀ s ∈ d.known, s ∉ b.bits → w s = v s) ∧ ∀ s ∈ a.bits, w s = v s := by
  have hd' : Sound d' := ((subtract_makes a b).edits h).sound hd.sound
  obtain ⟨hwidth, hreal⟩ := subtract_realizes hd.sound h ha hb hnodup
  obtain ⟨-, -, hoverlaps, -, -⟩ := subtract_grounded hd.sound h
  refine ⟨hwidth, (hreal.runs hd').mono ?_⟩
  rintro v w ⟨hdifference, hkept⟩
  simp only [Register.value_eq]
  exact ⟨hdifference, hkept, fun s hs => hkept s (ha s hs) (Register.disjoint_of_overlaps hoverlaps s hs)⟩

/-- A register and a constant one, of two bits each. -/
def registerAndOne : Design := performAll [.createRegister "n" 2, .one 2] (.new {})

theorem repeatedConstant_computes_difference :
    ∃ diff d', subtract ⟨"a", [⟨2⟩, ⟨2⟩]⟩ ⟨"n", [⟨0⟩, ⟨1⟩]⟩ registerAndOne = .ok diff d' ∧
      d'.Runs diff.fragment fun v w =>
        Register.value ⟨"n", [⟨0⟩, ⟨1⟩]⟩ w =
            (Register.value ⟨"a", [⟨2⟩, ⟨2⟩]⟩ v + 4 - Register.value ⟨"n", [⟨0⟩, ⟨1⟩]⟩ v) % 4 ∧ w ⟨2⟩ = v ⟨2⟩ := by
  have hd : registerAndOne.PlainlyReachable := ⟨{}, _, by simp [Call.Plain], rfl⟩
  obtain ⟨d', h⟩ := hd.exists_perform (c := .subtract ⟨"a", [⟨2⟩, ⟨2⟩]⟩ ⟨"n", [⟨0⟩, ⟨1⟩]⟩) rfl (by decide +kernel)
    ⟨rfl, by decide, by decide, by decide +kernel⟩
  obtain ⟨diff, h⟩ := discard_eq_ok.mp h
  obtain ⟨-, hruns⟩ :=
    subtract_computes_difference hd.reachable (by decide +kernel) (by decide +kernel) (by decide) h
  exact ⟨diff, d', h, hruns.mono fun v w hR => ⟨hR.1, hR.2.2 ⟨2⟩ (by simp)⟩⟩

/-! ## Counting up and down -/

/-- A register is counted up and down modulo its range, and the flags tell where it wraps. -/
theorem increment_decrement_exact {a : Register} (hd : d.Reachable) (ha : d.Knows a.bits) (hnodup : a.bits.Nodup) :
    (∀ acc d', increment a d = .ok acc d' → d'.Runs acc.fragment fun v w =>
      a.value w = (a.value v + 1) % 2 ^ a.width ∧ (w acc.carry = true ↔ a.value v = 2 ^ a.width - 1) ∧
        ∀ s ∈ d.known, s ∉ a.bits → w s = v s) ∧
    ∀ acc d', decrement a d = .ok acc d' → d'.Runs acc.fragment fun v w =>
      a.value w = (a.value v + 2 ^ a.width - 1) % 2 ^ a.width ∧ (w acc.carry = true ↔ a.value v ≠ 0) ∧
        ∀ s ∈ d.known, s ∉ a.bits → w s = v s := by
  refine ⟨fun acc d' h => ?_, fun acc d' h => ?_⟩
  · have hd' : Sound d' := ((increment_makes a).edits h).sound hd.sound
    obtain ⟨-, hreal⟩ := increment_realizes hd.sound h ha hnodup
    refine (hreal.runs hd').mono ?_
    rintro v w ⟨hnumber, hcarry, hkept⟩
    simp only [Register.value_eq]
    have hlt : number v a.bits < 2 ^ a.width := number_lt v a.bits
    refine ⟨hnumber, ?_, hkept⟩
    -- A number in the range leaves it by one step only from its end.
    rw [hcarry, decide_eq_true_iff]
    omega
  · have hd' : Sound d' := ((decrement_makes a).edits h).sound hd.sound
    obtain ⟨-, hreal⟩ := decrement_realizes hd.sound h ha hnodup
    refine (hreal.runs hd').mono ?_
    rintro v w ⟨hnumber, hcarry, hkept⟩
    simp only [Register.value_eq]
    refine ⟨hnumber, ?_, hkept⟩
    rw [hcarry, decide_eq_true_iff, Nat.pos_iff_ne_zero]

/-- A register that is wider than a word. -/
def wide : Register := ⟨"n", handles 0 65⟩

def wideDesign : Design := performAll [.createRegister "n" 65] (.new {})

theorem wide_increment_decrement_exact :
    (∃ acc d', increment wide wideDesign = .ok acc d' ∧ d'.Runs acc.fragment fun v w =>
      wide.value w = (wide.value v + 1) % 2 ^ 65 ∧ (w acc.carry = true ↔ wide.value v = 2 ^ 65 - 1)) ∧
    ∃ acc d', decrement wide wideDesign = .ok acc d' ∧ d'.Runs acc.fragment fun v w =>
      wide.value w = (wide.value v + 2 ^ 65 - 1) % 2 ^ 65 ∧ (w acc.carry = true ↔ wide.value v ≠ 0) := by
  have hd : wideDesign.PlainlyReachable := ⟨{}, _, by simp [Call.Plain], rfl⟩
  have hsignals : ∀ s ∈ wide.bits, s ∈ wideDesign.known ∧ s ∉ wideDesign.fixed := by decide +kernel
  have hknows : wideDesign.Knows wide.bits := fun s hs => (hsignals s hs).1
  have hfixed : ∀ s ∈ wide.bits, s ∉ wideDesign.fixed := fun s hs => (hsignals s hs).2
  obtain ⟨hup, hdown⟩ := increment_decrement_exact hd.reachable hknows (by decide +kernel)
  obtain ⟨d₁, hinc⟩ := hd.exists_perform (c := .increment wide) rfl hknows ⟨by decide, hfixed⟩
  obtain ⟨d₂, hdec⟩ := hd.exists_perform (c := .decrement wide) rfl hknows ⟨by decide, hfixed⟩
  obtain ⟨acc, hinc⟩ := discard_eq_ok.mp hinc
  obtain ⟨acc', hdec⟩ := discard_eq_ok.mp hdec
  refine ⟨⟨acc, d₁, hinc, (hup acc d₁ hinc).mono ?_⟩, ⟨acc', d₂, hdec, (hdown acc' d₂ hdec).mono ?_⟩⟩
  · rintro v w ⟨hvalue, hflag, -⟩
    exact ⟨hvalue, hflag⟩
  · rintro v w ⟨hvalue, hflag, -⟩
    exact ⟨hvalue, hflag⟩

/-! ## Inverting and negating -/

theorem invert_selfInverse {a : Register} (hd : Sound d) (hnodup : a.bits.Nodup) : SelfInverse (invert a) d := by
  refine .of_realizes hd (invert_makes a)
    (fun e f e' he h => ⟨invert_lays h, (invert_realizes (he.sound hd) h hnodup).2⟩) ?_
  rintro v u w ⟨hnot, hothers⟩ ⟨hnot', hothers'⟩ s -
  by_cases hs : s ∈ a.bits
  · rw [hnot' s hs, hnot s hs, Bool.not_not]
  · rw [hothers' s hs, hothers s hs]

theorem neg_neg_mod {m x : Nat} (hx : x < m) : (m - (m - x) % m) % m = x := by
  rcases Nat.eq_zero_or_pos x with rfl | hpos
  · simp
  · rw [Nat.mod_eq_of_lt (by omega : m - x < m), Nat.sub_sub_self (by omega), Nat.mod_eq_of_lt hx]

/-- A complement of which only the fragment is kept. -/
def negate (a : Register) : BuildM Fragment := do
  return (← complement a).fragment

theorem negate_makes (a : Register) : Makes (negate a) := .bind (complement_makes a) fun _ => .pure _

theorem negate_selfInverse {a : Register} (hd : Sound d) (ha : d.Knows a.bits) (hnodup : a.bits.Nodup) :
    SelfInverse (negate a) d := by
  refine .of_realizes (R := fun v w => number w a.bits = (2 ^ a.width - number v a.bits) % 2 ^ a.width ∧
    Kept d.signals.size a.bits v w) hd (negate_makes a) (fun e f e' he h => ?_) ?_
  · simp only [negate, bind_eq_ok, pure_eq_ok] at h
    obtain ⟨c, _, h, rfl, rfl⟩ := h
    obtain ⟨-, -, hreal⟩ := complement_realizes (he.sound hd) h (ha.mono he) hnodup
    refine ⟨complement_lays h, hreal.mono ?_⟩
    rintro v w - ⟨hnumber, -, hkept⟩
    exact ⟨hnumber, hkept.mono he.signals_size_le fun _ hs => hs⟩
  · rintro v u w ⟨hnumber, hkept⟩ ⟨hnumber', hkept'⟩ s hs
    have hlt : number v a.bits < 2 ^ a.width := number_lt v a.bits
    rw [hnumber, neg_neg_mod hlt] at hnumber'
    by_cases hmem : s ∈ a.bits
    · exact eq_of_number_eq hnumber' s hmem
    · rw [hkept' s hs hmem, hkept s hs hmem]

theorem exists_negate {a : Register} (hd : d.PlainlyReachable) (ha : ∀ s ∈ a.bits, d.Writable s) (hpos : 1 ≤ a.width) :
    ∃ f d', negate a d = .ok f d' ∧ d'.PlainlyReachable := by
  obtain ⟨d', h⟩ := hd.exists_perform (c := .complement a) rfl (fun s hs => (ha s hs).lt)
    ⟨hpos, fun s hs => (writable_iff.mp (ha s hs)).2⟩
  have hd' : d'.PlainlyReachable := after_of_ok h ▸ hd.perform (c := .complement a) trivial
  obtain ⟨c, h⟩ := discard_eq_ok.mp h
  exact ⟨c.fragment, d', bind_eq_ok.mpr ⟨c, d', h, rfl⟩, hd'⟩

/-- A register is inverted bit by bit, or negated modulo its range, and to do either twice changes nothing. -/
theorem invert_complement_exact {a : Register} (hd : d.Reachable) (ha : d.Knows a.bits) (hnodup : a.bits.Nodup) :
    (∀ f d', invert a d = .ok f d' → d'.Runs f fun v w =>
      (∀ s ∈ a.bits, w s = !v s) ∧ ∀ s ∈ d.known, s ∉ a.bits → w s = v s) ∧
    (∀ c d', complement a d = .ok c d' → c.sum.width = a.width ∧ d'.Runs c.fragment fun v w =>
      a.value w = (2 ^ a.width - a.value v) % 2 ^ a.width ∧ c.sum.value w = a.value w ∧
        ∀ s ∈ d.known, s ∉ a.bits → w s = v s) ∧
    SelfInverse (invert a) d ∧ SelfInverse (negate a) d := by
  refine ⟨fun f d' h => ?_, fun c d' h => ?_, invert_selfInverse hd.sound hnodup,
    negate_selfInverse hd.sound ha hnodup⟩
  · have hd' : Sound d' := ((invert_makes a).edits h).sound hd.sound
    refine ((invert_realizes hd.sound h hnodup).2.runs hd').mono ?_
    rintro v w ⟨hnot, hothers⟩
    exact ⟨hnot, fun s _ hs => hothers s hs⟩
  · have hd' : Sound d' := ((complement_makes a).edits h).sound hd.sound
    obtain ⟨hwidth, -, hreal⟩ := complement_realizes hd.sound h ha hnodup
    refine ⟨hwidth, (hreal.runs hd').mono ?_⟩
    rintro v w ⟨hnumber, hcopy, hkept⟩
    simp only [Register.value_eq]
    exact ⟨hnumber, hcopy, hkept⟩

/-- A register of two bits. -/
def pair : Register := ⟨"n", [⟨0⟩, ⟨1⟩]⟩

def pairDesign : Design := performAll [.createRegister "n" 2] (.new {})

theorem pair_invert_complement_exact :
    (∃ f d', invert pair pairDesign = .ok f d' ∧ d'.Runs f fun v w => ∀ s ∈ pair.bits, w s = !v s) ∧
    ∃ f d₁ g d₂ top d₃, negate pair pairDesign = .ok f d₁ ∧ negate pair (performAll [.createSignal "m"] d₁) = .ok g d₂ ∧
      sequence [f, g] d₂ = .ok top d₃ ∧ d₃.Runs top fun v w => ∀ s ∈ pair.bits, w s = v s := by
  have hd : pairDesign.PlainlyReachable := ⟨{}, _, by simp [Call.Plain], rfl⟩
  have hwritable : ∀ s ∈ pair.bits, pairDesign.Writable s := by
    simp only [writable_iff]
    decide +kernel
  have hknows : pairDesign.Knows pair.bits := fun s hs => (hwritable s hs).lt
  obtain ⟨hinvert, -, -, htwice⟩ := invert_complement_exact hd.reachable hknows (by decide)
  obtain ⟨d', h⟩ := hd.exists_perform (c := .invert pair) rfl hknows fun s hs => (writable_iff.mp (hwritable s hs)).2
  obtain ⟨inverted, h⟩ := discard_eq_ok.mp h
  obtain ⟨f, d₁, hf, hd₁⟩ := exists_negate hd hwritable (by decide)
  have hspared : Spares f d₁ (performAll [.createSignal "m"] d₁) := by
    refine ⟨⟨_, rfl⟩, fun q _ => ?_⟩
    rw [performAll, List.foldl_cons, List.foldl_nil, state?, state?, Call.quiet rfl]
  have he : Edits pairDesign (performAll [.createSignal "m"] d₁) :=
    ((negate_makes pair).edits hf).trans hspared.edits
  have hd₂ : (performAll [.createSignal "m"] d₁).PlainlyReachable :=
    hd₁.perform (c := .createSignal "m") (by simp [Call.Plain])
  obtain ⟨g, d₂, hg, -⟩ := exists_negate hd₂ (fun s hs => he.writable (hwritable s hs)) (by decide)
  obtain ⟨top, d₃, hs, hruns⟩ := htwice f d₁ _ g d₂ d₂ hf hspared hg (.refl f d₂) (.refl g d₂)
  refine ⟨⟨inverted, d', h, (hinvert _ _ h).mono fun v w hR => hR.1⟩, f, d₁, g, d₂, top, d₃, hf, hg, hs, ?_⟩
  exact hruns.mono fun v w hR s hs => hR s (hknows s hs)

end Block

end SignalGraph
