/-
The contracts of blocks.

Each says what a block that was built does to numbers in registers, whatever the signals that
it made for itself held before. Its operands are to be signals that were there before it, and
a register that it writes must not repeat a signal; all else that was there before keeps its
value. Blocks made of others have their contracts from those of their parts.
-/
import SignalGraph.Proofs.Arithmetic
import SignalGraph.Proofs.Realizes

namespace SignalGraph.Block

open Design

/-! ## Adders -/

/-- The value of a carry that may be missing. -/
def carryValue (v : Valuation) : Option SignalId → Nat
  | none => 0
  | some s => (v s).toNat

/-- What an adder adds. -/
def total (v : Valuation) (a b : List SignalId) (carryIn : Option SignalId) : Nat :=
  number v a + number v b + carryValue v carryIn

/-- The contract of an adder: its sum and its carry are new, and they hold what it adds. -/
structure Adds (d d' : Design) (f : Fragment) (a b : List SignalId) (carryIn : Option SignalId)
    (sum : List SignalId) (carry : SignalId) : Prop where
  pos : 0 < a.length
  length : sum.length = a.length
  fresh : ∀ s ∈ carry :: sum, d.signals.size ≤ s.index ∧ s.index < d'.signals.size
  distinct : carry ∉ sum
  realizes : Realizes d d' [f] fun v w =>
    number w sum = total v a b carryIn % 2 ^ a.length ∧ w carry = decide (2 ^ a.length ≤ total v a b carryIn) ∧
      Kept d.signals.size [] v w

/-- A number and a carry out of it are the remainder and the overflow of what they are together. -/
theorem carry_of_count {x m t : Nat} {c : Bool} (h : x + m * c.toNat = t) (hx : x < m) :
    x = t % m ∧ c = decide (m ≤ t) := by
  cases c with
  | false =>
    rw [Bool.toNat_false, Nat.mul_zero, Nat.add_zero] at h
    exact ⟨by rw [← h, Nat.mod_eq_of_lt hx], by simp; omega⟩
  | true =>
    rw [Bool.toNat_true, Nat.mul_one] at h
    exact ⟨by rw [← h, Nat.add_mod_right, Nat.mod_eq_of_lt hx], by simp; omega⟩

theorem halfAdder_adds {a b : SignalId} {cell : AdderCell} {d d' : Design} (hd : Sound d)
    (h : halfAdder a b d = .ok cell d') (ha : a.index < d.signals.size) (hb : b.index < d.signals.size) :
    Adds d d' cell.fragment [a] [b] none [cell.sum] cell.carry := by
  obtain ⟨hemitted, hsum, hcarry⟩ := halfAdder_emitted h
  have hsize := hemitted.signals
  refine ⟨Nat.one_pos, rfl, by simp [hsum, hcarry, hsize], by simp [hsum, hcarry], ?_⟩
  refine .of_emitted (((halfAdder_makes a b).edits h).sound hd) hemitted fun v _ => ?_
  obtain ⟨hxor, hand, hkept⟩ := halfAdderCode_outputs ha hb v
  rw [hsum, hcarry]
  refine ⟨?_, ?_, hkept⟩
  · cases hva : v a <;> cases hvb : v b <;> simp [total, number, carryValue, hxor, hva, hvb]
  · cases hva : v a <;> cases hvb : v b <;> simp [total, number, carryValue, hand, hva, hvb]

theorem fullAdder_adds {a b carryIn : SignalId} {cell : AdderCell} {d d' : Design} (hd : Sound d)
    (h : fullAdder a b carryIn d = .ok cell d') (ha : a.index < d.signals.size) (hb : b.index < d.signals.size)
    (hc : carryIn.index < d.signals.size) :
    Adds d d' cell.fragment [a] [b] (some carryIn) [cell.sum] cell.carry := by
  obtain ⟨hemitted, hsum, hcarry⟩ := fullAdder_emitted h
  have hsize := hemitted.signals
  refine ⟨Nat.one_pos, rfl, by simp [hsum, hcarry, hsize], by simp [hsum, hcarry], ?_⟩
  refine .of_emitted (((fullAdder_makes a b carryIn).edits h).sound hd) hemitted fun v _ => ?_
  obtain ⟨hcount, hkeep⟩ := fullAdder_counts ha hb hc v
  rw [hsum, hcarry]
  generalize (fullAdderCode d.signals.size a b carryIn).exec v = w at hcount hkeep
  have hlt := number_lt w [⟨d.signals.size⟩]
  obtain ⟨hnumber, hover⟩ := carry_of_count (t := total v [a] [b] (some carryIn))
    (by simpa [total, number, carryValue] using hcount) hlt
  exact ⟨hnumber, hover, hkeep⟩

theorem signalOrZero_ok {carryIn : Option SignalId} {c : SignalId} {d d' : Design} (hd : Sound d)
    (h : signalOrZero carryIn d = .ok c d') (hc : d.Knows carryIn.toList) :
    d'.states = d.states ∧ c.index < d'.signals.size ∧
      ∀ v, ConstantsHold d'.signals v → (v c).toNat = carryValue v carryIn := by
  cases carryIn with
  | some s =>
    obtain ⟨rfl, rfl⟩ := pure_eq_ok.mp h
    exact ⟨rfl, hc s (by simp), fun _ _ => rfl⟩
  | none =>
    obtain ⟨hstates, hzero⟩ := zeroSignal_ok hd.constants h
    refine ⟨hstates, signal?_lt hzero, fun v hv => ?_⟩
    rw [hv c _ hzero rfl]
    rfl

theorem add_adds {a b : Register} {carryIn : Option SignalId} {adder : RippleAdder} {d d' : Design} (hd : Sound d)
    (h : add a b carryIn d = .ok adder d') (ha : d.Knows a.bits)
    (hb : d.Knows b.bits) (hc : d.Knows carryIn.toList) :
    a.width = b.width ∧ Adds d d' adder.fragment a.bits b.bits carryIn adder.sum.bits adder.carry := by
  have hd' := ((add_makes a b carryIn).edits h).sound hd
  simp only [add, bind_eq_ok, requireSameWidth_eq_ok] at h
  obtain ⟨_, _, ⟨hwidth, rfl⟩, c, d₁, hcarryIn, h⟩ := h
  have he₁ := (signalOrZero_makes carryIn).edits hcarryIn
  have hle := he₁.signals_size_le
  obtain ⟨hstates, hknown, hvalue⟩ := signalOrZero_ok hd hcarryIn hc
  have he := (addWithCarry_makes a b c).edits h
  obtain ⟨hemitted, hsum, hcarry, hpos⟩ := addWithCarry_emitted h hwidth
  have hsize := hemitted.signals
  have hwidth' : a.bits.length = a.width := rfl
  have hlength : adder.sum.bits.length = a.bits.length := by rw [hsum, length_handles, hwidth']
  refine ⟨hwidth, hpos, hlength, fun s hs => ?_, ?_, ?_⟩
  · rw [addSignals] at hsize
    rcases List.mem_cons.mp hs with rfl | hs
    · rw [hcarry]
      dsimp only
      omega
    · rw [hsum, mem_handles] at hs
      omega
  · rw [hsum, hcarry, mem_handles]
    simp
  · refine Realizes.after hstates (.of_emitted hd' hemitted fun v hv => ?_)
    obtain ⟨hcount, hkeep⟩ := exec_addCode hwidth hsum (ha.mono he₁) (hb.mono he₁) hknown v
    rw [hvalue v (he.constantsHold hv), ← hcarry] at hcount
    obtain ⟨hnumber, hover⟩ := carry_of_count hcount (by
      have := number_lt ((addCode d₁.signals.size a b adder.sum c).exec v) adder.sum.bits
      rwa [hlength] at this)
    exact ⟨hnumber, hover, hkeep.mono hle (fun _ hs => hs)⟩

/-! ## Inverting, moving and loading -/

theorem invert_realizes {a : Register} {f : Fragment} {d d' : Design} (hd : Sound d) (h : invert a d = .ok f d')
    (hnodup : a.bits.Nodup) :
    d'.signals.size = d.signals.size ∧ Realizes d d' [f] fun v w =>
      (∀ s ∈ a.bits, w s = !v s) ∧ ∀ s, s ∉ a.bits → w s = v s := by
  have hemitted := invert_emitted h
  have hsize := hemitted.signals
  refine ⟨hsize, .of_emitted (((invert_makes a).edits h).sound hd) hemitted fun v _ => ?_⟩
  refine ⟨fun s hs => ?_, fun s hs => ?_⟩
  · rw [exec_invertCode hnodup, if_pos hs]
  · rw [exec_invertCode hnodup, if_neg hs]

theorem move_realizes {src dst : Register} {f : Fragment} {d d' : Design} (hd : Sound d)
    (h : move src dst d = .ok f d') (hnodup : dst.bits.Nodup) :
    src.width = dst.width ∧ d'.signals.size = d.signals.size ∧ Realizes d d' [f] fun v w =>
      number w dst.bits = number v src.bits ∧ ∀ s, s ∉ dst.bits → w s = v s := by
  obtain ⟨hemitted, hwidth, hcopyable⟩ := move_emitted h
  have hsize := hemitted.signals
  have hd' := ((move_makes src dst).edits h).sound hd
  refine ⟨hwidth, hsize, .of_emitted hd' hemitted fun v _ => ?_⟩
  exact exec_moveCode hwidth hcopyable hnodup v

theorem loadSignal_realizes {s : SignalId} {value : Bool} {f : Fragment} {d d' : Design} (hd : Sound d)
    (h : loadSignal s value d = .ok f d') :
    d'.signals.size = d.signals.size ∧ Realizes d d' [f] fun v w => w = v.set s value := by
  have hemitted := loadSignal_emitted h
  have hsize := hemitted.signals
  have hd' := ((loadSignal_makes s value).edits h).sound hd
  refine ⟨hsize, .of_emitted hd' hemitted fun v _ => ?_⟩
  simp

theorem loadRegister_realizes {r : Register} {value : Word} {f : Fragment} {d d' : Design} (hd : Sound d)
    (h : loadRegister r value d = .ok f d') (hnodup : r.bits.Nodup) :
    d'.signals.size = d.signals.size ∧ Realizes d d' [f] fun v w =>
      number w r.bits = value.toNat % 2 ^ r.width ∧ ∀ s, s ∉ r.bits → w s = v s := by
  have hemitted := loadRegister_emitted h
  have hsize := hemitted.signals
  have hd' := ((loadRegister_makes r value).edits h).sound hd
  refine ⟨hsize, .of_emitted hd' hemitted fun v _ => ?_⟩
  exact exec_loadCode hnodup value v

/-! ## Arithmetic in place -/

/-- A sum that is moved back into a register that was there before. -/
theorem Adds.moveBack {d d₁ d' : Design} {f g : Fragment} {a b : List SignalId} {carryIn : Option SignalId}
    {sum r : Register} {carry : SignalId} (h : Adds d d₁ f a b carryIn sum.bits carry) (hd₁ : Sound d₁)
    (hmove : move sum r d₁ = .ok g d') (hr : d.Knows r.bits) (hnodup : r.bits.Nodup) :
    d'.signals.size = d₁.signals.size ∧ Realizes d d' [f, g] fun v w =>
      number w r.bits = total v a b carryIn % 2 ^ a.length ∧ number w sum.bits = number w r.bits ∧
        w carry = decide (2 ^ a.length ≤ total v a b carryIn) ∧ Kept d.signals.size r.bits v w := by
  obtain ⟨-, hsize, hback⟩ := move_realizes hd₁ hmove hnodup
  refine ⟨hsize, (h.realizes.append hback ((move_makes sum r).edits hmove)).mono ?_⟩
  rintro v w - ⟨u, -, ⟨hnumber, hover, hkept⟩, hmoved, hothers⟩
  -- What the adder made is not in the register, so that moving leaves it alone.
  have hnew : ∀ s ∈ carry :: sum.bits, s ∉ r.bits := fun s hs hmem => by
    have := (h.fresh s hs).1
    have := hr s hmem
    omega
  have hsum : number w sum.bits = number u sum.bits :=
    number_congr fun s hs => hothers s (hnew s (by simp [hs]))
  refine ⟨by rw [hmoved, hnumber], by rw [hsum, hmoved], ?_, fun s hs hmem => ?_⟩
  · rw [hothers carry (hnew carry (by simp)), hover]
  · rw [hothers s hmem, hkept s hs (by simp)]

theorem accumulate_realizes {a b : Register} {acc : Accumulator} {d d' : Design} (hd : Sound d)
    (h : accumulate a b d = .ok acc d') (ha : d.Knows a.bits)
    (hb : d.Knows b.bits) (hnodup : a.bits.Nodup) :
    0 < a.width ∧ (d.signals.size ≤ acc.carry.index ∧ acc.carry.index < d'.signals.size) ∧
      Realizes d d' [acc.fragment] fun v w =>
        number w a.bits = (number v a.bits + number v b.bits) % 2 ^ a.width ∧
          w acc.carry = decide (2 ^ a.width ≤ number v a.bits + number v b.bits) ∧
          Kept d.signals.size a.bits v w := by
  have hd' := ((accumulate_makes a b).edits h).sound hd
  simp only [accumulate, bind_eq_ok, pure_eq_ok] at h
  obtain ⟨sum, d₁, hsum, back, d₂, hback, top, d₃, htop, rfl, rfl⟩ := h
  have hd₁ := ((add_makes a b none).edits hsum).sound hd
  obtain ⟨-, hadds⟩ := add_adds hd hsum ha hb (knows_nil _)
  obtain ⟨hsize₂, hreal⟩ := hadds.moveBack hd₁ hback ha hnodup
  have hsize₃ := ((chain_makes sum.fragment back).edits htop).signals_size_le
  have hcarry := hadds.fresh sum.carry (by simp)
  refine ⟨hadds.pos, ⟨hcarry.1, by dsimp only; omega⟩, (hreal.chain htop hd').mono ?_⟩
  rintro v w - ⟨hnumber, -, hover, hkept⟩
  exact ⟨hnumber, hover, hkept⟩

theorem increment_realizes {a : Register} {acc : Accumulator} {d d' : Design} (hd : Sound d)
    (h : increment a d = .ok acc d') (ha : d.Knows a.bits) (hnodup : a.bits.Nodup) :
    (d.signals.size ≤ acc.carry.index ∧ acc.carry.index < d'.signals.size) ∧
      Realizes d d' [acc.fragment] fun v w =>
        number w a.bits = (number v a.bits + 1) % 2 ^ a.width ∧
          w acc.carry = decide (2 ^ a.width ≤ number v a.bits + 1) ∧ Kept d.signals.size a.bits v w := by
  simp only [increment, one, bind_eq_ok] at h
  obtain ⟨unit, d₁, hunit, h⟩ := h
  have he := (constantRegister_makes 1 a.width).edits hunit
  have hle := he.signals_size_le
  obtain ⟨hstates, hkeeps⟩ := constantRegister_ok hd.constants hunit
  obtain ⟨hpos, hcarry, hreal⟩ := accumulate_realizes (he.sound hd) h (ha.mono he) hkeeps.knows hnodup
  refine ⟨⟨by omega, hcarry.2⟩, (hreal.mono ?_).after hstates⟩
  rintro v w hv ⟨hnumber, hover, hkept⟩
  have hone : number v unit.bits = 1 := by
    rw [hkeeps.number_literal (((accumulate_makes a unit).edits h).constantsHold hv)]
    exact Nat.mod_eq_of_lt (Nat.one_lt_two_pow (by omega))
  rw [hone] at hnumber hover
  exact ⟨hnumber, hover, hkept.mono hle (fun _ hs => hs)⟩

theorem decrement_realizes {a : Register} {acc : Accumulator} {d d' : Design} (hd : Sound d)
    (h : decrement a d = .ok acc d') (ha : d.Knows a.bits) (hnodup : a.bits.Nodup) :
    (d.signals.size ≤ acc.carry.index ∧ acc.carry.index < d'.signals.size) ∧
      Realizes d d' [acc.fragment] fun v w =>
        number w a.bits = (number v a.bits + 2 ^ a.width - 1) % 2 ^ a.width ∧
          w acc.carry = decide (0 < number v a.bits) ∧ Kept d.signals.size a.bits v w := by
  simp only [decrement, bind_eq_ok] at h
  obtain ⟨ones, d₁, hones, h⟩ := h
  have he := (minusOne_makes a.width).edits hones
  have hle := he.signals_size_le
  obtain ⟨hstates, ⟨_, hkeeps⟩, hvalue⟩ := minusOne_ok hd.constants hones
  obtain ⟨-, hcarry, hreal⟩ := accumulate_realizes (he.sound hd) h (ha.mono he) hkeeps.knows hnodup
  refine ⟨⟨by omega, hcarry.2⟩, (hreal.mono ?_).after hstates⟩
  rintro v w hv ⟨hnumber, hover, hkept⟩
  have hpos := Nat.two_pow_pos a.width
  rw [hvalue v (((accumulate_makes a ones).edits h).constantsHold hv), ← Nat.add_sub_assoc hpos] at hnumber hover
  refine ⟨hnumber, ?_, hkept.mono hle (fun _ hs => hs)⟩
  rw [hover, decide_eq_decide]
  omega

theorem complement_realizes {a : Register} {c : Complement} {d d' : Design} (hd : Sound d)
    (h : complement a d = .ok c d') (ha : d.Knows a.bits) (hnodup : a.bits.Nodup) :
    c.sum.width = a.width ∧ (∀ s ∈ c.sum.bits, d.signals.size ≤ s.index ∧ s.index < d'.signals.size) ∧
      Realizes d d' [c.fragment] fun v w =>
        number w a.bits = (2 ^ a.width - number v a.bits) % 2 ^ a.width ∧ number w c.sum.bits = number w a.bits ∧
          Kept d.signals.size a.bits v w := by
  have hd' := ((complement_makes a).edits h).sound hd
  simp only [complement, one, bind_eq_ok, pure_eq_ok] at h
  obtain ⟨unit, d₁, hunit, inverted, d₂, hinvert, sum, d₃, hsum, back, d₄, hback, top, d₅, htop, rfl, rfl⟩ := h
  have he₁ := (constantRegister_makes 1 a.width).edits hunit
  have hle := he₁.signals_size_le
  have he₂ := (invert_makes a).edits hinvert
  have he₃ := (add_makes a unit none).edits hsum
  have he₄ := he₃.trans ((move_makes sum.sum a).edits hback)
  have hsize₅ := ((sequence_makes _).edits htop).signals_size_le
  obtain ⟨hstates, hkeeps⟩ := constantRegister_ok hd.constants hunit
  have hd₁ := he₁.sound hd
  have hd₂ := he₂.sound hd₁
  obtain ⟨hsize₂, hinverts⟩ := invert_realizes hd₁ hinvert hnodup
  have ha₂ : d₂.Knows a.bits := ha.mono (he₁.trans he₂)
  obtain ⟨-, hadds⟩ := add_adds hd₂ hsum ha₂ (hkeeps.knows.mono he₂) (knows_nil _)
  obtain ⟨hsize₄, hadded⟩ := hadds.moveBack (he₃.sound hd₂) hback ha₂ hnodup
  refine ⟨hadds.length, fun s hs => ?_, ?_⟩
  · have := hadds.fresh s (by simp [hs])
    omega
  refine (((hinverts.append hadded he₄).sequence htop hd').mono ?_).after hstates
  rintro v w hv ⟨u, hu, ⟨hnot, hothers⟩, hnumber, hcopy, -, hkept⟩
  -- The unit is read after the register was inverted, and constants hold then too.
  have hone : number u unit.bits = 1 % 2 ^ a.width :=
    hkeeps.number_literal (Edits.constantsHold (he₂.trans he₄) hu)
  have hcount : number u a.bits + number v a.bits + 1 = 2 ^ a.width := number_not hnot
  refine ⟨?_, hcopy, fun s hs hmem => ?_⟩
  · rw [hnumber, total, hone, carryValue, Nat.add_zero]
    show (number u a.bits + 1 % 2 ^ a.width) % 2 ^ a.width = _
    rw [Nat.add_mod_mod, ← hcount]
    congr 1
    omega
  · rw [hkept s (by omega) hmem, hothers s hmem]

theorem subtract_realizes {a b : Register} {diff : Difference} {d d' : Design} (hd : Sound d)
    (h : subtract a b d = .ok diff d') (ha : d.Knows a.bits)
    (hb : d.Knows b.bits) (hnodup : b.bits.Nodup) :
    a.width = b.width ∧ Realizes d d' [diff.fragment] fun v w =>
      number w b.bits = (number v a.bits + 2 ^ b.width - number v b.bits) % 2 ^ b.width ∧
        Kept d.signals.size b.bits v w := by
  have hd' := ((subtract_makes a b).edits h).sound hd
  simp only [subtract, bind_eq_ok, pure_eq_ok, requireSameWidth_eq_ok, requireDisjoint_eq_ok] at h
  obtain ⟨_, _, ⟨hwidth, rfl⟩, _, _, ⟨hdisj, rfl⟩, negated, d₁, hnegated, sum, d₂, hsum, back, d₃, hback, top, d₄,
    htop, rfl, rfl⟩ := h
  have he₁ := (complement_makes b).edits hnegated
  have hle := he₁.signals_size_le
  have he₂ := (add_makes a b none).edits hsum
  have he₃ := he₂.trans ((move_makes sum.sum b).edits hback)
  have hd₁ := he₁.sound hd
  have hb₁ : d₁.Knows b.bits := hb.mono he₁
  obtain ⟨-, -, hnegates⟩ := complement_realizes hd hnegated hb hnodup
  obtain ⟨-, hadds⟩ := add_adds hd₁ hsum (ha.mono he₁) hb₁ (knows_nil _)
  obtain ⟨-, hadded⟩ := hadds.moveBack (he₂.sound hd₁) hback hb₁ hnodup
  refine ⟨hwidth, ((hnegates.append hadded he₃).sequence htop hd').mono ?_⟩
  rintro v w - ⟨u, -, ⟨hneg, -, hkept⟩, hnumber, -, -, hkept'⟩
  have hsame : number u a.bits = number v a.bits := hkept.number ha (Register.disjoint_of_overlaps hdisj)
  have hlt : number v b.bits < 2 ^ b.width := number_lt v b.bits
  refine ⟨?_, hkept.trans hkept' hle⟩
  rw [hnumber, total, hsame, hneg, carryValue, Nat.add_zero]
  show (_ + _) % 2 ^ a.width = _
  rw [hwidth, Nat.add_mod_mod, Nat.add_sub_assoc (by omega)]

end SignalGraph.Block
