/-
Constant registers are shared.

Whoever asks for a constant register gets the one that is kept under its key, and the first to ask
has it made and kept (`Serves`). A key is never given another register, so the same is returned from
then on, whatever happens to the design. All that is kept is complete, since a register is kept only
when its last bit was made: what a failed call leaves behind are signals, and no register. The name
of a bit tells its register and its place in it, so that bits are never shared.
-/
import SignalGraph.Proofs.Constants
import SignalGraph.Proofs.Naming

namespace SignalGraph

namespace Design

variable {d d' : Design} {key key' : ConstantKey} {r r' : Register}

/-! ## Complete registers -/

/-- The register is made of so many different constants, and starts with the bits. -/
structure IsConstant (d : Design) (r : Register) (width : Nat) (bit : Nat → Bool) : Prop where
  width : r.width = width
  distinct : r.bits.Nodup
  bits : ∀ i s, r.bit? i = some s → ∃ info, d.signal? s = some info ∧ info.constant = true ∧ info.initial = bit i

theorem Keeps.nodup (h : d.Keeps key r) : r.bits.Nodup := by
  refine List.pairwise_iff_getElem.mpr fun i j hi hj hlt heq => ?_
  have hfirst := h.bits i _ (List.getElem?_eq_getElem hi)
  have hsecond := h.bits j _ (List.getElem?_eq_getElem hj)
  rw [heq, hsecond] at hfirst
  have hname := bitName_inj (SignalInfo.mk.inj (Option.some.inj hfirst)).1
  omega

theorem Keeps.isConstant (h : d.Keeps key r) {bit : Nat → Bool} (hbit : ∀ i, i < key.width → key.bit i = bit i) :
    d.IsConstant r key.width bit := by
  refine ⟨h.width, h.nodup, fun i s hs => ⟨_, h.bits i s hs, rfl, hbit i ?_⟩⟩
  rw [← h.width]
  exact (List.getElem?_eq_some_iff.mp hs).1

theorem Keeps.disjoint (h : d.Keeps key r) (h' : d.Keeps key' r') (hne : key ≠ key') : ∀ s ∈ r.bits, s ∉ r'.bits := by
  intro s hs hs'
  obtain ⟨i, hi⟩ := List.getElem?_of_mem hs
  obtain ⟨j, hj⟩ := List.getElem?_of_mem hs'
  have hinfo := (h.bits i s hi).symm.trans (h'.bits j s hj)
  exact hne (ConstantKey.eq_of_bitName (SignalInfo.mk.inj (Option.some.inj hinfo)).1)

/-! ## What is kept stays -/

theorem Edit.lookup_constants (he : Edit d d') (h : d.constants.lookup key = some r) :
    d'.constants.lookup key = some r := by
  cases he with
  | signal | scope | zero | state | action | transition | default => exact h
  | @constant key' r' hnone _ =>
    have hne : (key == key') = false := by
      refine beq_eq_false_iff_ne.mpr fun heq => ?_
      rw [← heq, h] at hnone
      cases hnone
    rw [List.lookup_cons, hne]
    exact h

theorem Edits.lookup_constants (he : Edits d d') (h : d.constants.lookup key = some r) :
    d'.constants.lookup key = some r :=
  he.invariant (I := fun d => d.constants.lookup key = some r) (fun _ _ he => he.lookup_constants) h

/-! ## Asking for a key -/

/-- Making bits, all that are asked for or fewer, keeps no register. -/
theorem addBitsFrom_failed {name : String} {initial : Nat → Bool} {constant : Bool} {count : Nat} {e : BuildError} :
    ∀ {i : Nat} {d : Design}, addBitsFrom name initial constant i count d = .error e d' →
      d'.constants = d.constants := by
  induction count with
  | zero =>
    intro i d h
    cases h
  | succ count ih =>
    intro i d h
    rcases bind_eq_error.mp h with hfirst | ⟨s, d₁, hs, hrest⟩
    · unfold addSignal at hfirst
      split at hfirst
      · cases hfirst
        rfl
      · cases hfirst
    · obtain ⟨-, -, rfl⟩ := addSignal_eq_ok.mp hs
      rcases bind_eq_error.mp hrest with hrest | ⟨_, _, -, hreturn⟩
      · have hconstants := ih hrest
        exact hconstants
      · cases hreturn

/-- The operation returns the register that is kept under the key, and keeps there what it returns.
If it fails, it keeps nothing. -/
structure Serves (make : BuildM Register) (key : ConstantKey) : Prop where
  kept : ∀ {d r}, d.constants.lookup key = some r → make d = .ok r d
  keeps : ∀ {d d' r}, make d = .ok r d' → d'.constants.lookup key = some r
  failed : ∀ {d d' e}, make d = .error e d' → d'.constants = d.constants

theorem addConstant_keeps {width : Nat} {bit : Nat → Bool} (h : addConstant key width bit d = .ok r d') :
    d'.constants.lookup key = some r := by
  simp only [addConstant, bind_eq_ok, modify_eq_ok, pure_eq_ok] at h
  obtain ⟨_, d₁, -, _, _, rfl, rfl, rfl⟩ := h
  simp

theorem addConstant_failed {width : Nat} {bit : Nat → Bool} {e : BuildError}
    (h : addConstant key width bit d = .error e d') : d'.constants = d.constants := by
  rcases bind_eq_error.mp h with hbits | ⟨_, _, -, hkeep⟩
  · rcases bind_eq_error.mp hbits with hbits | ⟨_, _, -, hreturn⟩
    · exact addBitsFrom_failed hbits
    · cases hreturn
  · cases hkeep

theorem constantOr_serves {make : BuildM Register}
    (hkeeps : ∀ {d d' r}, make d = .ok r d' → d'.constants.lookup key = some r)
    (hfailed : ∀ {d d' e}, make d = .error e d' → d'.constants = d.constants) : Serves (constantOr key make) key := by
  refine ⟨fun hkept => by simp only [constantOr, hkept], fun hmade => ?_, fun herror => ?_⟩
  · unfold constantOr at hmade
    split at hmade
    · next hkept =>
      cases hmade
      exact hkept
    · exact hkeeps hmade
  · unfold constantOr at herror
    split at herror
    · cases herror
    · exact hfailed herror

theorem constantRegister_serves (value : Word) (width : Nat) :
    Serves (constantRegister value width) (.literal value width) := by
  refine constantOr_serves (fun h => ?_) fun h => ?_
  · split at h
    · cases h
    · split at h
      · exact addConstant_keeps h
      · cases h
  · split at h
    · cases h
      rfl
    · split at h
      · exact addConstant_failed h
      · cases h
        rfl

/-- The key of the register of ones only: a literal as long as there is one. -/
def onesKey (width : Nat) : ConstantKey := if width ≤ 64 then .literal (.ones (max width 1)) width else .ones width

theorem minusOne_serves (width : Nat) : Serves (minusOne width) (onesKey width) := by
  unfold minusOne onesKey
  split
  · exact constantRegister_serves _ _
  · exact constantOr_serves addConstant_keeps addConstant_failed

/-! ## Every call returns what it should -/

/-- What the operation returns is a constant of so many bits, and from then on it returns the same one
without any change of the design. If it fails, nothing is kept. -/
structure Supplies (d : Design) (make : BuildM Register) (width : Nat) (bit : Nat → Bool) : Prop where
  right : ∀ r d', make d = .ok r d' → d'.IsConstant r width bit
  shared : ∀ r d', make d = .ok r d' → ∀ calls, make (performAll calls d') = .ok r (performAll calls d')
  failed : ∀ e d', make d = .error e d' → d'.constants = d.constants

section

variable {make make' : BuildM Register}

theorem Serves.keeps_register (hserves : Serves make key) (hmakes : Makes make) (hd : ConstantsKept d)
    (h : make d = .ok r d') : d'.Keeps key r :=
  ((hmakes.edits h).constantsKept hd).registers key r (hserves.keeps h)

theorem Serves.supplies (hserves : Serves make key) (hmakes : Makes make) (hd : ConstantsKept d) {bit : Nat → Bool}
    (hbit : ∀ i, i < key.width → key.bit i = bit i) : d.Supplies make key.width bit := by
  refine ⟨fun r d' h => ?_, fun r d' h calls => ?_, fun _ _ => hserves.failed⟩
  · exact (hserves.keeps_register hmakes hd h).isConstant hbit
  · exact hserves.kept ((performAll_edits calls d').lookup_constants (hserves.keeps h))

/-- What is returned for another key later on shares no signal. -/
theorem Serves.disjoint (hserves : Serves make key) (hmakes : Makes make) (hserves' : Serves make' key')
    (hmakes' : Makes make') (hd : ConstantsKept d) {d₁ d₂ d₃ : Design} (h : make d = .ok r d₁) (he : Edits d₁ d₂)
    (h' : make' d₂ = .ok r' d₃) (hne : key ≠ key') : ∀ s ∈ r.bits, s ∉ r'.bits := by
  have hlater : Edits d₁ d₃ := he.trans (hmakes'.edits h')
  have hd₂ : ConstantsKept d₂ := he.constantsKept ((hmakes.edits h).constantsKept hd)
  have hfirst : d₃.Keeps key r := (hserves.keeps_register hmakes hd h).mono fun _ _ => hlater.signal?
  exact hfirst.disjoint (hserves'.keeps_register hmakes' hd₂ h') hne

end

/-- The bit of a literal, which has 64 of them. -/
def literalBit (value : Word) (i : Nat) : Bool := decide (i < 64) && value.toNat.testBit i

theorem bit_eq_literalBit (value : Word) (i : Nat) : value.bit i = literalBit value i := by
  unfold Word.bit literalBit
  by_cases hi : i < 64
  · simp [hi]
  · have hlt : value.toNat < 2 ^ i :=
      Nat.lt_of_lt_of_le value.toNat_lt (Nat.pow_le_pow_right (by omega) (by omega))
    simp [hi, Nat.testBit_lt_two_pow hlt]

theorem supplies_constantRegister (hd : ConstantsKept d) (value : Word) (width : Nat) :
    d.Supplies (constantRegister value width) width (literalBit value) :=
  (constantRegister_serves value width).supplies (constantRegister_makes value width) hd fun i _ =>
    bit_eq_literalBit value i

@[simp] theorem width_onesKey (width : Nat) : (onesKey width).width = width := by
  unfold onesKey
  split <;> rfl

theorem bit_onesKey {width i : Nat} (hi : i < width) : (onesKey width).bit i = true := by
  unfold onesKey
  split
  · next hle =>
    show (Word.ones (max width 1)).toNat.testBit i = true
    rw [toNat_ones (by omega), Nat.testBit_two_pow_sub_one]
    exact decide_eq_true (by omega)
  · rfl

theorem supplies_minusOne (hd : ConstantsKept d) (width : Nat) : d.Supplies (minusOne width) width fun _ => true := by
  have h : d.Supplies (minusOne width) (onesKey width).width fun _ => true :=
    (minusOne_serves width).supplies (minusOne_makes width) hd fun i hi => bit_onesKey (width_onesKey width ▸ hi)
  rwa [width_onesKey] at h

theorem minusOne_eq_constantRegister {width : Nat} (hpos : 1 ≤ width) (hle : width ≤ 64) :
    minusOne width = constantRegister (.ofNat (2 ^ width - 1)) width := by
  unfold minusOne
  rw [if_pos hle, Nat.max_eq_left hpos]
  rfl

theorem Reachable.constantsKept (hd : d.Reachable) : ConstantsKept d :=
  hd.invariant ConstantsKept.new fun _ _ => Edit.constantsKept

/-- Whatever constant register is asked for, what is returned is right and shared. -/
structure SuppliesConstants (d : Design) : Prop where
  literal : ∀ value width, d.Supplies (constantRegister value width) width (literalBit value)
  ones : ∀ width, d.Supplies (minusOne width) width fun _ => true

theorem ConstantsKept.suppliesConstants (hd : ConstantsKept d) : d.SuppliesConstants :=
  ⟨supplies_constantRegister hd, supplies_minusOne hd⟩

/-- Constant registers are right, shared and distinct, and no failed operation changes that. -/
theorem constants_right_shared_distinct (hd : d.Reachable) :
    d.SuppliesConstants ∧
    (∀ width, 1 ≤ width → width ≤ 64 → minusOne width = constantRegister (.ofNat (2 ^ width - 1)) width) ∧
    (∀ value width r d₁, constantRegister value width d = .ok r d₁ → ∀ calls value' width' r' d₂,
      constantRegister value' width' (performAll calls d₁) = .ok r' d₂ → (value, width) ≠ (value', width') →
        ∀ s ∈ r.bits, s ∉ r'.bits) ∧
    ∀ (c : Call) e d', c.perform d = .error e d' → ∀ calls, (performAll calls d').SuppliesConstants := by
  have hkept := hd.constantsKept
  refine ⟨hkept.suppliesConstants, fun _ => minusOne_eq_constantRegister, ?_, ?_⟩
  · intro value width r d₁ h calls value' width' r' d₂ h' hne
    refine (constantRegister_serves value width).disjoint (constantRegister_makes value width)
      (constantRegister_serves value' width') (constantRegister_makes value' width') hkept h
      (performAll_edits calls d₁) h' fun heq => hne ?_
    cases heq
    rfl
  · intro c e d' h calls
    have hedits : Edits d d' := after_of_error h ▸ c.makes d
    exact ((performAll_edits calls d').constantsKept (hedits.constantsKept hkept)).suppliesConstants

/-- A design in which the name of a bit was taken, so that the constant was made only in part. -/
def clashing : Design := performAll [.createSignal "const.0x1.w4[2]", .constantRegister 1 4] (.new {})

theorem clashing_right_shared_distinct :
    (∃ e d', (Call.constantRegister 1 4).perform clashing = .error e d' ∧
      ∀ calls, (performAll calls d').SuppliesConstants) ∧
    (∃ r d', constantRegister 5 3 clashing = .ok r d' ∧ r.bits = [⟨3⟩, ⟨4⟩, ⟨5⟩] ∧
      d'.IsConstant r 3 (literalBit 5) ∧ ∃ r' d'', constantRegister 5 4 (performAll [.minusOne 3] d') = .ok r' d'' ∧
        r'.bits = [⟨9⟩, ⟨10⟩, ⟨11⟩, ⟨12⟩] ∧ ∀ s ∈ r.bits, s ∉ r'.bits) ∧
    (∃ r d', minusOne 65 clashing = .ok r d' ∧ d'.IsConstant r 65 fun _ => true) ∧
    minusOne 64 = constantRegister 0xFFFFFFFFFFFFFFFF 64 := by
  obtain ⟨hsupplies, hones, hdistinct, hfailed⟩ := constants_right_shared_distinct (d := clashing) ⟨_, _, rfl⟩
  obtain ⟨e, herror⟩ := eq_error_of_result? (x := (Call.constantRegister 1 4).perform) (s := clashing)
    (by decide +kernel)
  obtain ⟨r, hr, hbits⟩ := eq_ok_of_result? (x := constantRegister 5 3) (s := clashing) (f := Register.bits)
    (b := [⟨3⟩, ⟨4⟩, ⟨5⟩]) (by decide +kernel)
  obtain ⟨r', hr', hbits'⟩ := eq_ok_of_result? (x := constantRegister 5 4)
    (s := performAll [.minusOne 3] (after (constantRegister 5 3) clashing)) (f := Register.bits)
    (b := [⟨9⟩, ⟨10⟩, ⟨11⟩, ⟨12⟩]) (by decide +kernel)
  obtain ⟨wide, hwide, -⟩ := eq_ok_of_result? (x := minusOne 65) (s := clashing) (f := Register.width)
    (b := 65) (by decide +kernel)
  exact ⟨⟨e, _, herror, hfailed _ e _ herror⟩,
    ⟨r, _, hr, hbits, (hsupplies.literal 5 3).right r _ hr, r', _, hr', hbits',
      hdistinct 5 3 r _ hr [.minusOne 3] 5 4 r' _ hr' (by decide)⟩,
    ⟨wide, _, hwide, (hsupplies.ones 65).right wide _ hwide⟩, hones 64 (by decide) (by decide)⟩

end Design

end SignalGraph
