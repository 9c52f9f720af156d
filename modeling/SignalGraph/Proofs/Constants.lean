/-
Constants of a design.

The constant `false` and the constant registers are kept beside the tables. Those that are kept
are made of the signals that their key asks for (`ConstantsKept`), so in a valuation in which
constants have their values (`ConstantsHold`) a constant register holds its number.
-/
import SignalGraph.Proofs.Numbers
import SignalGraph.Proofs.WellFormed

namespace SignalGraph

namespace Design

/-! ## What is kept -/

/-- What is kept for reuse is what its name says. -/
structure ConstantsKept (d : Design) : Prop where
  zero : ∀ s, d.zero = some s → d.signal? s = some ⟨"const.zero", false, true⟩
  registers : ∀ key r, d.constants.lookup key = some r → d.Keeps key r

theorem Keeps.mono {d d' : Design} {key : ConstantKey} {r : Register} (h : d.Keeps key r)
    (hsig : ∀ s info, d.signal? s = some info → d'.signal? s = some info) : d'.Keeps key r :=
  ⟨h.name, h.width, fun i s hs => hsig _ _ (h.bits i s hs)⟩

/-- Entries of the table of signals stay. -/
theorem Edit.signal? {d d' : Design} (he : Edit d d') {s : SignalId} {info : SignalInfo}
    (h : d.signal? s = some info) : d'.signal? s = some info := by
  cases he with
  | signal info' _ => exact pushSignal_signal? info' h
  | scope | zero | constant | state | action | transition | default => exact h

theorem Edit.constantsKept {d d' : Design} (he : Edit d d') (h : ConstantsKept d) : ConstantsKept d' := by
  have hkeep : ∀ key r, d.constants.lookup key = some r → d'.Keeps key r := fun key r hr =>
    (h.registers key r hr).mono fun _ _ => he.signal?
  cases he with
  | signal info _ => exact ⟨fun s hs => pushSignal_signal? info (h.zero s hs), hkeep⟩
  | scope | state | action | transition | default => exact ⟨h.zero, hkeep⟩
  | zero _ hs =>
    refine ⟨fun s' hs' => ?_, hkeep⟩
    cases hs'
    exact hs
  | constant _ hr =>
    refine ⟨h.zero, fun key' r' hr' => ?_⟩
    simp only [List.lookup_cons] at hr'
    split at hr'
    · next hk =>
      cases hr'
      obtain rfl := beq_iff_eq.mp hk
      exact hr.mono fun _ _ hs => hs
    · exact hkeep key' r' hr'

theorem Edits.signal? {d d' : Design} (h : Edits d d') {s : SignalId} {info : SignalInfo}
    (hs : d.signal? s = some info) : d'.signal? s = some info :=
  h.invariant (I := fun d => d.signal? s = some info) (fun _ _ he => he.signal?) hs

theorem Edits.constantsKept {d d' : Design} (h : Edits d d') (hd : ConstantsKept d) : ConstantsKept d' :=
  h.invariant (fun _ _ => Edit.constantsKept) hd

theorem ConstantsKept.new (settings : DesignSettings) : ConstantsKept (.new settings) :=
  ⟨fun _ hs => by simp [Design.new] at hs, fun _ _ hr => by simp [Design.new] at hr⟩

/-! ## Asking for constants -/

theorem zeroSignal_ok {s : SignalId} {d d' : Design} (hd : ConstantsKept d) (h : zeroSignal d = .ok s d') :
    d'.states = d.states ∧ d'.signal? s = some ⟨"const.zero", false, true⟩ := by
  unfold zeroSignal at h
  split at h
  · next hz =>
    cases h
    exact ⟨rfl, hd.zero _ hz⟩
  · simp only [addZero, bind_eq_ok, addSignal_eq_ok, modify_eq_ok, pure_eq_ok] at h
    obtain ⟨_, _, ⟨-, rfl, rfl⟩, _, _, rfl, rfl, rfl⟩ := h
    exact ⟨rfl, by simp [signal?, pushSignal]⟩

theorem addConstant_ok {key : ConstantKey} {r : Register} {d d' : Design}
    (h : addConstant key key.width key.bit d = .ok r d') : d'.states = d.states ∧ d'.Keeps key r := by
  simp only [addConstant, bind_eq_ok, modify_eq_ok, pure_eq_ok] at h
  obtain ⟨_, d₁, h, _, _, rfl, rfl, rfl⟩ := h
  refine ⟨?_, (keeps_addBits h).mono fun _ _ hs => hs⟩
  rw [(addBits_ok h).2]

theorem constantOr_ok {key : ConstantKey} {make : BuildM Register} {r : Register} {d d' : Design}
    (hd : ConstantsKept d) (h : constantOr key make d = .ok r d')
    (hmake : make d = .ok r d' → d'.states = d.states ∧ d'.Keeps key r) :
    d'.states = d.states ∧ d'.Keeps key r := by
  unfold constantOr at h
  split at h
  · next hk =>
    cases h
    exact ⟨rfl, hd.registers _ _ hk⟩
  · exact hmake h

theorem constantRegister_ok {value : Word} {width : Nat} {r : Register} {d d' : Design} (hd : ConstantsKept d)
    (h : constantRegister value width d = .ok r d') :
    d'.states = d.states ∧ d'.Keeps (.literal value width) r := by
  refine constantOr_ok hd h fun h => ?_
  split at h
  · cases throw_eq_ok.mp h
  · split at h
    · exact @addConstant_ok (.literal value width) _ _ _ h
    · cases throw_eq_ok.mp h

end Design

/-! ## Their values -/

/-- The constants of the table have their values. -/
def ConstantsHold (signals : Array SignalInfo) (v : Valuation) : Prop :=
  ∀ (s : SignalId) (info : SignalInfo), signals[s.index]? = some info → info.constant = true → v s = info.initial

theorem ConstantsHold.initial (signals : Array SignalInfo) :
    ConstantsHold signals (.ofArray (signals.map SignalInfo.initial)) := by
  intro s info hs _
  simp [Valuation.ofArray, hs]

namespace Design

theorem not_writable_of_constant {d : Design} {s : SignalId} {info : SignalInfo} (hs : d.signal? s = some info)
    (hc : info.constant = true) : ¬ d.Writable s := by
  rintro ⟨info', hs', hc'⟩
  cases hs.symm.trans hs'
  rw [hc] at hc'
  cases hc'

theorem Keeps.value {d : Design} {key : ConstantKey} {r : Register} (h : d.Keeps key r) {v : Valuation}
    (hv : ConstantsHold d.signals v) {i : Nat} {s : SignalId} (hs : r.bits[i]? = some s) : v s = key.bit i :=
  hv s _ (h.bits i s hs) rfl

/-- The signals are in the table. -/
def Knows (d : Design) (bits : List SignalId) : Prop := ∀ s ∈ bits, s.index < d.signals.size

instance (d : Design) (bits : List SignalId) : Decidable (d.Knows bits) :=
  inferInstanceAs (Decidable (∀ s ∈ bits, s.index < d.signals.size))

@[simp] theorem knows_nil (d : Design) : d.Knows [] := fun _ hs => by cases hs

@[simp] theorem knows_cons {d : Design} {s : SignalId} {bits : List SignalId} :
    d.Knows (s :: bits) ↔ s.index < d.signals.size ∧ d.Knows bits := List.forall_mem_cons

@[simp] theorem knows_append {d : Design} {as bs : List SignalId} :
    d.Knows (as ++ bs) ↔ d.Knows as ∧ d.Knows bs := List.forall_mem_append

theorem Keeps.knows {d : Design} {key : ConstantKey} {r : Register} (h : d.Keeps key r) : d.Knows r.bits := by
  intro s hs
  obtain ⟨i, hi⟩ := List.getElem?_of_mem hs
  exact signal?_lt (h.bits i s hi)

theorem Keeps.not_writable {d : Design} {key : ConstantKey} {r : Register} (h : d.Keeps key r) {s : SignalId}
    (hs : s ∈ r.bits) : ¬ d.Writable s := by
  obtain ⟨i, hi⟩ := List.getElem?_of_mem hs
  exact not_writable_of_constant (h.bits i s hi) rfl

theorem Keeps.number_literal {d : Design} {value : Word} {width : Nat} {r : Register}
    (h : d.Keeps (.literal value width) r) {v : Valuation} (hv : ConstantsHold d.signals v) :
    number v r.bits = value.toNat % 2 ^ width := by
  rw [number_eq_of_testBit fun i s hs => h.value hv hs, h.width]
  rfl

theorem toNat_ones {width : Nat} (h : width ≤ 64) : (Word.ones width).toNat = 2 ^ width - 1 := by
  have hpos := Nat.two_pow_pos width
  have hle := Nat.pow_le_pow_right (show 0 < 2 by omega) h
  show (2 ^ width - 1) % 2 ^ 64 = 2 ^ width - 1
  exact Nat.mod_eq_of_lt (by omega)

/-- Ones only are one less than the power of two, as a literal or in more bits than one has. -/
theorem minusOne_ok {width : Nat} {r : Register} {d d' : Design} (hd : ConstantsKept d)
    (h : minusOne width d = .ok r d') :
    d'.states = d.states ∧ (∃ key, d'.Keeps key r) ∧
      ∀ v, ConstantsHold d'.signals v → number v r.bits = 2 ^ width - 1 := by
  have hlt : 2 ^ width - 1 < 2 ^ width := Nat.sub_lt (Nat.two_pow_pos width) Nat.one_pos
  unfold minusOne at h
  split at h
  · next hle =>
    obtain ⟨hstates, hkeeps⟩ := constantRegister_ok hd h
    refine ⟨hstates, ⟨_, hkeeps⟩, fun v hv => ?_⟩
    rw [hkeeps.number_literal hv, toNat_ones (by omega)]
    rcases Nat.eq_zero_or_pos width with rfl | hpos
    · rfl
    · rw [Nat.max_eq_left hpos, Nat.mod_eq_of_lt hlt]
  · obtain ⟨hstates, hkeeps⟩ := constantOr_ok hd h fun h => @addConstant_ok (.ones width) _ _ _ h
    have hwidth : r.bits.length = width := hkeeps.width
    refine ⟨hstates, ⟨_, hkeeps⟩, fun v hv => ?_⟩
    have hbits : ∀ (i : Nat) (s : SignalId), r.bits[i]? = some s → v s = (2 ^ width - 1).testBit i := by
      intro i s hs
      have hi : i < width := hwidth ▸ (List.getElem?_eq_some_iff.mp hs).1
      rw [hkeeps.value hv hs, Nat.testBit_two_pow_sub_one]
      exact (decide_eq_true hi).symm
    rw [number_eq_of_testBit hbits, hwidth, Nat.mod_eq_of_lt hlt]

end Design

end SignalGraph
