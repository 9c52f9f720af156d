/-
Writing and reading the registers of a machine.

To write a register is to drive its signals, as entering the state of a load does
(`writeBits_of_writable`), so what is known of loading is known of writing. A register is read as the
number in its signals, of which a literal has the lowest 64 bits (`toNat_readRegister`). The number that
was written is the number that is there, and with it the literal, whatever the width is.
-/
import SignalGraph.Proofs.Faults
import SignalGraph.Proofs.Reruns

namespace SignalGraph

/-! ## Literals in signals -/

theorem number_take (v : Valuation) (bits : List SignalId) (n : Nat) :
    number v (bits.take n) = number v bits % 2 ^ n := by
  have hlow : number v (bits.take n) = number v bits % 2 ^ (bits.take n).length := by
    refine number_eq_of_testBit fun i s hs => (testBit_number v ?_).symm
    rw [List.getElem?_take] at hs
    exact (Option.ite_none_right_eq_some.mp hs).2
  rw [hlow, List.length_take]
  rcases Nat.le_total n bits.length with h | h
  · rw [Nat.min_eq_left h]
  · have hlt := number_lt v bits
    rw [Nat.min_eq_right h, Nat.mod_eq_of_lt hlt,
      Nat.mod_eq_of_lt (Nat.lt_of_lt_of_le hlt (Nat.pow_le_pow_right (by omega) h))]

theorem Word.toNat_ofBits_map (v : Valuation) {bits : List SignalId} (h : bits.length ≤ 64) :
    (Word.ofBits (bits.map v)).toNat = number v bits := by
  have hfold : (bits.map v).foldr (fun b n => b.toNat + 2 * n) 0 = number v bits := by
    induction bits with
    | nil => rfl
    | cons s rest ih =>
      rw [List.map_cons, List.foldr_cons, ih (by simp at h; omega), number]
  rw [Word.ofBits, hfold, Word.toNat_ofNat_of_lt_pow h (number_lt v bits)]

/-- The signal exists and is not constant. -/
def Program.Writable (p : Program) (s : SignalId) : Prop := ∃ info, p.signal? s = some info ∧ info.constant = false

theorem Program.Writable.lt {p : Program} {s : SignalId} (h : p.Writable s) : s.index < p.signals.size := by
  obtain ⟨_, hs, -⟩ := h
  exact (Array.getElem?_eq_some_iff.mp hs).1

namespace Machine

variable {p : Program} {m : Machine} {r : Register} {value : Word}

theorem toNat_readRegister (m : Machine) (r : Register) :
    (m.readRegister r).toNat = r.value m.valuation % 2 ^ 64 := by
  rw [readRegister, Register.word, Word.toNat_ofBits_map _ (by simp), number_take, Register.value_eq]

/-- Machines have a value for each signal of their program, whatever the program is. -/
theorem Reachable.sized (h : Reachable p m) : m.program = p ∧ m.values.size = p.signals.size := by
  refine h.invariant (I := fun m => m.program = p ∧ m.values.size = p.signals.size)
    (fun _ => ⟨rfl, Array.size_map⟩) fun m m' hmove hm => ?_
  cases hmove with
  | write => exact ⟨hm.1, Array.size_setIfInBounds.trans hm.2⟩
  | start hs =>
    refine ⟨(start_program m).trans hm.1, ?_⟩
    unfold start
    rw [if_neg (by simp [hs])]
    exact (size_foldl_fire _ _).trans hm.2
  | take => exact ⟨hm.1, (size_foldl_fire _ _).trans hm.2⟩
  | restart => exact hm

/-! ## Writing -/

/-- The machine after some actions. -/
def fire (actions : List Action) (m : Machine) : Machine := { m with values := actions.foldl Action.fire m.values }

theorem setSignal_of_writable {s : SignalId} (h : m.program.Writable s) (b : Bool) :
    setSignal s b m = .ok () (m.fire [.drive s b]) := by
  obtain ⟨info, hs, hc⟩ := h
  simp only [setSignal, hs, hc]
  rfl

/-- Writing signals drives them, one after the other. -/
theorem writeBits_of_writable (value : Word) : ∀ {bits : List (SignalId × Nat)} {m : Machine},
    (∀ e ∈ bits, m.program.Writable e.1) →
    (bits.forM fun (bit, i) => setSignal bit (value.bit i)) m =
      .ok () (m.fire (bits.map fun e => .drive e.1 (value.bit e.2)))
  | [], _, _ => rfl
  | e :: bits, m, h => by
    rw [List.forall_mem_cons] at h
    exact forM_cons_eq_ok.mpr ⟨_, setSignal_of_writable h.1 _, writeBits_of_writable value h.2⟩

theorem setRegister_of_fits (hbits : ∀ s ∈ r.bits, m.program.Writable s) (h : value.toNat < 2 ^ r.width) :
    setRegister r value m = .ok () (m.fire (Block.loadCode r.bits value).last) := by
  unfold setRegister
  rw [if_pos (Word.fits_iff.mpr h)]
  exact writeBits_of_writable value fun e he => hbits e.1 (List.fst_mem_of_mem_zipIdx he)

theorem setRegister_of_too_wide (h : 2 ^ r.width ≤ value.toNat) :
    setRegister r value m = .error (.valueTooWide value r.width) m := by
  unfold setRegister
  rw [if_neg fun hfits => absurd (Word.fits_iff.mp hfits) (Nat.not_lt.mpr h)]
  rfl

theorem valuation_fire_load {bits : List SignalId} (hsize : m.values.size = m.program.signals.size)
    (hbits : ∀ s ∈ bits, m.program.Writable s) :
    (m.fire (Block.loadCode bits value).last).valuation = (Block.loadCode bits value).exec m.valuation := by
  refine Valuation.ofArray_foldl_fire fun a ha => ?_
  obtain ⟨e, he, rfl⟩ := List.mem_map.mp ha
  rw [hsize]
  exact (hbits e.1 (List.fst_mem_of_mem_zipIdx he)).lt

/-- A literal that fits is the number in the register when it was written, and other signals are as they were. -/
theorem setRegister_writes (hsize : m.values.size = m.program.signals.size) (hnodup : r.bits.Nodup)
    (hbits : ∀ s ∈ r.bits, m.program.Writable s) (h : value.toNat < 2 ^ r.width) :
    ∃ m', setRegister r value m = .ok () m' ∧ m' = { m with values := m'.values } ∧ m'.values.size = m.values.size ∧
      number m'.valuation r.bits = value.toNat ∧ ∀ s, s ∉ r.bits → m'.valuation s = m.valuation s := by
  refine ⟨_, setRegister_of_fits hbits h, rfl, size_foldl_fire _ _, ?_⟩
  rw [valuation_fire_load hsize hbits]
  obtain ⟨hnumber, hothers⟩ := Block.exec_loadCode hnodup value m.valuation
  exact ⟨hnumber.trans (Nat.mod_eq_of_lt h), hothers⟩

/-! ## Writing and reading -/

/-- **Writing a register and reading it are inverse.** Take a register of different signals that exist and
are not constant. A literal is refused just when it does not fit. Else it is written: the register reads
as the literal, its bits from 64 on are `false`, and other signals are as they were. What is read is the
number in the register modulo `2 ^ 64`, and if the register is not wider than a literal, writing what was
read changes nothing. -/
theorem setRegister_readRegister_inverse (hm : Reachable p m) (hnodup : r.bits.Nodup)
    (hbits : ∀ s ∈ r.bits, p.Writable s) :
    (∀ value : Word,
      ((∃ m', setRegister r value m = .error (.valueTooWide value r.width) m') ↔ 2 ^ r.width ≤ value.toNat) ∧
      (value.toNat < 2 ^ r.width → ∃ m', setRegister r value m = .ok () m' ∧ m'.readRegister r = value ∧
        (∀ i s, 64 ≤ i → r.bits[i]? = some s → m'.valuation s = false) ∧
        ∀ s, s ∉ r.bits → m'.valuation s = m.valuation s)) ∧
    (m.readRegister r).toNat = r.value m.valuation % 2 ^ 64 ∧
    (r.width ≤ 64 → setRegister r (m.readRegister r) m = .ok () m) := by
  obtain ⟨rfl, hsize⟩ := hm.sized
  refine ⟨fun value => ⟨⟨fun h => ?_, fun h => ⟨m, setRegister_of_too_wide h⟩⟩, fun h => ?_⟩,
    toNat_readRegister m r, fun hwidth => ?_⟩
  · obtain ⟨m', h⟩ := h
    refine Nat.le_of_not_lt fun hlt => ?_
    cases (setRegister_of_fits hbits hlt).symm.trans h
  · obtain ⟨m', hset, -, -, hnumber, hothers⟩ := setRegister_writes hsize hnodup hbits h
    refine ⟨m', hset, UInt64.toNat_inj.mp ?_, fun i s hi hs => ?_, hothers⟩
    · rw [toNat_readRegister, Register.value_eq, hnumber, Nat.mod_eq_of_lt value.toNat_lt]
    · rw [← testBit_number m'.valuation hs, hnumber]
      exact Nat.testBit_lt_two_pow (Nat.lt_of_lt_of_le value.toNat_lt (Nat.pow_le_pow_right (by omega) hi))
  · have hread : (m.readRegister r).toNat = number m.valuation r.bits := by
      have hlt := Nat.lt_of_lt_of_le (number_lt m.valuation r.bits) (Nat.pow_le_pow_right (show 0 < 2 by omega) hwidth)
      rw [toNat_readRegister, Register.value_eq, Nat.mod_eq_of_lt hlt]
    obtain ⟨m', hset, hm', hsize', hnumber, hothers⟩ :=
      setRegister_writes hsize hnodup hbits (hread ▸ number_lt m.valuation r.bits)
    -- The same number in the same signals: all values are as they were.
    have hsame : m'.values = m.values := Valuation.eq_of_eqOn hsize' fun s _ => by
      by_cases hs : s ∈ r.bits
      · exact eq_of_number_eq (hnumber.trans hread) s hs
      · exact hothers s hs
    rw [hset, hm', hsame]

/-- A program with 66 signals, all `true` at first. -/
def bank : Program := ⟨.replicate 66 ⟨"x", true, false⟩, #[{ label := "only" }], ⟨0⟩, ⟨0⟩⟩

/-- All signals of the program, the last one lowest. -/
def mirrored : Register := ⟨"n", (Design.handles 0 66).reverse⟩

def crossed : Register := ⟨"m", [⟨9⟩, ⟨3⟩]⟩

theorem bank_setRegister_readRegister :
    (∃ m', setRegister mirrored 5 (.new bank) = .ok () m' ∧ m'.readRegister mirrored = 5 ∧
      m'.valuation ⟨1⟩ = false ∧ m'.valuation ⟨0⟩ = false) ∧
    (∃ m', setRegister crossed 4 (.new bank) = .error (.valueTooWide 4 2) m') ∧
    setRegister crossed (readRegister (.new bank) crossed) (.new bank) = .ok () (.new bank) := by
  have hnew : Reachable bank (.new bank) := ⟨{}, [], rfl⟩
  have hwritable : ∀ s : SignalId, s.index < 66 → bank.Writable s := fun s hs =>
    ⟨⟨"x", true, false⟩, by simp [Program.signal?, bank, hs], rfl⟩
  have hmirrored : ∀ s ∈ mirrored.bits, bank.Writable s := fun s hs =>
    hwritable s (by simpa using (Design.mem_handles.mp (List.mem_reverse.mp hs)).2)
  have hcrossed : ∀ s ∈ crossed.bits, bank.Writable s := fun s hs => hwritable s (by revert s; decide)
  obtain ⟨m', hset, hread, hhigh, -⟩ := ((setRegister_readRegister_inverse hnew
    (List.nodup_reverse.mpr (Design.nodup_handles 0 66)) hmirrored).1 5).2 (by decide)
  obtain ⟨hwrite, -, hsame⟩ := setRegister_readRegister_inverse hnew (by decide) hcrossed
  exact ⟨⟨m', hset, hread, hhigh 64 _ (by decide) rfl, hhigh 65 _ (by decide) rfl⟩,
    (hwrite 4).1.mpr (by decide), hsame (by decide)⟩

end Machine

end SignalGraph
