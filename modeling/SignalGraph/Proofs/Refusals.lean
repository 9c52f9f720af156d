/-
Writes to a register that are refused.

A literal that does not fit is refused before anything is written. A signal that cannot be written is found
only when it is its turn, and by then the signals before it are written (`setRegister_eq_error`): the machine
is as if a load of these had been entered. So the write leaves a trace, unless what it wrote was there.
-/
import Mathlib.Data.List.TakeWhile
import SignalGraph.Proofs.Histories
import SignalGraph.Proofs.Registers

namespace SignalGraph

/-! ## Signals that cannot be written -/

namespace Program

variable {p : Program} {s : SignalId}

/-- Why the signal cannot be written. -/
def refusal? (p : Program) (s : SignalId) : Option RunError :=
  match p.signal? s with
  | none => some (.unknownSignal s)
  | some info => if info.constant then some (.constantWrite info.name) else none

theorem refusal?_eq_none : p.refusal? s = none ↔ p.Writable s := by
  unfold refusal? Writable
  cases hs : p.signal? s with
  | none => simp
  | some info => by_cases hc : info.constant = true <;> simp [hc]

/-- The signals before the first that cannot be written. -/
def accepted (p : Program) (bits : List SignalId) : List SignalId := bits.takeWhile fun s => (p.refusal? s).isNone

theorem writable_of_mem_accepted {bits : List SignalId} (h : s ∈ p.accepted bits) : p.Writable s := by
  have hnone := List.mem_takeWhile_imp h
  exact refusal?_eq_none.mp (by simpa using hnone)

theorem accepted_append {before rest : List SignalId} {e : RunError} (hbefore : ∀ t ∈ before, p.refusal? t = none)
    (hs : p.refusal? s = some e) : p.accepted (before ++ s :: rest) = before := by
  rw [accepted, List.takeWhile_append_of_pos fun t ht => by simp [hbefore t ht],
    List.takeWhile_cons_of_neg (by simp [hs]), List.append_nil]

end Program

/-! ## Places -/

/-- The signal is at the place in the list, and at no later one. -/
def LastAt (bits : List SignalId) (i : Nat) (s : SignalId) : Prop := bits[i]? = some s ∧ s ∉ bits.drop (i + 1)

theorem exists_lastAt {s : SignalId} : ∀ {bits : List SignalId}, s ∈ bits → ∃ i, LastAt bits i s
  | t :: rest, h => by
    by_cases hrest : s ∈ rest
    · obtain ⟨i, hi, hlast⟩ := exists_lastAt hrest
      exact ⟨i + 1, by simpa using hi, hlast⟩
    · obtain rfl := (List.mem_cons.mp h).resolve_right hrest
      exact ⟨0, rfl, hrest⟩

namespace Machine

variable {p : Program} {m m' : Machine} {r : Register} {value : Word} {e : RunError}

/-! ## Where a write stops -/

theorem setSignal_eq_error {s : SignalId} {b : Bool} :
    setSignal s b m = .error e m' ↔ m.program.refusal? s = some e ∧ m = m' := by
  unfold setSignal Program.refusal?
  cases hs : m.program.signal? s with
  | none => simp
  | some info => by_cases hc : info.constant = true <;> simp [hc]

theorem writable_of_writeBits : ∀ {bits : List (SignalId × Nat)} {m m' : Machine},
    (bits.forM fun (bit, i) => setSignal bit (value.bit i)) m = .ok () m' → ∀ x ∈ bits, m.program.Writable x.1
  | [], _, _, _ => by simp
  | y :: bits, m, m', h => by
    obtain ⟨m₁, hy, hrest⟩ := forM_cons_eq_ok.mp h
    rcases setSignal_cases y.1 (value.bit y.2) m with ⟨e, herror⟩ | ⟨info, hs, hc, hok⟩
    · cases herror.symm.trans hy
    · cases hok.symm.trans hy
      have hrest := writable_of_writeBits hrest
      exact List.forall_mem_cons.mpr ⟨⟨info, hs, hc⟩, hrest⟩

/-- A literal that fits is written up to the first signal that cannot be written. -/
theorem writeBits_eq_error {bits : List SignalId} :
    (bits.zipIdx.forM fun (bit, i) => setSignal bit (value.bit i)) m = .error e m' ↔
      bits.findSome? m.program.refusal? = some e ∧
      m' = m.fire (Block.loadCode (m.program.accepted bits) value).last := by
  rw [forM_eq_error, List.findSome?_eq_some_iff]
  refine ⟨fun h => ?_, fun h => ?_⟩
  · obtain ⟨written, x, rest, m₁, hzip, hwritten, hx⟩ := h
    obtain ⟨before, tail, rfl, rfl, htail⟩ := List.zipIdx_eq_append_iff.mp hzip
    obtain ⟨s, rest, rfl, rfl, -⟩ := List.zipIdx_eq_cons_iff.mp htail.symm
    have hwritable := writable_of_writeBits hwritten
    cases (writeBits_of_writable value hwritable).symm.trans hwritten
    obtain ⟨hs, rfl⟩ := setSignal_eq_error.mp hx
    have hbefore : ∀ t ∈ before, m.program.refusal? t = none := fun t ht => by
      obtain ⟨i, hi⟩ := List.mem_iff_getElem?.mp ht
      exact Program.refusal?_eq_none.mpr (hwritable (t, i) (List.mem_zipIdx_iff_getElem?.mpr hi))
    exact ⟨⟨before, s, rest, rfl, hs, hbefore⟩, by rw [Program.accepted_append hbefore hs]; rfl⟩
  · obtain ⟨⟨before, s, rest, rfl, hs, hbefore⟩, rfl⟩ := h
    rw [Program.accepted_append hbefore hs]
    refine ⟨before.zipIdx, (s, before.length), rest.zipIdx (before.length + 1), _, ?_,
      writeBits_of_writable value fun x hx => ?_, setSignal_eq_error.mpr ⟨hs, rfl⟩⟩
    · rw [List.zipIdx_append, Nat.zero_add, List.zipIdx_cons]
    · exact Program.refusal?_eq_none.mp (hbefore x.1 (List.fst_mem_of_mem_zipIdx hx))

theorem setRegister_eq_error : setRegister r value m = .error e m' ↔
    (2 ^ r.width ≤ value.toNat ∧ e = .valueTooWide value r.width ∧ m' = m) ∨
    (value.toNat < 2 ^ r.width ∧ r.bits.findSome? m.program.refusal? = some e ∧
      m' = m.fire (Block.loadCode (m.program.accepted r.bits) value).last) := by
  by_cases hfits : value.toNat < 2 ^ r.width
  · rw [setRegister, if_pos (Word.fits_iff.mpr hfits), writeBits_eq_error]
    simp [hfits]
  · rw [setRegister_of_too_wide (Nat.le_of_not_lt hfits)]
    simp [hfits, Nat.le_of_not_lt hfits, eq_comm]

theorem setRegister_refused_iff : (∃ e m', setRegister r value m = .error e m') ↔
    2 ^ r.width ≤ value.toNat ∨ ∃ s ∈ r.bits, ¬ m.program.Writable s := by
  simp only [setRegister_eq_error, ← Program.refusal?_eq_none]
  by_cases hfits : value.toNat < 2 ^ r.width
  · simp only [hfits, Nat.not_le.mpr hfits, false_and, true_and, false_or, exists_and_left, exists_eq, and_true]
    rw [← Option.isSome_iff_exists, List.findSome?_isSome_iff]
    simp only [Option.isSome_iff_ne_none, ne_eq]
  · simp [hfits, Nat.le_of_not_lt hfits]

/-! ## What a refused write leaves -/

/-- Signals that a load writes have the bit of their last place, and nothing changes if they had it before. -/
theorem fire_load {bits : List SignalId} (hsize : m.values.size = m.program.signals.size)
    (hbits : ∀ s ∈ bits, m.program.Writable s) (hm' : m' = m.fire (Block.loadCode bits value).last) :
    (∀ s, s ∉ bits → m'.valuation s = m.valuation s) ∧ (∀ i s, LastAt bits i s → m'.valuation s = value.bit i) ∧
    (m' = m ↔ ∀ i s, LastAt bits i s → m.valuation s = value.bit i) := by
  have hvaluation : m'.valuation = (Block.loadCode bits value).exec m.valuation := by
    rw [hm', valuation_fire_load hsize hbits]
  have hothers : ∀ s, s ∉ bits → m'.valuation s = m.valuation s := fun s hs => by
    rw [hvaluation, Block.exec_loadCode_of_not_mem hs]
  have hwritten : ∀ i s, LastAt bits i s → m'.valuation s = value.bit i := fun i s hs => by
    rw [hvaluation, Block.loadCode, Code.exec_single, Block.after_drives hs.1 hs.2, Nat.zero_add]
  refine ⟨hothers, hwritten, fun h i s hs => h ▸ hwritten i s hs, fun h => ?_⟩
  have hvalues : m'.values = m.values := by
    refine Valuation.eq_of_eqOn (by rw [hm']; exact size_foldl_fire _ _) fun s _ => ?_
    by_cases hs : s ∈ bits
    · obtain ⟨i, hi⟩ := exists_lastAt hs
      exact (hwritten i s hi).trans (h i s hi).symm
    · exact hothers s hs
  rw [hm'] at hvalues ⊢
  exact congrArg (fun values => { m with values }) hvalues

/-- **What a refused write leaves.** A write is refused just when its literal does not fit or a signal of the
register does not exist or is constant. It never changes the state or the history. If the literal does not fit,
nothing changes. Else the error is about the first signal that cannot be written; the signals before it are
written, each with the bit of its last place among them, and others are as they were. So nothing changes
just when these signals had these bits before, as when the first signal cannot be written. -/
theorem refused_write_changes_nothing_iff (hm : Reachable p m) (r : Register) (value : Word) :
    ((∃ e m', setRegister r value m = .error e m') ↔ 2 ^ r.width ≤ value.toNat ∨ ∃ s ∈ r.bits, ¬ p.Writable s) ∧
    ∀ e m', setRegister r value m = .error e m' → Rewritten m m' ∧
      ((2 ^ r.width ≤ value.toNat ∧ e = .valueTooWide value r.width ∧ m' = m) ∨
        (value.toNat < 2 ^ r.width ∧ r.bits.findSome? p.refusal? = some e ∧
          (∀ s, s ∉ p.accepted r.bits → m'.valuation s = m.valuation s) ∧
          (∀ i s, LastAt (p.accepted r.bits) i s → m'.valuation s = value.bit i) ∧
          (m' = m ↔ ∀ i s, LastAt (p.accepted r.bits) i s → m.valuation s = value.bit i))) := by
  obtain ⟨rfl, hsize⟩ := hm.sized
  refine ⟨setRegister_refused_iff, fun e m' h => ⟨after_of_error h ▸ setRegister_rewritten r value m, ?_⟩⟩
  rcases setRegister_eq_error.mp h with hwide | ⟨hfits, hrefusal, hm'⟩
  · exact .inl hwide
  · exact .inr ⟨hfits, hrefusal, fire_load hsize (fun s hs => Program.writable_of_mem_accepted hs) hm'⟩

/-- A program with one signal. -/
def lone : Program := ⟨#[⟨"x", false, false⟩], #[{ label := "only" }], ⟨0⟩, ⟨0⟩⟩

/-- The signal is written with `true` and then with `false`, which it had before the write was refused. -/
theorem lone_changes_nothing : ∃ m', setRegister ⟨"n", [⟨0⟩, ⟨0⟩, ⟨1⟩]⟩ 1 (.new lone) = .error (.unknownSignal ⟨1⟩) m' ∧
    m' = .new lone := by
  have hnew : Reachable lone (.new lone) := ⟨{}, [], rfl⟩
  obtain ⟨hrefused, hleft⟩ := refused_write_changes_nothing_iff hnew ⟨"n", [⟨0⟩, ⟨0⟩, ⟨1⟩]⟩ 1
  have hunknown : ¬ lone.Writable ⟨1⟩ := fun h => absurd h.lt (by decide)
  obtain ⟨e, m', h⟩ := hrefused.mpr (.inr ⟨⟨1⟩, by decide, hunknown⟩)
  rcases (hleft e m' h).2 with ⟨hwide, -⟩ | ⟨-, hrefusal, -, -, hsame⟩
  · exact absurd hwide (by decide)
  · cases hrefusal
    refine ⟨m', h, hsame.mpr fun i s hs => ?_⟩
    have haccepted : lone.accepted [⟨0⟩, ⟨0⟩, ⟨1⟩] = [⟨0⟩, ⟨0⟩] := rfl
    rw [haccepted] at hs
    obtain ⟨hplace, hlast⟩ := hs
    rcases i with _ | _ | i
    · cases hplace
      exact absurd (by decide) hlast
    · cases hplace
      decide +kernel
    · cases hplace

/-- The first bit stays written when the second is refused. -/
theorem lone_keeps_first_bit : ∃ m', setRegister ⟨"n", [⟨0⟩, ⟨1⟩]⟩ 1 (.new lone) = .error (.unknownSignal ⟨1⟩) m' ∧
    valuation (.new lone) ⟨0⟩ = false ∧ m'.valuation ⟨0⟩ = true :=
  ⟨_, rfl, by decide +kernel, by decide +kernel⟩

end Machine

end SignalGraph
