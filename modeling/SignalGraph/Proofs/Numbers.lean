/-
Numbers in signals.

A list of signals holds a number in binary, the lowest bit first. `testBit_number` reads
its bits back, and with `number_lt` that is all that is ever used of it: two numbers are
compared bit by bit, or by arithmetic modulo the width's power of two.
-/
import Mathlib.Tactic.Ring
import SignalGraph.Register

namespace SignalGraph

/-- The number that a valuation puts into some signals, the lowest bit first. -/
def number (v : Valuation) : List SignalId → Nat
  | [] => 0
  | s :: rest => (v s).toNat + 2 * number v rest

theorem Register.value_eq (r : Register) (v : Valuation) : r.value v = number v r.bits := by
  unfold Register.value
  induction r.bits with
  | nil => rfl
  | cons s rest ih => rw [List.foldr_cons, ih, number]

/-- A number of at most 64 bits is that of its word. -/
theorem Word.toNat_ofNat_of_lt_pow {n width : Nat} (hwidth : width ≤ 64) (hn : n < 2 ^ width) :
    (UInt64.ofNat n).toNat = n :=
  UInt64.toNat_ofNat_of_lt' (Nat.lt_of_lt_of_le hn (Nat.pow_le_pow_right (by omega) hwidth))

theorem Register.disjoint_of_overlaps {r s : Register} (h : r.overlaps s = false) : ∀ b ∈ r.bits, b ∉ s.bits := by
  intro b hb hmem
  simp only [overlaps, List.any_eq_false, List.contains_iff_mem] at h
  exact h b hb hmem

theorem Register.overlaps_of_disjoint {r s : Register} (h : ∀ b ∈ r.bits, b ∉ s.bits) : r.overlaps s = false := by
  simpa [overlaps] using h

theorem number_lt (v : Valuation) (bits : List SignalId) : number v bits < 2 ^ bits.length := by
  induction bits with
  | nil => simp [number]
  | cons s rest ih =>
    have hs := (v s).toNat_lt
    rw [number, List.length_cons, pow_succ]
    omega

theorem testBit_number (v : Valuation) {bits : List SignalId} {i : Nat} {s : SignalId}
    (h : bits[i]? = some s) : (number v bits).testBit i = v s := by
  induction bits generalizing i with
  | nil => simp at h
  | cons t rest ih =>
    cases i with
    | zero =>
      simp only [List.getElem?_cons_zero, Option.some.injEq] at h
      subst h
      rw [number, Nat.testBit_zero]
      cases v t <;> simp [Nat.add_mod]
    | succ i =>
      rw [number, Nat.testBit_succ, ← ih (by simpa using h)]
      congr 1
      have := (v t).toNat_lt
      omega

theorem number_congr {v w : Valuation} {bits : List SignalId} (h : ∀ s ∈ bits, v s = w s) :
    number v bits = number w bits := by
  induction bits with
  | nil => rfl
  | cons s rest ih =>
    rw [number, number, h s (by simp), ih fun t ht => h t (by simp [ht])]

/-- As many signals that hold the same number hold the same values. -/
theorem map_eq_of_number_eq {v w : Valuation} {as bs : List SignalId} (hlength : as.length = bs.length)
    (h : number v as = number w bs) : as.map v = bs.map w := by
  refine List.ext_getElem (by simpa using hlength) fun i ha hb => ?_
  rw [List.length_map] at ha hb
  rw [List.getElem_map, List.getElem_map, ← testBit_number v (List.getElem?_eq_getElem ha), h,
    testBit_number w (List.getElem?_eq_getElem hb)]

theorem eq_of_number_eq {v w : Valuation} {bits : List SignalId} (h : number v bits = number w bits) :
    ∀ s ∈ bits, v s = w s := List.map_inj_left.mp (map_eq_of_number_eq rfl h)

theorem number_eq_of_testBit {v : Valuation} {bits : List SignalId} {n : Nat}
    (h : ∀ (i : Nat) (s : SignalId), bits[i]? = some s → v s = n.testBit i) :
    number v bits = n % 2 ^ bits.length := by
  refine Nat.eq_of_testBit_eq fun i => ?_
  rw [Nat.testBit_mod_two_pow]
  by_cases hi : i < bits.length
  · have hget := List.getElem?_eq_getElem hi
    rw [testBit_number v hget, h i _ hget]
    simp [hi]
  · have hlt := Nat.lt_of_lt_of_le (number_lt v bits) (Nat.pow_le_pow_right (by omega) (Nat.le_of_not_lt hi))
    rw [Nat.testBit_lt_two_pow hlt]
    simp [hi]

/-- A number and the number of the inverted bits are ones only when added. -/
theorem number_not {v w : Valuation} {bits : List SignalId} (h : ∀ s ∈ bits, w s = !v s) :
    number w bits + number v bits + 1 = 2 ^ bits.length := by
  induction bits with
  | nil => rfl
  | cons s rest ih =>
    have hrest := ih fun t ht => h t (by simp [ht])
    rw [number, number, h s (by simp), List.length_cons, pow_succ]
    cases v s <;> simp <;> omega

end SignalGraph
