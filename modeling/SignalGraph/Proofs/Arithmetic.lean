/-
What the code of blocks computes.

Here code is only run, as a function of valuations: no table of states occurs. A block leaves
the signals alone that were there before it, except for those that it is to write, and so
numbers in registers can be followed from one block to the next. The carries of a ripple adder
are the induction: its sum and its last carry hold what the sum of its operands and of the
first carry is (`exec_rippleCode`).
-/
import SignalGraph.Proofs.Emission
import SignalGraph.Proofs.Numbers

namespace SignalGraph

@[simp] theorem Guard.holds_when (s : SignalId) (b : Bool) (v : Valuation) :
    (Guard.when s b).holds v = (v s == b) := by
  simp [Guard.holds, Guard.when, Guard.all, Guard.isAlways, Clause.holds, Test.holds]

@[simp] theorem Guard.holds_all (tests : List Test) (v : Valuation) :
    (Guard.all tests).holds v = tests.all (·.holds v) := by
  simp [Guard.holds, Guard.all, Guard.isAlways, Clause.holds]

namespace Block

open Design

/-- The signals that there were before, except for some, have kept their values. -/
def Kept (n : Nat) (written : List SignalId) (v w : Valuation) : Prop :=
  ∀ s : SignalId, s.index < n → s ∉ written → w s = v s

theorem Kept.trans {n m : Nat} {written : List SignalId} {v u w : Valuation} (h : Kept n written v u)
    (h' : Kept m written u w) (hnm : n ≤ m) : Kept n written v w :=
  fun s hs hmem => (h' s (Nat.lt_of_lt_of_le hs hnm) hmem).trans (h s hs hmem)

theorem Kept.mono {n m : Nat} {written written' : List SignalId} {v w : Valuation} (h : Kept n written v w)
    (hmn : m ≤ n) (hsub : written ⊆ written') : Kept m written' v w :=
  fun s hs hmem => h s (Nat.lt_of_lt_of_le hs hmn) fun hm => hmem (hsub hm)

theorem Kept.number {n : Nat} {written bits : List SignalId} {v w : Valuation} (h : Kept n written v w)
    (hbits : ∀ s ∈ bits, s.index < n) (hdisj : ∀ s ∈ bits, s ∉ written) : number w bits = number v bits :=
  number_congr fun s hs => h s (hbits s hs) (hdisj s hs)

/-! ## Adders of one bit -/

theorem exec_halfAdderCode {a b sum carry : SignalId} (ha : a ≠ sum ∧ a ≠ carry) (hb : b ≠ sum ∧ b ≠ carry)
    (hne : sum ≠ carry) (v : Valuation) :
    (halfAdderCode a b sum carry).exec v = (v.set sum (v a ^^ v b)).set carry (v a && v b) := by
  unfold halfAdderCode
  split
  · next hab =>
    subst hab
    funext s
    cases hva : v a <;> by_cases hs : s = sum <;> by_cases hc : s = carry <;>
      simp_all [Valuation.set]
  · funext s
    cases hva : v a <;> cases hvb : v b <;> by_cases hs : s = sum <;> by_cases hc : s = carry <;>
      simp_all [Code.exec, Step.exec, halfAdderStep, Step.bodies, List.findIdx_cons, Arm.holds, Test.holds,
        Valuation.set]

theorem ne_of_index_lt {s : SignalId} {n : Nat} (h : s.index < n) (k : Nat) : s ≠ ⟨n + k⟩ := by
  intro he
  rw [he] at h
  exact absurd h (by simp)

/-- The exclusive or and the conjunction of two signals, whether they are the same or not. -/
theorem halfAdderCode_outputs {n : Nat} {a b : SignalId} (ha : a.index < n) (hb : b.index < n) (v : Valuation) :
    (halfAdderCode a b ⟨n⟩ ⟨n + 1⟩).exec v ⟨n⟩ = (v a ^^ v b) ∧
    (halfAdderCode a b ⟨n⟩ ⟨n + 1⟩).exec v ⟨n + 1⟩ = (v a && v b) ∧
    Kept n [] v ((halfAdderCode a b ⟨n⟩ ⟨n + 1⟩).exec v) := by
  have ha₀ : a ≠ ⟨n⟩ := ne_of_index_lt ha 0
  have hb₀ : b ≠ ⟨n⟩ := ne_of_index_lt hb 0
  rw [exec_halfAdderCode ⟨ha₀, ne_of_index_lt ha 1⟩ ⟨hb₀, ne_of_index_lt hb 1⟩ (by simp)]
  refine ⟨by simp, by simp, fun s hs _ => ?_⟩
  rw [Valuation.set_of_ne _ (ne_of_index_lt hs 1)]
  exact Valuation.set_of_ne _ (ne_of_index_lt hs 0) _

/-- Setting a signal that is clear, if a condition holds, gives it the condition. -/
theorem ite_set_true {v : Valuation} {s : SignalId} (h : v s = false) (b : Bool) :
    (if b then v.set s true else v) = v.set s b := by
  cases b
  · funext t
    by_cases ht : t = s <;> simp [Valuation.set, ht, h]
  · rfl

theorem exec_fullAdderCode {n : Nat} {a b carryIn : SignalId} (ha : a.index < n) (hb : b.index < n)
    (hc : carryIn.index < n) (v : Valuation) :
    (fullAdderCode n a b carryIn).exec v = ((((((v.set ⟨n + 1⟩ false).set ⟨n + 2⟩ (v a ^^ v b)).set ⟨n + 3⟩
      (v a && v b)).set ⟨n + 4⟩ (v a ^^ v b ^^ v carryIn)).set ⟨n + 5⟩ ((v a ^^ v b) && v carryIn)).set ⟨n + 1⟩
      ((v a && v b) || ((v a ^^ v b) && v carryIn))).set ⟨n⟩ (v a ^^ v b ^^ v carryIn) := by
  have ha' := ne_of_index_lt ha
  have hb' := ne_of_index_lt hb
  have hc' := ne_of_index_lt hc
  have hfirst : ((Code.single [.drive ⟨n + 1⟩ false]).andThen (halfAdderCode a b ⟨n + 2⟩ ⟨n + 3⟩)).exec v =
      ((v.set ⟨n + 1⟩ false).set ⟨n + 2⟩ (v a ^^ v b)).set ⟨n + 3⟩ (v a && v b) := by
    rw [Code.exec_andThen, exec_halfAdderCode ⟨ha' 2, ha' 3⟩ ⟨hb' 2, hb' 3⟩ (by simp)]
    simp [ha', hb']
  have hsecond : (((Code.single [.drive ⟨n + 1⟩ false]).andThen (halfAdderCode a b ⟨n + 2⟩ ⟨n + 3⟩)).andThen
      (halfAdderCode ⟨n + 2⟩ carryIn ⟨n + 4⟩ ⟨n + 5⟩)).exec v = ((((v.set ⟨n + 1⟩ false).set ⟨n + 2⟩
      (v a ^^ v b)).set ⟨n + 3⟩ (v a && v b)).set ⟨n + 4⟩ (v a ^^ v b ^^ v carryIn)).set ⟨n + 5⟩
      ((v a ^^ v b) && v carryIn) := by
    rw [Code.exec_andThen, hfirst, exec_halfAdderCode ⟨by simp, by simp⟩ ⟨hc' 4, hc' 5⟩ (by simp)]
    simp [hc']
  have hguard : ∀ u : Valuation, (Guard.any [[⟨⟨n + 3⟩, true⟩], [⟨⟨n + 5⟩, true⟩]]).holds u =
      (u ⟨n + 3⟩ || u ⟨n + 5⟩) := fun u => by
    simp [Guard.any, Guard.holds, Guard.isAlways, Clause.holds, Test.holds]
  simp only [fullAdderCode, Code.exec_act, Code.exec_branch, hsecond, Valuation.after_cons, Valuation.after_nil,
    Action.apply_drive, Action.apply_copy, hguard]
  rw [ite_set_true (by simp)]
  simp

/-- The two bits of a full adder count how many of its inputs are set. -/
theorem fullAdder_counts {n : Nat} {a b carryIn : SignalId} (ha : a.index < n) (hb : b.index < n)
    (hc : carryIn.index < n) (v : Valuation) :
    ((fullAdderCode n a b carryIn).exec v ⟨n⟩).toNat +
        2 * ((fullAdderCode n a b carryIn).exec v ⟨n + 1⟩).toNat =
      (v a).toNat + (v b).toNat + (v carryIn).toNat ∧
    Kept n [] v ((fullAdderCode n a b carryIn).exec v) := by
  rw [exec_fullAdderCode ha hb hc]
  refine ⟨?_, fun s hs _ => ?_⟩
  · cases v a <;> cases v b <;> cases v carryIn <;> simp [Valuation.set]
  · have hne := ne_of_index_lt hs
    have hne₀ : s ≠ ⟨n⟩ := hne 0
    simp [Valuation.set, hne₀, hne]

/-- The exclusive or and the majority of three signals, whichever of them are the same. -/
theorem fullAdderCode_outputs {n : Nat} {a b carryIn : SignalId} (ha : a.index < n) (hb : b.index < n)
    (hc : carryIn.index < n) (v : Valuation) :
    (fullAdderCode n a b carryIn).exec v ⟨n⟩ = (v a ^^ v b ^^ v carryIn) ∧
    (fullAdderCode n a b carryIn).exec v ⟨n + 1⟩ = (v a && v b || v a && v carryIn || v b && v carryIn) ∧
    Kept n [] v ((fullAdderCode n a b carryIn).exec v) := by
  obtain ⟨-, hkept⟩ := fullAdder_counts ha hb hc v
  refine ⟨?_, ?_, hkept⟩
  · rw [exec_fullAdderCode ha hb hc, Valuation.set_self]
  · rw [exec_fullAdderCode ha hb hc, Valuation.set_of_ne _ (by simp), Valuation.set_self]
    cases v a <;> cases v b <;> cases v carryIn <;> rfl

/-! ## Adders of registers -/

/-- The slices of a ripple adder: inputs are below `m`, and the sum's signals are from `m` on, below `n`. -/
structure Slices (m n : Nat) (bits : List BitSlice) : Prop where
  a : ∀ bit ∈ bits, bit.a.index < m
  b : ∀ bit ∈ bits, bit.b.index < m
  sum : ∀ bit ∈ bits, m ≤ bit.sum.index ∧ bit.sum.index < n
  nodup : (bits.map BitSlice.sum).Nodup

/-- The sum and the last carry of a ripple adder hold the sum of its inputs and of the first carry. -/
theorem exec_rippleCode {m : Nat} (v : Valuation) :
    ∀ {bits : List BitSlice} {c : Code} {n : Nat} {carryIn : SignalId}, Slices m n bits → carryIn.index < n →
    number ((rippleCode c n carryIn bits).exec v) (bits.map BitSlice.sum) +
        2 ^ bits.length * ((rippleCode c n carryIn bits).exec v (rippleCarry n carryIn bits)).toNat =
      number (c.exec v) (bits.map BitSlice.a) + number (c.exec v) (bits.map BitSlice.b) +
        (c.exec v carryIn).toNat ∧
    Kept n (bits.map BitSlice.sum) (c.exec v) ((rippleCode c n carryIn bits).exec v)
  | [], c, n, carryIn, _, _ => by simp [rippleCode, rippleCarry, number, Kept]
  | bit :: rest, c, n, carryIn, hbits, hcarry => by
    obtain ⟨ha, hb, hsum, hnodup⟩ := hbits
    rw [List.map_cons, List.nodup_cons] at hnodup
    have hm := hsum bit (by simp)
    have ha₀ := ha bit (by simp)
    have hb₀ := hb bit (by simp)
    obtain ⟨hcount, hframe⟩ := fullAdder_counts (n := n) (show bit.a.index < n by omega)
      (show bit.b.index < n by omega) hcarry (c.exec v)
    have hrest : Slices m (n + 6) rest :=
      ⟨fun b hb => ha b (by simp [hb]), fun b' hb' => hb b' (by simp [hb']),
        fun b hb => ⟨(hsum b (by simp [hb])).1, by have := (hsum b (by simp [hb])).2; omega⟩, hnodup.2⟩
    obtain ⟨hnum, hkeep⟩ := exec_rippleCode v (c := c.andThen ((fullAdderCode n bit.a bit.b carryIn).act
      (.copy ⟨n⟩ bit.sum))) (n := n + 6) hrest (show (⟨n + 1⟩ : SignalId).index < n + 6 by simp)
    rw [Code.exec_andThen, Code.exec_act, Action.apply_copy] at hnum hkeep
    generalize (fullAdderCode n bit.a bit.b carryIn).exec (c.exec v) = u at hcount hframe hnum hkeep
    have hold : Kept n [bit.sum] (c.exec v) (u.set bit.sum (u ⟨n⟩)) := fun s hs hne => by
      rw [Valuation.set_of_ne _ (List.ne_of_not_mem_cons hne), hframe s hs (by simp)]
    have hinputs : ∀ f : BitSlice → SignalId, (∀ b ∈ rest, (f b).index < m) →
        number (u.set bit.sum (u ⟨n⟩)) (rest.map f) = number (c.exec v) (rest.map f) := fun f hf => by
      have hlow : ∀ s ∈ rest.map f, s.index < m := fun s hs => by
        obtain ⟨b, hb, rfl⟩ := List.mem_map.mp hs
        exact hf b hb
      refine hold.number (fun s hs => by have := hlow s hs; omega) fun s hs hmem => ?_
      have := hlow s hs
      rw [List.mem_singleton.mp hmem] at this
      omega
    have hcarryOut : (⟨n + 1⟩ : SignalId) ≠ bit.sum := fun he => by
      rw [← he] at hm
      simp at hm
    rw [hinputs _ hrest.a, hinputs _ hrest.b, Valuation.set_of_ne _ hcarryOut] at hnum
    refine ⟨?_, fun s hs hmem => ?_⟩
    · have hbit : (rippleCode c n carryIn (bit :: rest)).exec v bit.sum = u ⟨n⟩ :=
        (hkeep bit.sum (by omega) hnodup.1).trans (Valuation.set_self _ _ _)
      simp only [List.map_cons, number, hbit, List.length_cons, pow_succ, mul_right_comm _ 2]
      simp only [rippleCode, rippleCarry]
      generalize 2 ^ rest.length * _ = x at hnum ⊢
      omega
    · rw [List.map_cons, List.mem_cons, not_or] at hmem
      rw [rippleCode, hkeep s (by omega) hmem.2, hold s hs (by simp [hmem.1])]

theorem map_bitSlices : ∀ {as bs ss : List SignalId}, as.length = bs.length → as.length = ss.length →
    (List.zipWith (fun (x, y) s => BitSlice.mk x y s) (as.zip bs) ss).map BitSlice.a = as ∧
      (List.zipWith (fun (x, y) s => BitSlice.mk x y s) (as.zip bs) ss).map BitSlice.b = bs ∧
      (List.zipWith (fun (x, y) s => BitSlice.mk x y s) (as.zip bs) ss).map BitSlice.sum = ss
  | [], [], [], _, _ => ⟨rfl, rfl, rfl⟩
  | a :: as, b :: bs, s :: ss, hb, hs => by
    obtain ⟨h₁, h₂, h₃⟩ := map_bitSlices (Nat.succ.inj hb) (Nat.succ.inj hs)
    simp [h₁, h₂, h₃]

theorem slices_bitSlices {a b sum : Register} {n : Nat} (hwidth : a.width = b.width)
    (hsum : sum.bits = handles n a.width) (ha : ∀ s ∈ a.bits, s.index < n) (hb : ∀ s ∈ b.bits, s.index < n) :
    (bitSlices a b sum).map BitSlice.a = a.bits ∧ (bitSlices a b sum).map BitSlice.b = b.bits ∧
      (bitSlices a b sum).map BitSlice.sum = sum.bits ∧ Slices n (n + a.width + 1) (bitSlices a b sum) := by
  obtain ⟨h₁, h₂, h₃⟩ := map_bitSlices hwidth (show a.bits.length = sum.bits.length by
    rw [hsum, length_handles, Register.width])
  refine ⟨h₁, h₂, h₃, fun bit hbit => ha _ ?_, fun bit hbit => hb _ ?_, fun bit hbit => ?_, ?_⟩
  · exact h₁ ▸ List.mem_map_of_mem hbit
  · exact h₂ ▸ List.mem_map_of_mem hbit
  · have : bit.sum ∈ handles n a.width := hsum ▸ h₃ ▸ List.mem_map_of_mem hbit
    rw [mem_handles] at this
    omega
  · rw [bitSlices, h₃, hsum]
    exact nodup_handles _ _

/-- An adder's sum and carry hold the sum of its inputs. -/
theorem exec_addCode {n : Nat} {a b sum : Register} {carryIn : SignalId} (hwidth : a.width = b.width)
    (hsum : sum.bits = handles n a.width) (ha : ∀ s ∈ a.bits, s.index < n) (hb : ∀ s ∈ b.bits, s.index < n)
    (hc : carryIn.index < n) (v : Valuation) :
    number ((addCode n a b sum carryIn).exec v) sum.bits +
        2 ^ a.width * ((addCode n a b sum carryIn).exec v ⟨n + a.width⟩).toNat =
      number v a.bits + number v b.bits + (v carryIn).toNat ∧
    Kept n [] v ((addCode n a b sum carryIn).exec v) := by
  obtain ⟨hmapa, hmapb, hmaps, hslices⟩ := slices_bitSlices hwidth hsum ha hb
  have hlength : (bitSlices a b sum).length = a.width := by
    rw [← List.length_map BitSlice.a, hmapa, Register.width]
  obtain ⟨hnum, hframe⟩ := exec_rippleCode v (c := .single [.drive ⟨n + a.width⟩ false]) hslices
    (show carryIn.index < n + a.width + 1 by omega)
  rw [hmapa, hmapb, hmaps, hlength] at hnum
  rw [hmaps] at hframe
  simp only [Code.exec_single, Valuation.after_cons, Valuation.after_nil, Action.apply_drive] at hnum hframe
  -- The carry is cleared before the bits are added, and they leave it so.
  have hcarry : (⟨n + a.width⟩ : SignalId) ∉ sum.bits := by
    rw [hsum, mem_handles]
    simp
  have hclear := hframe ⟨n + a.width⟩ (by simp) hcarry
  rw [Valuation.set_self] at hclear
  have hset : Kept n [] v (v.set ⟨n + a.width⟩ false) := fun s hs _ =>
    Valuation.set_of_ne _ (ne_of_index_lt hs a.width) _
  rw [hset.number ha (by simp), hset.number hb (by simp), hset carryIn hc (by simp)] at hnum
  simp only [addCode, Code.exec_branch, Guard.holds_when, Valuation.after_cons, Valuation.after_nil,
    Action.apply_drive, beq_true]
  rw [ite_set_true hclear]
  refine ⟨?_, fun s hs _ => ?_⟩
  · rw [Valuation.set_self, ← hnum]
    congr 1
    refine number_congr fun s hs => Valuation.set_of_ne _ (fun he => ?_) _
    exact hcarry (he ▸ hs)
  · have hmem : s ∉ sum.bits := fun hmem => by
      rw [hsum, mem_handles] at hmem
      omega
    rw [Valuation.set_of_ne _ (ne_of_index_lt hs a.width), hframe s (by omega) hmem, hset s hs (by simp)]

/-! ## Inverting, moving and loading -/

theorem exec_invertStep (bit : SignalId) (v : Valuation) : (invertStep bit).exec v = v.set bit (!v bit) := by
  cases h : v bit <;>
    simp [Step.exec, invertStep, Step.bodies, List.findIdx_cons, Arm.holds, h]

theorem exec_invertCode {bits : List SignalId} (hnodup : bits.Nodup) (v : Valuation) (s : SignalId) :
    (invertCode bits).exec v s = if s ∈ bits then !v s else v s := by
  have hsteps : ∀ (bits : List SignalId) (v : Valuation), bits.Nodup →
      (bits.map invertStep).foldl (fun v s => s.exec v) v s = if s ∈ bits then !v s else v s := by
    intro bits
    induction bits with
    | nil => exact fun _ _ => by simp
    | cons bit rest ih =>
      intro v hnodup
      rw [List.nodup_cons] at hnodup
      rw [List.map_cons, List.foldl_cons, ih _ hnodup.2, exec_invertStep]
      by_cases hs : s = bit
      · subst hs
        simp [hnodup.1]
      · simp [hs]
  exact hsteps bits v hnodup

/-- Copies between registers that share nothing all read what was there before. -/
theorem after_copies : ∀ {src dst : List SignalId} {v : Valuation}, src.length = dst.length → dst.Nodup →
    (∀ s ∈ src, s ∉ dst) →
    number (v.after ((src.zip dst).map fun p => .copy p.1 p.2)) dst = number v src
  | [], [], _, _, _, _ => rfl
  | s :: src, t :: dst, v, hlength, hnodup, hdisj => by
    rw [List.nodup_cons] at hnodup
    have hrest := after_copies (v := v.set t (v s)) (Nat.succ.inj hlength) hnodup.2
      fun s' hs' hmem => hdisj s' (by simp [hs']) (by simp [hmem])
    have hfirst : ((v.set t (v s)).after ((src.zip dst).map fun p => .copy p.1 p.2)) t = v s := by
      rw [Valuation.after_of_not_target, Valuation.set_self]
      intro a ha he
      obtain ⟨p, hp, rfl⟩ := List.mem_map.mp ha
      exact hnodup.1 (he ▸ (List.of_mem_zip hp).2)
    rw [List.zip_cons_cons, List.map_cons, Valuation.after_cons, Action.apply_copy, number, number, hfirst, hrest]
    congr 2
    exact number_congr fun s' hs' => Valuation.set_of_ne _ (fun he => hdisj s' (by simp [hs']) (by simp [he])) _

theorem after_self_copies (bits : List SignalId) (v : Valuation) :
    v.after ((bits.zip bits).map fun p => .copy p.1 p.2) = v := by
  induction bits generalizing v with
  | nil => rfl
  | cons s rest ih =>
    have : v.set s (v s) = v := by
      funext t
      by_cases ht : t = s <;> simp [Valuation.set, ht]
    rw [List.zip_cons_cons, List.map_cons, Valuation.after_cons, Action.apply_copy, this, ih]

theorem exec_moveCode {src dst : Register} (hwidth : src.width = dst.width)
    (hcopyable : src.bits = dst.bits ∨ src.overlaps dst = false) (hnodup : dst.bits.Nodup) (v : Valuation) :
    number ((moveCode src.bits dst.bits).exec v) dst.bits = number v src.bits ∧
      ∀ s, s ∉ dst.bits → (moveCode src.bits dst.bits).exec v s = v s := by
  refine ⟨?_, fun s hs => ?_⟩
  · rcases hcopyable with heq | hdisj
    · rw [moveCode, Code.exec_single, heq, after_self_copies]
    · exact after_copies hwidth hnodup (Register.disjoint_of_overlaps hdisj)
  · refine Code.exec_of_not_target fun a ha he => hs ?_
    obtain ⟨p, hp, rfl⟩ := List.mem_map.mp (show a ∈ (src.bits.zip dst.bits).map fun p => .copy p.1 p.2 from ha)
    exact he ▸ (List.of_mem_zip hp).2

/-- A signal that is driven has what it was driven to last. -/
theorem after_drives {f : Nat → Bool} : ∀ {bits : List SignalId} {k : Nat} {v : Valuation} {i : Nat} {s : SignalId},
    bits[i]? = some s → s ∉ bits.drop (i + 1) →
      v.after ((bits.zipIdx k).map fun p => .drive p.1 (f p.2)) s = f (k + i)
  | t :: rest, k, v, i, s, hs, hlast => by
    rw [List.zipIdx_cons, List.map_cons, Valuation.after_cons, Action.apply_drive]
    cases i with
    | zero =>
      cases hs
      rw [Valuation.after_of_not_target, Valuation.set_self]
      · rfl
      · intro a ha he
        obtain ⟨p, hp, rfl⟩ := List.mem_map.mp ha
        exact hlast (he ▸ List.fst_mem_of_mem_zipIdx hp)
    | succ i =>
      have hrest : s ∉ rest.drop (i + 1) := hlast
      rw [after_drives (by simpa using hs) hrest, Nat.add_assoc, Nat.add_comm 1]

theorem exec_loadCode_of_not_mem {bits : List SignalId} {s : SignalId} (hs : s ∉ bits) (value : Word)
    (v : Valuation) : (loadCode bits value).exec v s = v s := by
  refine Code.exec_of_not_target fun a ha he => hs ?_
  obtain ⟨p, hp, rfl⟩ := List.mem_map.mp (show a ∈ bits.zipIdx.map fun p => .drive p.1 (value.bit p.2) from ha)
  exact he ▸ List.fst_mem_of_mem_zipIdx hp

theorem exec_loadCode {bits : List SignalId} (hnodup : bits.Nodup) (value : Word) (v : Valuation) :
    number ((loadCode bits value).exec v) bits = value.toNat % 2 ^ bits.length ∧
      ∀ s, s ∉ bits → (loadCode bits value).exec v s = v s := by
  refine ⟨number_eq_of_testBit fun i s hs => ?_, fun s hs => exec_loadCode_of_not_mem hs value v⟩
  obtain ⟨hi, rfl⟩ := List.getElem?_eq_some_iff.mp hs
  have htail := hnodup.sublist (List.drop_sublist i bits)
  rw [List.drop_eq_getElem_cons hi, List.nodup_cons] at htail
  exact (after_drives hs htail.1).trans (by rw [Nat.zero_add, Word.bit])

end Block

end SignalGraph
