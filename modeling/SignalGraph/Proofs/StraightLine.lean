/-
Straight-line programs.

An instruction is what a block computes, over numbers: it assigns to the registers that it
writes in place and to its results numbers that are known from its operands. A list of
instructions is interpreted with no states, actions or guards at all. What was built for it,
block after block, does the same when it is put in sequence and run: each block satisfies its
instruction (`Builds.realizes`), and constants that a block shares with others never change,
so the signals that a caller can name agree with the interpretation after every block
(`Straight.realizes`).
-/
import SignalGraph.Proofs.Blocks

namespace SignalGraph

open Design Block

/-! ## Instructions -/

/-- Gives a list of signals a number, the lowest bit first, and drops the bits that do not fit. -/
def Valuation.write (v : Valuation) (bits : List SignalId) (n : Nat) : Valuation :=
  fun s => if s ∈ bits then n.testBit (bits.idxOf s) else v s

theorem Valuation.number_write {bits : List SignalId} (hnodup : bits.Nodup) (v : Valuation) (n : Nat) :
    number (v.write bits n) bits = n % 2 ^ bits.length := by
  refine number_eq_of_testBit fun i s hs => ?_
  obtain ⟨hi, rfl⟩ := List.getElem?_eq_some_iff.mp hs
  rw [Valuation.write, if_pos (List.getElem_mem hi), hnodup.idxOf_getElem]

/-- What one block computes: its operands, which are lists of signals, and its results. -/
inductive Instruction where
  | add (a b : List SignalId) (carryIn : Option SignalId) (sum : List SignalId) (carry : SignalId)
  | invert (a : List SignalId)
  | complement (a sum : List SignalId)
  | subtract (a b : List SignalId)
  | increment (a : List SignalId) (overflow : SignalId)
  | decrement (a : List SignalId) (noBorrow : SignalId)
  | move (src dst : List SignalId)
  | load (a : List SignalId) (value : Nat)
deriving DecidableEq, Repr

namespace Instruction

/-- The signals that there must be before. -/
def operands : Instruction → List SignalId
  | add a b carryIn _ _ => a ++ b ++ carryIn.toList
  | invert a => a
  | complement a _ => a
  | subtract a b => a ++ b
  | increment a _ => a
  | decrement a _ => a
  | move src dst => src ++ dst
  | load a _ => a

/-- The operand that is written in place. -/
def written : Instruction → List SignalId
  | add .. => []
  | invert a => a
  | complement a _ => a
  | subtract _ b => b
  | increment a _ => a
  | decrement a _ => a
  | move _ dst => dst
  | load a _ => a

/-- The signals that are made for the results. -/
def results : Instruction → List SignalId
  | add _ _ _ sum carry => carry :: sum
  | complement _ sum => sum
  | increment _ overflow => [overflow]
  | decrement _ noBorrow => [noBorrow]
  | invert _ | subtract .. | move .. | load .. => []

/-- The numbers that are assigned, all of them from the values before. -/
def assigns (v : Valuation) : Instruction → List (List SignalId × Nat)
  | add a b carryIn sum carry =>
    [(sum, total v a b carryIn % 2 ^ a.length), ([carry], (decide (2 ^ a.length ≤ total v a b carryIn)).toNat)]
  | invert a => [(a, 2 ^ a.length - 1 - number v a)]
  | complement a sum =>
    [(a, (2 ^ a.length - number v a) % 2 ^ a.length), (sum, (2 ^ a.length - number v a) % 2 ^ a.length)]
  | subtract a b => [(b, (number v a + 2 ^ b.length - number v b) % 2 ^ b.length)]
  | increment a overflow =>
    [(a, (number v a + 1) % 2 ^ a.length), ([overflow], (decide (2 ^ a.length ≤ number v a + 1)).toNat)]
  | decrement a noBorrow =>
    [(a, (number v a + 2 ^ a.length - 1) % 2 ^ a.length), ([noBorrow], (decide (0 < number v a)).toNat)]
  | move src dst => [(dst, number v src)]
  | load a value => [(a, value % 2 ^ a.length)]

def exec (i : Instruction) (v : Valuation) : Valuation := (i.assigns v).foldl (fun w p => w.write p.1 p.2) v

/-- Interprets a list of instructions, in order. -/
def interpret (l : List Instruction) (v : Valuation) : Valuation := l.foldl (fun v i => i.exec v) v

theorem mem_assigns {i : Instruction} {s : SignalId} (hs : s ∈ i.written ∨ s ∈ i.results) (v : Valuation) :
    ∃ p ∈ i.assigns v, s ∈ p.1 := by
  cases i <;> simp_all [written, results, assigns, or_comm]

/-- What is assigned depends on operands only. -/
theorem assigns_congr {i : Instruction} {v w : Valuation} (h : ∀ s ∈ i.operands, v s = w s) :
    i.assigns v = i.assigns w := by
  have hnumber : ∀ bits : List SignalId, bits ⊆ i.operands → number v bits = number w bits := fun bits hsub =>
    number_congr fun s hs => h s (hsub hs)
  cases i with
  | add a b carryIn sum carry =>
    have hcarry : carryValue v carryIn = carryValue w carryIn := by
      cases carryIn with
      | none => rfl
      | some c => rw [carryValue, carryValue, h c (by simp [operands])]
    have ha := hnumber a (by simp [operands])
    have hb := hnumber b (by simp [operands])
    have htotal : total v a b carryIn = total w a b carryIn := by rw [total, total, ha, hb, hcarry]
    simp only [assigns, htotal]
  | subtract a b =>
    have ha := hnumber a (by simp [operands])
    have hb := hnumber b (by simp [operands])
    simp only [assigns, ha, hb]
  | move src dst =>
    have hsrc := hnumber src (by simp [operands])
    simp only [assigns, hsrc]
  | load a value => rfl
  | invert a | complement a | increment a | decrement a =>
    have ha := hnumber a (by simp [operands])
    simp only [assigns, ha]

/-- Assignments that hold, written over anything, are what holds. -/
theorem foldl_write {w : Valuation} {s : SignalId} : ∀ {l : List (List SignalId × Nat)} {v : Valuation},
    (∀ p ∈ l, number w p.1 = p.2) → (∃ p ∈ l, s ∈ p.1) ∨ w s = v s →
    w s = l.foldl (fun u p => u.write p.1 p.2) v s
  | [], v, _, hs => by simpa using hs
  | p :: l, v, hl, hs => by
    rw [List.foldl_cons]
    refine foldl_write (fun q hq => hl q (by simp [hq])) ?_
    by_cases hmem : s ∈ p.1
    · right
      have hget : p.1[p.1.idxOf s]? = some s := by
        rw [List.getElem?_eq_getElem (List.idxOf_lt_length_iff.mpr hmem), List.getElem_idxOf]
      rw [Valuation.write, if_pos hmem, ← hl p (by simp), testBit_number w hget]
    · rcases hs with ⟨q, hq, hsq⟩ | hs
      · rcases List.mem_cons.mp hq with rfl | hq
        · exact absurd hsq hmem
        · exact .inl ⟨q, hq, hsq⟩
      · exact .inr (by rw [hs, Valuation.write, if_neg hmem])

/-- What is assigned holds after, and of the signals that there were before the others are as before. -/
def Satisfied (i : Instruction) (n : Nat) (v w : Valuation) : Prop :=
  (∀ p ∈ i.assigns v, number w p.1 = p.2) ∧ Kept n i.written v w

end Instruction

/-! ## Blocks for instructions -/

/-- A block was built for an instruction. -/
inductive Builds (d : Design) : Instruction → Fragment → Design → Prop
  | halfAdder {a b : SignalId} {cell : AdderCell} {d' : Design} (h : halfAdder a b d = .ok cell d') :
    Builds d (.add [a] [b] none [cell.sum] cell.carry) cell.fragment d'
  | fullAdder {a b carryIn : SignalId} {cell : AdderCell} {d' : Design}
    (h : fullAdder a b carryIn d = .ok cell d') :
    Builds d (.add [a] [b] (some carryIn) [cell.sum] cell.carry) cell.fragment d'
  | add {a b : Register} {carryIn : Option SignalId} {adder : RippleAdder} {d' : Design}
    (h : add a b carryIn d = .ok adder d') :
    Builds d (.add a.bits b.bits carryIn adder.sum.bits adder.carry) adder.fragment d'
  | invert {a : Register} {f : Fragment} {d' : Design} (h : invert a d = .ok f d') :
    Builds d (.invert a.bits) f d'
  | complement {a : Register} {c : Complement} {d' : Design} (h : complement a d = .ok c d') :
    Builds d (.complement a.bits c.sum.bits) c.fragment d'
  | subtract {a b : Register} {diff : Difference} {d' : Design} (h : subtract a b d = .ok diff d') :
    Builds d (.subtract a.bits b.bits) diff.fragment d'
  | increment {a : Register} {acc : Accumulator} {d' : Design} (h : increment a d = .ok acc d') :
    Builds d (.increment a.bits acc.carry) acc.fragment d'
  | decrement {a : Register} {acc : Accumulator} {d' : Design} (h : decrement a d = .ok acc d') :
    Builds d (.decrement a.bits acc.carry) acc.fragment d'
  | move {src dst : Register} {f : Fragment} {d' : Design} (h : move src dst d = .ok f d') :
    Builds d (.move src.bits dst.bits) f d'
  | loadSignal {s : SignalId} {value : Bool} {f : Fragment} {d' : Design} (h : loadSignal s value d = .ok f d') :
    Builds d (.load [s] value.toNat) f d'
  | loadRegister {r : Register} {value : Word} {f : Fragment} {d' : Design}
    (h : loadRegister r value d = .ok f d') :
    Builds d (.load r.bits value.toNat) f d'

theorem Builds.edits {d d' : Design} {i : Instruction} {f : Fragment} (h : Builds d i f d') : Edits d d' := by
  cases h with
  | halfAdder h => exact (halfAdder_makes _ _).edits h
  | fullAdder h => exact (fullAdder_makes _ _ _).edits h
  | add h => exact (add_makes _ _ _).edits h
  | invert h => exact (invert_makes _).edits h
  | complement h => exact (complement_makes _).edits h
  | subtract h => exact (subtract_makes _ _).edits h
  | increment h => exact (increment_makes _).edits h
  | decrement h => exact (decrement_makes _).edits h
  | move h => exact (move_makes _ _).edits h
  | loadSignal h => exact (loadSignal_makes _ _).edits h
  | loadRegister h => exact (loadRegister_makes _ _).edits h

theorem Block.Adds.satisfied {d d' : Design} {f : Fragment} {a b sum : List SignalId} {carryIn : Option SignalId}
    {carry : SignalId} (h : Adds d d' f a b carryIn sum carry) :
    d'.Knows (carry :: sum) ∧
      Realizes d d' [f] ((Instruction.add a b carryIn sum carry).Satisfied d.signals.size) := by
  refine ⟨fun s hs => (h.fresh s hs).2, h.realizes.mono ?_⟩
  rintro v w - ⟨hnumber, hover, hkept⟩
  exact ⟨List.forall_mem_cons.mpr ⟨hnumber, List.forall_mem_singleton.mpr (congrArg Bool.toNat hover)⟩, hkept⟩

/-- Every block does what its instruction says. -/
theorem Builds.realizes {d d' : Design} {i : Instruction} {f : Fragment} (h : Builds d i f d') (hd : Sound d)
    (hknown : d.Knows i.operands) (hnodup : i.written.Nodup) :
    d'.Knows i.results ∧ Realizes d d' [f] (i.Satisfied d.signals.size) := by
  cases h with
  | halfAdder h =>
    obtain ⟨ha, hb⟩ : _ ∧ _ := by simpa [Instruction.operands] using hknown
    exact (halfAdder_adds hd h ha hb).satisfied
  | fullAdder h =>
    obtain ⟨ha, hb, hc⟩ : _ ∧ _ ∧ _ := by simpa [Instruction.operands, and_assoc] using hknown
    exact (fullAdder_adds hd h ha hb hc).satisfied
  | add h =>
    obtain ⟨ha, hb, hc⟩ : _ ∧ _ ∧ _ := by simpa [Instruction.operands] using hknown
    exact (add_adds hd h ha hb hc).2.satisfied
  | @invert a _ _ h =>
    refine ⟨knows_nil _, (invert_realizes hd h hnodup).2.mono ?_⟩
    rintro v w - ⟨hnot, hothers⟩
    have hcount := number_not hnot
    exact ⟨List.forall_mem_singleton.mpr (by dsimp only; omega), fun s _ hs => hothers s hs⟩
  | complement h =>
    obtain ⟨-, hfresh, hreal⟩ := complement_realizes hd h hknown hnodup
    refine ⟨fun s hs => (hfresh s hs).2, hreal.mono ?_⟩
    rintro v w - ⟨hnumber, hsum, hkept⟩
    exact ⟨List.forall_mem_cons.mpr ⟨hnumber, List.forall_mem_singleton.mpr (hsum.trans hnumber)⟩, hkept⟩
  | subtract h =>
    obtain ⟨ha, hb⟩ := knows_append.mp hknown
    obtain ⟨-, hreal⟩ := subtract_realizes hd h ha hb hnodup
    refine ⟨knows_nil _, hreal.mono ?_⟩
    rintro v w - ⟨hnumber, hkept⟩
    exact ⟨List.forall_mem_singleton.mpr hnumber, hkept⟩
  | increment h =>
    obtain ⟨hfresh, hreal⟩ := increment_realizes hd h hknown hnodup
    refine ⟨knows_cons.mpr ⟨hfresh.2, knows_nil _⟩, hreal.mono ?_⟩
    rintro v w - ⟨hnumber, hover, hkept⟩
    exact ⟨List.forall_mem_cons.mpr ⟨hnumber, List.forall_mem_singleton.mpr (congrArg Bool.toNat hover)⟩, hkept⟩
  | decrement h =>
    obtain ⟨hfresh, hreal⟩ := decrement_realizes hd h hknown hnodup
    refine ⟨knows_cons.mpr ⟨hfresh.2, knows_nil _⟩, hreal.mono ?_⟩
    rintro v w - ⟨hnumber, hover, hkept⟩
    exact ⟨List.forall_mem_cons.mpr ⟨hnumber, List.forall_mem_singleton.mpr (congrArg Bool.toNat hover)⟩, hkept⟩
  | move h =>
    refine ⟨knows_nil _, (move_realizes hd h hnodup).2.2.mono ?_⟩
    rintro v w - ⟨hnumber, hothers⟩
    exact ⟨List.forall_mem_singleton.mpr hnumber, fun s _ hs => hothers s hs⟩
  | @loadSignal s value _ _ h =>
    refine ⟨knows_nil _, (loadSignal_realizes hd h).2.mono ?_⟩
    rintro v w - rfl
    have hvalue : number (v.set s value) [s] = value.toNat % 2 ^ 1 := by cases value <;> simp [number]
    exact ⟨List.forall_mem_singleton.mpr hvalue, fun t _ ht =>
      Valuation.set_of_ne _ (List.ne_of_not_mem_cons ht) _⟩
  | loadRegister h =>
    refine ⟨knows_nil _, (loadRegister_realizes hd h hnodup).2.mono ?_⟩
    rintro v w - ⟨hnumber, hothers⟩
    exact ⟨List.forall_mem_singleton.mpr hnumber, fun s _ hs => hothers s hs⟩

/-! ## Straight lines -/

/-- Signals were asked for: new ones, or constants. -/
inductive Creates (d : Design) : List SignalId → Design → Prop
  | signal {name : String} {s : SignalId} {d' : Design} (h : createSignal name d = .ok s d') : Creates d [s] d'
  | register {name : String} {width : Nat} {r : Register} {d' : Design}
    (h : createRegister name width d = .ok r d') : Creates d r.bits d'
  | zero {s : SignalId} {d' : Design} (h : zeroSignal d = .ok s d') : Creates d [s] d'
  | literal {value : Word} {width : Nat} {r : Register} {d' : Design}
    (h : constantRegister value width d = .ok r d') : Creates d r.bits d'
  | ones {width : Nat} {r : Register} {d' : Design} (h : minusOne width d = .ok r d') : Creates d r.bits d'

theorem Creates.edits {d d' : Design} {bits : List SignalId} (h : Creates d bits d') : Edits d d' := by
  cases h with
  | signal h => exact (createSignal_makes _).edits h
  | register h => exact (createRegister_makes _ _).edits h
  | zero h => exact zeroSignal_makes.edits h
  | literal h => exact (constantRegister_makes _ _).edits h
  | ones h => exact (minusOne_makes _).edits h

/-- No states are made, and no code that there was can have written the signals. -/
theorem Creates.unwritten {d d' : Design} {bits : List SignalId} (h : Creates d bits d') (hd : Sound d) :
    d'.states = d.states ∧ ∀ s ∈ bits, s.index < d'.signals.size ∧ ¬ d.Writable s := by
  have he := h.edits
  cases h with
  | signal h =>
    obtain ⟨-, rfl, rfl⟩ := createSignal_eq_ok.mp h
    refine ⟨rfl, fun s hs => ?_⟩
    obtain rfl := List.mem_singleton.mp hs
    exact ⟨by simp, fun hw => Nat.lt_irrefl _ hw.lt⟩
  | register h =>
    obtain ⟨-, rfl, hd'⟩ := createRegister_ok h
    refine ⟨by rw [hd'], fun s hs => ?_⟩
    rw [mem_handles] at hs
    refine ⟨?_, fun hw => ?_⟩
    · rw [hd']
      simp [bitInfos]
      omega
    · have := hw.lt
      omega
  | zero h =>
    obtain ⟨hstates, hzero⟩ := zeroSignal_ok hd.constants h
    refine ⟨hstates, fun s hs => ?_⟩
    obtain rfl := List.mem_singleton.mp hs
    exact ⟨signal?_lt hzero, fun hw => not_writable_of_constant hzero rfl (he.writable hw)⟩
  | literal h =>
    obtain ⟨hstates, hkeeps⟩ := constantRegister_ok hd.constants h
    exact ⟨hstates, fun s hs => ⟨hkeeps.knows s hs, fun hw => hkeeps.not_writable hs (he.writable hw)⟩⟩
  | ones h =>
    obtain ⟨hstates, ⟨_, hkeeps⟩, -⟩ := minusOne_ok hd.constants h
    exact ⟨hstates, fun s hs => ⟨hkeeps.knows s hs, fun hw => hkeeps.not_writable hs (he.writable hw)⟩⟩

/-- A design that was made by asking for signals and by building blocks on signals that were
asked for or are results of blocks before. A register that is written repeats no signal. -/
inductive Straight (settings : DesignSettings) : Design → List SignalId → List (Instruction × Fragment) → Prop
  | new : Straight settings (.new settings) [] []
  | create {d d' : Design} {visible bits : List SignalId} {code : List (Instruction × Fragment)}
    (h : Straight settings d visible code) (hc : Creates d bits d') :
    Straight settings d' (visible ++ bits) code
  | build {d d' : Design} {visible : List SignalId} {code : List (Instruction × Fragment)} {i : Instruction}
    {f : Fragment} (h : Straight settings d visible code) (hb : Builds d i f d')
    (hoperands : i.operands ⊆ visible) (hnodup : i.written.Nodup) :
    Straight settings d' (visible ++ i.results) (code ++ [(i, f)])

namespace Straight

variable {settings : DesignSettings} {d : Design} {visible : List SignalId} {code : List (Instruction × Fragment)}

theorem sound (h : Straight settings d visible code) : Sound d := by
  induction h with
  | new => exact .new settings
  | create _ hc ih => exact hc.edits.sound ih
  | build _ hb _ _ ih => exact hb.edits.sound ih

/-- The step of the simulation: a state of signals that agrees with an interpretation agrees with
it after one more block and its instruction. -/
theorem agree_step {d' : Design} {i : Instruction} {u v w : Valuation} (hknown : d.Knows visible)
    (hoperands : i.operands ⊆ visible) (he : Edits d d')
    (hagree : ∀ s, s ∈ visible ∨ ¬ d.Writable s → u s = v s)
    (hi : i.Satisfied d.signals.size u w) (hkept : ∀ s, ¬ d'.Writable s → w s = u s) {s : SignalId}
    (hs : s ∈ visible ++ i.results ∨ ¬ d'.Writable s) : w s = i.exec v s := by
  have hassigns : i.assigns v = i.assigns u :=
    Instruction.assigns_congr fun t ht => (hagree t (.inl (hoperands ht))).symm
  rw [Instruction.exec, hassigns]
  refine Instruction.foldl_write hi.1 ?_
  by_cases htarget : s ∈ i.written ∨ s ∈ i.results
  · exact .inl (Instruction.mem_assigns htarget u)
  · right
    rw [not_or] at htarget
    rcases hs with hs | hs
    · have hs : s ∈ visible := (List.mem_append.mp hs).resolve_right htarget.2
      rw [hi.2 s (hknown s hs) htarget.1, hagree s (.inl hs)]
    · -- A constant, whoever has asked for it, or a signal that is yet to be made.
      rw [hkept s hs, hagree s (.inr fun hw => hs (he.writable hw))]

/-- Fragments that were built do in turn what their instructions say, on all that a caller can name. -/
theorem realizes (h : Straight settings d visible code) :
    d.Knows visible ∧ Realizes (.new settings) d (code.map Prod.snd) fun v w =>
      ∀ s, s ∈ visible ∨ ¬ d.Writable s → w s = Instruction.interpret (code.map Prod.fst) v s := by
  induction h with
  | new =>
    refine ⟨by simp, (Realizes.nil _).mono ?_⟩
    rintro v w - rfl s -
    rfl
  | @create d d' visible bits code h hc ih =>
    obtain ⟨hknown, hreal⟩ := ih
    -- A constant may be older than this, from within a block: it is visible now, and was unwritten so far.
    obtain ⟨hstates, hbits⟩ := hc.unwritten h.sound
    refine ⟨knows_append.mpr ⟨hknown.mono hc.edits, fun s hs => (hbits s hs).1⟩,
      (hreal.extend hc.edits hstates).mono ?_⟩
    rintro v w - hagree s (hs | hs)
    · rcases List.mem_append.mp hs with hs | hs
      · exact hagree s (.inl hs)
      · exact hagree s (.inr (hbits s hs).2)
    · exact hagree s (.inr fun hw => hs (hc.edits.writable hw))
  | @build d d' visible code i f h hb hoperands hnodup ih =>
    obtain ⟨hknown, hreal⟩ := ih
    obtain ⟨hresults, hstep⟩ := hb.realizes h.sound (fun s hs => hknown s (hoperands hs)) hnodup
    refine ⟨knows_append.mpr ⟨hknown.mono hb.edits, hresults⟩, ?_⟩
    rw [List.map_append, List.map_append]
    refine (hreal.append hstep.keeps hb.edits).mono ?_
    rintro v w - ⟨u, -, hagree, hi, hkept⟩ s hs
    rw [Instruction.interpret, List.foldl_append]
    exact agree_step hknown hoperands hb.edits hagree hi hkept hs

end Straight

namespace Design

/-- **Straight-line programs compute what their instructions say.** Blocks that were built one after
the other can be put in sequence. If the result is handed out, then from all values of signals in
which constants have theirs it runs within as many steps as there are states, and every signal
that was asked for and every result ends with its value in the interpretation. -/
theorem straight_computes {settings : DesignSettings} {d : Design} {visible : List SignalId}
    {code : List (Instruction × Fragment)} (h : Straight settings d visible code) (hne : code ≠ []) :
    ∃ top d', sequence (code.map Prod.snd) d = .ok top d' ∧ ∀ p, d'.finish top = .ok p →
      ∀ v : Array Bool, v.size = p.signals.size → ConstantsHold p.signals (.ofArray v) →
        ∀ limit, p.states.size ≤ limit → ∃ k m, Machine.run (.load p ⟨limit⟩ v) = .ok k m ∧
          ∀ s ∈ visible, m.valuation s = Instruction.interpret (code.map Prod.fst) (.ofArray v) s := by
  obtain ⟨-, hreal⟩ := h.realizes
  cases code with
  | nil => exact absurd rfl hne
  | cons c rest =>
    obtain ⟨top, d', hs⟩ := hreal.exists_sequence
    have hd' := ((sequence_makes _).edits hs).sound h.sound
    refine ⟨top, d', hs, fun p hp v hsize hv limit hlimit => ?_⟩
    obtain ⟨rfl, -⟩ := finish_ok hp
    obtain ⟨k, m, hrun, hagree⟩ := (hreal.sequence hs hd').run hd' hsize hv hlimit
    exact ⟨k, m, hrun, fun s hmem => hagree s (.inl hmem)⟩

/-- A register of two bits, which are the first signals. -/
def twoBits : Register := ⟨"a", [⟨0⟩, ⟨1⟩]⟩

def loadedThree : Design := after (loadRegister twoBits 3) (after (createRegister "a" 2) (.new {}))

theorem straight_loadedThree :
    Straight {} loadedThree [⟨0⟩, ⟨1⟩] [(.load [⟨0⟩, ⟨1⟩] 3, .single ⟨0⟩)] :=
  have hcreate : createRegister "a" 2 (.new {}) = .ok twoBits (after (createRegister "a" 2) (.new {})) := rfl
  have hload : loadRegister twoBits 3 (after (createRegister "a" 2) (.new {})) =
    .ok (.single ⟨0⟩) loadedThree := rfl
  .build (.create .new (.register hcreate)) (.loadRegister hload) (by decide) (by decide)

/-- The design with one more added, and its two fragments. -/
def incrementedThree : Design := after (increment twoBits) loadedThree

def threeFragments : List Fragment := [.single ⟨0⟩, ⟨⟨1⟩, ⟨26⟩, stateRange 1 26⟩]

theorem straight_incrementedThree :
    Straight {} incrementedThree [⟨0⟩, ⟨1⟩, ⟨7⟩]
      ([.load [⟨0⟩, ⟨1⟩] 3, .increment [⟨0⟩, ⟨1⟩] ⟨7⟩].zip threeFragments) := by
  obtain ⟨acc, hacc, hresult⟩ := eq_ok_of_result? (x := increment twoBits) (s := loadedThree)
    (f := fun acc => (acc.carry, acc.fragment)) (b := (⟨7⟩, ⟨⟨1⟩, ⟨26⟩, stateRange 1 26⟩)) (by decide +kernel)
  have hbuild := straight_loadedThree.build (.increment hacc) (List.Subset.refl _)
    (show twoBits.bits.Nodup by decide)
  rw [(Prod.mk.inj hresult).1, (Prod.mk.inj hresult).2] at hbuild
  exact hbuild

/-- One more than three is zero in two bits, and an overflow. -/
theorem incrementedThree_computes :
    ∃ top d' p, sequence threeFragments incrementedThree = .ok top d' ∧ d'.finish top = .ok p ∧
      ∃ k m, Machine.run (.new p ⟨p.states.size⟩) = .ok k m ∧ twoBits.value m.valuation = 0 ∧
        m.valuation ⟨7⟩ = true := by
  obtain ⟨top, d', hs, hrun⟩ := straight_computes straight_incrementedThree (by simp [threeFragments])
  obtain ⟨top, hs', htop⟩ := eq_ok_of_result? (x := sequence threeFragments) (s := incrementedThree)
    (f := id) (b := ⟨⟨0⟩, ⟨26⟩, stateRange 0 27⟩) (by decide +kernel)
  cases hs'.symm.trans hs
  rw [show top = _ from htop] at hs hrun
  have hp : (after (sequence threeFragments) incrementedThree).finish ⟨⟨0⟩, ⟨26⟩, stateRange 0 27⟩ =
      .ok ((after (sequence threeFragments) incrementedThree).program ⟨⟨0⟩, ⟨26⟩, stateRange 0 27⟩) := by
    decide +kernel
  obtain ⟨k, m, hk, hagree⟩ := hrun _ hp _ (by simp) (.initial _) _ (Nat.le_refl _)
  refine ⟨_, _, _, hs, hp, k, m, hk, ?_, ?_⟩
  · rw [Register.value_eq, number_congr fun s hs => hagree s (List.mem_append_left [⟨7⟩] hs)]
    decide +kernel
  · rw [hagree ⟨7⟩ (by simp)]
    decide +kernel

end Design

end SignalGraph
