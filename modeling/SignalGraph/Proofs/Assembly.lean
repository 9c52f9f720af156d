/-
What construction adds to the states, whatever the operands are.

Asking for signals, registers and constants adds no states (`Quiet`). A block that could be
built is one fragment of live code after the states that were there (`Builds.lays`): its
operands may be the same, or repeat a signal, and nothing is asked of their values. Its states
are a region with one way in and one way out, without a way back. And a design for which nothing
else was done is a row of such fragments (`Composed.lays`).
-/
import SignalGraph.Proofs.Regions
import SignalGraph.Proofs.StraightLine

namespace SignalGraph

open Design Block

/-! ## Operations that add no states -/

namespace Design

/-- The operation leaves the states as they are, also when it fails. -/
def Quiet {α : Type} (x : BuildM α) : Prop := ∀ d, (after x d).states = d.states

namespace Quiet

variable {α β : Type}

theorem states {x : BuildM α} (hx : Quiet x) {a : α} {d d' : Design} (h : x d = .ok a d') :
    d'.states = d.states := after_of_ok h ▸ hx d

theorem pure (a : α) : Quiet (pure a) := fun _ => rfl

theorem throw (e : BuildError) : Quiet (throw e : BuildM α) := fun _ => rfl

theorem bind {x : BuildM α} {f : α → BuildM β} (hx : Quiet x) (hf : ∀ a, Quiet (f a)) : Quiet (x >>= f) := by
  intro d
  rw [after_bind]
  split
  · next a d₁ h => rw [hf a d₁, hx.states h]
  · next h => rw [← after_of_error h, hx d]

theorem ite {c : Prop} [Decidable c] {x y : BuildM α} (hx : Quiet x) (hy : Quiet y) :
    Quiet (if c then x else y) := by
  split
  · exact hx
  · exact hy

theorem discard {x : BuildM α} (hx : Quiet x) : Quiet (discard x) :=
  fun d => after_discard x d ▸ hx d

end Quiet

theorem addSignal_quiet (name : String) (initial constant : Bool) : Quiet (addSignal name initial constant) := by
  intro d
  unfold after addSignal
  by_cases hname : d.names.contains name = true
  · rw [if_pos hname]
  · rw [if_neg hname]

theorem addBitsFrom_quiet (name : String) (initial : Nat → Bool) (constant : Bool) :
    ∀ i count : Nat, Quiet (addBitsFrom name initial constant i count)
  | _, 0 => .pure _
  | i, count + 1 => .bind (addSignal_quiet _ _ _) fun _ =>
      .bind (addBitsFrom_quiet name initial constant (i + 1) count) fun _ => .pure _

theorem addBits_quiet (name : String) (width : Nat) (initial : Nat → Bool) (constant : Bool) :
    Quiet (addBits name width initial constant) :=
  .bind (addBitsFrom_quiet _ _ _ _ _) fun _ => .pure _

theorem createRegister_quiet (name : String) (width : Nat) : Quiet (createRegister name width) :=
  .ite (.throw _) (addBits_quiet _ _ _ _)

theorem zeroSignal_quiet : Quiet zeroSignal := by
  have hadd : Quiet addZero := .bind (addSignal_quiet _ _ _) fun _ => .bind (fun _ => rfl) fun _ => .pure _
  intro d
  cases hz : d.zero with
  | some s => simp only [after, zeroSignal, hz]
  | none =>
    have : after zeroSignal d = after addZero d := by simp only [after, zeroSignal, hz]
    rw [this, hadd d]

theorem addConstant_quiet (key : ConstantKey) (width : Nat) (bit : Nat → Bool) :
    Quiet (addConstant key width bit) :=
  .bind (addBits_quiet _ _ _ _) fun _ => .bind (fun _ => rfl) fun _ => .pure _

theorem constantOr_quiet (key : ConstantKey) {make : BuildM Register} (hmake : Quiet make) :
    Quiet (constantOr key make) := by
  intro d
  cases hk : d.constants.lookup key with
  | some r => simp only [after, constantOr, hk]
  | none =>
    have : after (constantOr key make) d = after make d := by simp only [after, constantOr, hk]
    rw [this, hmake d]

theorem constantRegister_quiet (value : Word) (width : Nat) : Quiet (constantRegister value width) :=
  constantOr_quiet _ (.ite (.throw _) (.ite (addConstant_quiet _ _ _) (.throw _)))

theorem minusOne_quiet (width : Nat) : Quiet (minusOne width) :=
  .ite (constantRegister_quiet _ _) (constantOr_quiet _ (addConstant_quiet _ _ _))

theorem signalOrZero_quiet : ∀ carryIn : Option SignalId, Quiet (signalOrZero carryIn)
  | some _ => .pure _
  | none => zeroSignal_quiet

/-- The operations that ask for signals, registers and constants, and for scopes of names. -/
def Call.declares : Call → Bool
  | createSignal _ | createRegister .. | createDefaultRegister _ | reserveScope _ | freshSignal .. | freshRegister ..
  | zeroSignal | constantRegister .. | one _ | minusOne _ => true
  | _ => false

theorem Call.quiet {c : Call} (h : c.declares = true) : Quiet c.perform := by
  cases c with
  | createSignal => exact .discard (addSignal_quiet _ _ _)
  | createRegister => exact .discard (createRegister_quiet _ _)
  | createDefaultRegister => exact .discard (.bind (fun _ => rfl) fun _ => createRegister_quiet _ _)
  | reserveScope => exact .discard fun _ => rfl
  | freshSignal => exact .discard (addSignal_quiet _ _ _)
  | freshRegister => exact .discard (createRegister_quiet _ _)
  | zeroSignal => exact .discard zeroSignal_quiet
  | constantRegister => exact .discard (constantRegister_quiet _ _)
  | one => exact .discard (constantRegister_quiet _ _)
  | minusOne => exact .discard (minusOne_quiet _)
  | _ => cases h

end Design

/-! ## The code of blocks is live -/

namespace Block

theorem halfAdderStep_live {a b : SignalId} (hab : a ≠ b) (sum carry : SignalId) :
    (halfAdderStep a b sum carry).Live := by
  refine ⟨?_, by simp [halfAdderStep]⟩
  intro k g hg
  -- The three guards ask for `a` alone, for `b` alone and for both, so no two hold together.
  rcases k with _ | _ | _ | k
  · cases hg
    exact ⟨fun s => s == a, by simp [Test.holds, hab.symm], by simp⟩
  · cases hg
    exact ⟨fun s => s == b, by simp [Test.holds, hab], by simp [halfAdderStep, Test.holds]⟩
  · cases hg
    exact ⟨fun _ => true, by simp [Test.holds], by simp [halfAdderStep, Test.holds]⟩
  · simp [halfAdderStep] at hg

theorem halfAdderCode_live (a b sum carry : SignalId) : (halfAdderCode a b sum carry).Live := by
  by_cases hab : a = b
  · rw [halfAdderCode, if_pos hab]
    exact (Code.Live.single _).branch ⟨fun _ => true, by simp⟩ _
  · rw [halfAdderCode, if_neg hab]
    intro s hs
    rw [List.mem_singleton.mp hs]
    exact halfAdderStep_live hab sum carry

theorem fullAdderCode_live (n : Nat) (a b carryIn : SignalId) : (fullAdderCode n a b carryIn).Live := by
  have hcells := ((Code.Live.single [.drive ⟨n + 1⟩ false]).andThen (halfAdderCode_live a b ⟨n + 2⟩ ⟨n + 3⟩)).andThen
    (halfAdderCode_live ⟨n + 2⟩ carryIn ⟨n + 4⟩ ⟨n + 5⟩)
  exact (hcells.branch ⟨fun _ => true, rfl⟩ _).act _

theorem rippleCode_live : ∀ {c : Code} (n : Nat) (carryIn : SignalId) (bits : List BitSlice), c.Live →
    (rippleCode c n carryIn bits).Live
  | _, _, _, [], hc => hc
  | _, n, carryIn, bit :: rest, hc =>
    rippleCode_live (n + 6) ⟨n + 1⟩ rest (hc.andThen ((fullAdderCode_live n bit.a bit.b carryIn).act _))

theorem addCode_live (n : Nat) (a b sum : Register) (carryIn : SignalId) : (addCode n a b sum carryIn).Live :=
  (rippleCode_live _ _ _ (.single _)).branch ⟨fun _ => true, by simp⟩ _

theorem invertStep_live (bit : SignalId) : (invertStep bit).Live :=
  ⟨.singleton ⟨fun _ => true, by simp⟩, by simp [invertStep]⟩

theorem invertCode_live (bits : List SignalId) : (invertCode bits).Live := by
  intro s hs
  simp only [invertCode, List.mem_cons, List.mem_map] at hs
  rcases hs with rfl | ⟨bit, -, rfl⟩
  · exact .of_no_arms _ _
  · exact invertStep_live bit

end Block

/-! ## What blocks add -/

/-- From `d` to `d'` live code was added for the fragments, one after the other, and nothing else
was done to the states. -/
def Lays (d d' : Design) (fs : List Fragment) : Prop :=
  ∃ l : List (Fragment × Code), l.map Prod.fst = fs ∧ (∀ p ∈ l, p.2.Live) ∧ Emitted d.states d'.signals.size d' l

namespace Lays

variable {d d₁ d' : Design} {fs : List Fragment} {f : Fragment}

theorem of_states (h : d'.states = d.states) : Lays d d' [] :=
  ⟨[], rfl, by simp, (Emitted.start d).of_states h rfl⟩

theorem of_emitted {n : Nat} {c : Code} (h : Emitted d.states n d' [(f, c)]) (hc : c.Live) : Lays d d' [f] :=
  ⟨[(f, c)], rfl, by simpa using hc, h.signals ▸ h⟩

theorem append {gs : List Fragment} (h : Lays d d₁ fs) (h' : Lays d₁ d' gs) : Lays d d' (fs ++ gs) := by
  obtain ⟨l, rfl, hlive, hl⟩ := h
  obtain ⟨l', rfl, hlive', hl'⟩ := h'
  refine ⟨l ++ l', by simp, fun p hp => ?_, hl.append hl'⟩
  rcases List.mem_append.mp hp with hp | hp
  · exact hlive p hp
  · exact hlive' p hp

/-- Construction that adds no states may come before. -/
theorem after (hstates : d₁.states = d.states) (h : Lays d₁ d' fs) : Lays d d' fs := (of_states hstates).append h

theorem sequence {top : Fragment} (h : Lays d d₁ (f :: fs)) (hs : Design.sequence (f :: fs) d₁ = .ok top d') :
    Lays d d' [top] := by
  obtain ⟨l, hfs, hlive, hl⟩ := h
  cases l with
  | nil => cases hfs
  | cons p l =>
    obtain ⟨g, c⟩ := p
    rw [List.map_cons, List.cons.injEq] at hfs
    obtain ⟨rfl, rfl⟩ := hfs
    refine of_emitted (hl.sequence hs) (.foldl_andThen (hlive (g, c) (by simp)) fun e he => ?_)
    obtain ⟨q, hq, rfl⟩ := List.mem_map.mp he
    exact hlive q (by simp [hq])

theorem chain {g top : Fragment} (h : Lays d d₁ [f, g]) (hs : Design.chain f g d₁ = .ok top d') :
    Lays d d' [top] :=
  h.sequence (bind_eq_ok.mpr ⟨top, d', hs, rfl⟩)

end Lays

namespace Block

variable {d d' : Design}

theorem add_lays {a b : Register} {carryIn : Option SignalId} {adder : RippleAdder}
    (h : add a b carryIn d = .ok adder d') : Lays d d' [adder.fragment] := by
  simp only [add, bind_eq_ok, requireSameWidth_eq_ok] at h
  obtain ⟨_, _, ⟨hwidth, rfl⟩, c, d₁, hcarryIn, h⟩ := h
  have hadder : Lays d₁ d' [adder.fragment] := .of_emitted (addWithCarry_emitted h hwidth).1 (addCode_live _ _ _ _ _)
  exact hadder.after ((signalOrZero_quiet carryIn).states hcarryIn)

theorem invert_lays {a : Register} {f : Fragment} (h : invert a d = .ok f d') : Lays d d' [f] :=
  .of_emitted (invert_emitted h) (invertCode_live _)

theorem move_lays {src dst : Register} {f : Fragment} (h : move src dst d = .ok f d') : Lays d d' [f] :=
  .of_emitted (move_emitted h).1 (.single _)

theorem complement_lays {a : Register} {c : Complement} (h : complement a d = .ok c d') : Lays d d' [c.fragment] := by
  simp only [complement, one, bind_eq_ok, pure_eq_ok] at h
  obtain ⟨unit, d₁, hunit, inverted, d₂, hinvert, sum, d₃, hsum, back, d₄, hback, top, d₅, htop, rfl, rfl⟩ := h
  have hparts := (invert_lays hinvert).append ((add_lays hsum).append (move_lays hback))
  exact (hparts.sequence htop).after ((constantRegister_quiet 1 a.width).states hunit)

theorem subtract_lays {a b : Register} {diff : Difference} (h : subtract a b d = .ok diff d') :
    Lays d d' [diff.fragment] := by
  simp only [subtract, bind_eq_ok, pure_eq_ok, requireSameWidth_eq_ok, requireDisjoint_eq_ok] at h
  obtain ⟨_, _, ⟨-, rfl⟩, _, _, ⟨-, rfl⟩, negated, d₁, hnegated, sum, d₂, hsum, back, d₃, hback, top, d₄, htop, rfl,
    rfl⟩ := h
  exact ((complement_lays hnegated).append ((add_lays hsum).append (move_lays hback))).sequence htop

theorem accumulate_lays {a b : Register} {acc : Accumulator} (h : accumulate a b d = .ok acc d') :
    Lays d d' [acc.fragment] := by
  simp only [accumulate, bind_eq_ok, pure_eq_ok] at h
  obtain ⟨sum, d₁, hsum, back, d₂, hback, top, d₃, htop, rfl, rfl⟩ := h
  exact ((add_lays hsum).append (move_lays hback)).chain htop

theorem increment_lays {a : Register} {acc : Accumulator} (h : increment a d = .ok acc d') :
    Lays d d' [acc.fragment] := by
  simp only [increment, one, bind_eq_ok] at h
  obtain ⟨unit, d₁, hunit, h⟩ := h
  exact (accumulate_lays h).after ((constantRegister_quiet 1 a.width).states hunit)

theorem decrement_lays {a : Register} {acc : Accumulator} (h : decrement a d = .ok acc d') :
    Lays d d' [acc.fragment] := by
  simp only [decrement, bind_eq_ok] at h
  obtain ⟨ones, d₁, hones, h⟩ := h
  exact (accumulate_lays h).after ((minusOne_quiet a.width).states hones)

end Block

/-- Every block that could be built is live code after the states that were there. -/
theorem Builds.lays {d d' : Design} {i : Instruction} {f : Fragment} (h : Builds d i f d') : Lays d d' [f] := by
  cases h with
  | halfAdder h => exact .of_emitted (halfAdder_emitted h).1 (halfAdderCode_live _ _ _ _)
  | fullAdder h => exact .of_emitted (fullAdder_emitted h).1 (fullAdderCode_live _ _ _ _)
  | add h => exact add_lays h
  | invert h => exact invert_lays h
  | complement h => exact complement_lays h
  | subtract h => exact subtract_lays h
  | increment h => exact increment_lays h
  | decrement h => exact decrement_lays h
  | move h => exact move_lays h
  | loadSignal h => exact .of_emitted (loadSignal_emitted h) (.single _)
  | loadRegister h => exact .of_emitted (loadRegister_emitted h) (.single _)

/-! ## Blocks are regions -/

theorem Design.Edit.signals_extended {d d' : Design} (h : Edit d d') : d.signals.toList <+: d'.signals.toList := by
  cases h with
  | signal info => exact ⟨[info], by simp [pushSignal]⟩
  | scope | zero | constant | state | action | transition | default => exact List.prefix_refl _

theorem Design.Edits.signals_extended {d d' : Design} (h : Edits d d') :
    d.signals.toList <+: d'.signals.toList :=
  h.invariant (I := fun d₁ => d.signals.toList <+: d₁.signals.toList) (fun _ _ he h => h.trans he.signals_extended)
    (List.prefix_refl _)

theorem Emitted.states_extended {t : Array StateNode} {n : Nat} {d : Design} {l : List (Fragment × Code)}
    (h : Emitted t n d l) : t.toList <+: d.states.toList := by
  rw [List.prefix_iff_getElem?]
  intro i hi
  rw [Array.getElem?_toList, h.old i hi, Array.getElem?_eq_getElem hi, Array.getElem_toList]

/-- One fragment that was added is all the states that were. -/
theorem Lays.stretch {d d' : Design} {f : Fragment} (h : Lays d d' [f]) :
    d.states.toList <+: d'.states.toList ∧ f.Stretch d'.states ∧ f.Open d'.states ∧
      d.states.size < d'.states.size ∧
      f = ⟨⟨d.states.size⟩, ⟨d'.states.size - 1⟩, stateRange d.states.size (d'.states.size - d.states.size)⟩ := by
  obtain ⟨l, hl, hlive, he⟩ := h
  obtain ⟨⟨g, c⟩, rfl, rfl⟩ := List.map_eq_singleton_iff.mp hl
  have hsize := he.size
  rw [rowSize_cons, rowSize_nil, Nat.add_zero, Code.size] at hsize
  obtain rfl := he.fragment
  refine ⟨he.states_extended, he.code.stretch (hlive _ List.mem_cons_self), he.code.isOpen, by omega, ?_⟩
  simp only [hsize, Code.fragment, Code.size]
  congr 2
  omega

theorem Lays.mem_states {d d' : Design} {f : Fragment} (h : Lays d d' [f]) {q : StateId} :
    q ∈ f.states ↔ d.states.size ≤ q.index ∧ q.index < d'.states.size := by
  obtain ⟨-, -, -, hlt, hf⟩ := h.stretch
  rw [hf, mem_stateRange]
  omega

/-- **Every block is a region of its own.** The signals and states that there were stay as they are.
The states of the block are all the new ones, in order: it is entered at the first, and left at
the last, which no edge leaves. Each other state has a default, all its edges lead to later states
of the block, and every state can be reached from the first. -/
theorem Builds.isRegion {d d' : Design} {i : Instruction} {f : Fragment} (h : Builds d i f d') :
    d.signals.toList <+: d'.signals.toList ∧ d.states.toList <+: d'.states.toList ∧
    d.states.size < d'.states.size ∧ f.states = stateRange d.states.size (d'.states.size - d.states.size) ∧
    f.entry = ⟨d.states.size⟩ ∧ f.exit = ⟨d'.states.size - 1⟩ ∧
    (∃ n, d'.state? f.exit = some n ∧ n.successors = []) ∧
    (∀ q ∈ f.states, q ≠ f.exit → ∃ n, d'.state? q = some n ∧ n.defaultTarget.isSome = true ∧
      ∀ target ∈ n.successors, target ∈ f.states ∧ q.index < target.index) ∧
    ∀ q ∈ f.states, (d'.program f).Path f.entry q := by
  obtain ⟨hextended, hstretch, ⟨last, hlast, htrans, hdefault⟩, hlt, hf⟩ := h.lays.stretch
  refine ⟨h.edits.signals_extended, hextended, hlt, congrArg Fragment.states hf, congrArg Fragment.entry hf,
    congrArg Fragment.exit hf, ⟨last, hlast, by simp [StateNode.successors, htrans, hdefault]⟩, ?_, ?_⟩
  · intro q hq hne
    have hq' := hstretch.mem_states.mp hq
    obtain ⟨n, hn, hadv⟩ := hstretch.forward.advances q.index hq'.1 (hstretch.lt_exit hq hne)
    refine ⟨n, hn, hadv.default, fun target htarget => ?_⟩
    have ht := hadv.targets target htarget
    exact ⟨hstretch.mem_states.mpr ⟨by omega, ht.2⟩, ht.1⟩
  · intro q hq
    have hq' := hstretch.mem_states.mp hq
    exact Forward.path (p := d'.program f) hstretch.forward hq'.1 hq'.2

/-- The complement of a register that repeats a signal. -/
theorem complement_isRegion :
    ∃ (c : Complement) (d' : Design),
      complement ⟨"aa", [⟨0⟩, ⟨0⟩]⟩ (after (Call.createSignal "a").perform (.new {})) = .ok c d' ∧
      d'.states.size = 34 ∧ c.fragment.exit = ⟨33⟩ ∧ ∀ q ∈ stateRange 0 34, (d'.program c.fragment).Path ⟨0⟩ q := by
  obtain ⟨c, hc, hfragment⟩ := eq_ok_of_result? (x := complement ⟨"aa", [⟨0⟩, ⟨0⟩]⟩)
    (s := after (Call.createSignal "a").perform (.new {})) (f := Complement.fragment)
    (b := ⟨⟨0⟩, ⟨33⟩, stateRange 0 34⟩) (by decide +kernel)
  obtain ⟨-, -, -, -, -, -, -, -, hpath⟩ := Builds.isRegion (.complement hc)
  rw [hfragment] at hpath
  exact ⟨c, _, hc, by decide +kernel, congrArg Fragment.exit hfragment, hfragment ▸ hpath⟩

/-! ## Designs of blocks only -/

/-- A design that was made by asking for signals, registers and constants and by building blocks,
and the fragments of those blocks. Nothing is asked of their operands. -/
inductive Composed (settings : DesignSettings) : Design → List Fragment → Prop
  | new : Composed settings (.new settings) []
  | declare {d : Design} {fs : List Fragment} {c : Call} (h : Composed settings d fs) (hc : c.declares = true) :
    Composed settings (after c.perform d) fs
  | build {d d' : Design} {fs : List Fragment} {i : Instruction} {f : Fragment} (h : Composed settings d fs)
    (hb : Builds d i f d') : Composed settings d' (fs ++ [f])

theorem Composed.lays {settings : DesignSettings} {d : Design} {fs : List Fragment} (h : Composed settings d fs) :
    Lays (.new settings) d fs := by
  induction h with
  | new => exact .of_states rfl
  | @declare d fs c _ hc ih => exact List.append_nil fs ▸ ih.append (.of_states (Call.quiet hc d))
  | build _ hb ih => exact ih.append hb.lays

end SignalGraph
