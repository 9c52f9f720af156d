/-
Blocks settle the signals that were made for them.

A block makes signals for its results and for what it needs in between, and constants if there
are none yet. Where all signals that there were before and the constants are settled, the block
settles the rest (`Settled`). Blocks that are made of blocks do as their parts in sequence
(`Settled.append`, `Settled.sequence`), so that every block does (`Builds.settled`).
-/
import SignalGraph.Proofs.Settling
import SignalGraph.Proofs.StraightLine

namespace SignalGraph

open Design Block

/-! ## Signals of a design -/

namespace Design

/-- The signals of the table. -/
def known (d : Design) : Set SignalId := {s | s.index < d.signals.size}

/-- The constants of the table. -/
def fixed (d : Design) : Set SignalId := {s | ∃ info, d.signal? s = some info ∧ info.constant = true}

instance (d : Design) (s : SignalId) : Decidable (s ∈ d.known) := inferInstanceAs (Decidable (s.index < d.signals.size))

instance (d : Design) (s : SignalId) : Decidable (s ∈ d.fixed) :=
  decidable_of_iff ((d.signal? s).any (·.constant) = true) (Option.any_eq_true _ _)

variable {d d' : Design}

theorem Edits.known_subset (h : Edits d d') : d.known ⊆ d'.known :=
  fun _ hs => Nat.lt_of_lt_of_le hs h.signals_size_le

theorem Edits.fixed_subset (h : Edits d d') : d.fixed ⊆ d'.fixed := by
  intro s hs
  obtain ⟨info, hs, hc⟩ := hs
  exact ⟨info, h.signal? hs, hc⟩

/-- What is made for a constant is constant. -/
theorem zeroSignal_known {s : SignalId} (h : zeroSignal d = .ok s d') : d'.known ⊆ d.known ∪ d'.fixed := by
  unfold zeroSignal at h
  split at h
  · cases h
    exact Set.subset_union_left
  · simp only [addZero, bind_eq_ok, addSignal_eq_ok, modify_eq_ok, pure_eq_ok] at h
    obtain ⟨_, _, ⟨-, rfl, rfl⟩, _, _, rfl, -, rfl⟩ := h
    intro t ht
    by_cases hlt : t.index < d.signals.size
    · exact .inl hlt
    · refine .inr ⟨⟨"const.zero", false, true⟩, ?_, rfl⟩
      have hsize : t.index < (d.signals.push ⟨"const.zero", false, true⟩).size := ht
      rw [Array.size_push] at hsize
      show (d.signals.push ⟨"const.zero", false, true⟩)[t.index]? = _
      rw [Array.getElem?_push, if_pos (by omega)]

theorem addConstant_known {key : ConstantKey} {width : Nat} {bit : Nat → Bool} {r : Register}
    (h : addConstant key width bit d = .ok r d') : d'.known ⊆ d.known ∪ d'.fixed := by
  simp only [addConstant, bind_eq_ok, modify_eq_ok, pure_eq_ok] at h
  obtain ⟨_, d₁, h, _, _, rfl, -, rfl⟩ := h
  have hsignals : d₁.signals = d.signals ++ (bitInfos key.name bit true 0 width).toArray := by
    rw [(addBits_ok h).2]
  intro t ht
  by_cases hlt : t.index < d.signals.size
  · exact .inl hlt
  · have hget : d₁.signals[t.index]? = (bitInfos key.name bit true 0 width)[t.index - d.signals.size]? := by
      rw [hsignals, Array.getElem?_append_right (by omega), List.getElem?_toArray]
    have hinfo := Array.getElem?_eq_getElem (show t.index < d₁.signals.size from ht)
    obtain ⟨_, -, he⟩ := List.mem_map.mp (List.mem_of_getElem? (hget.symm.trans hinfo))
    exact .inr ⟨_, hinfo, by rw [← he]⟩

theorem constantOr_known {key : ConstantKey} {make : BuildM Register} {r : Register}
    (h : constantOr key make d = .ok r d') (hmake : make d = .ok r d' → d'.known ⊆ d.known ∪ d'.fixed) :
    d'.known ⊆ d.known ∪ d'.fixed := by
  unfold constantOr at h
  split at h
  · cases h
    exact Set.subset_union_left
  · exact hmake h

theorem constantRegister_known {value : Word} {width : Nat} {r : Register}
    (h : constantRegister value width d = .ok r d') : d'.known ⊆ d.known ∪ d'.fixed := by
  refine constantOr_known h fun h => ?_
  split at h
  · cases throw_eq_ok.mp h
  · split at h
    · exact addConstant_known h
    · cases throw_eq_ok.mp h

theorem minusOne_known {width : Nat} {r : Register} (h : minusOne width d = .ok r d') :
    d'.known ⊆ d.known ∪ d'.fixed := by
  unfold minusOne at h
  split at h
  · exact constantRegister_known h
  · exact constantOr_known h addConstant_known

theorem signalOrZero_known {carryIn : Option SignalId} {c : SignalId} (h : signalOrZero carryIn d = .ok c d') :
    d'.known ⊆ d.known ∪ d'.fixed := by
  cases carryIn with
  | some s =>
    obtain ⟨-, rfl⟩ := pure_eq_ok.mp h
    exact Set.subset_union_left
  | none => exact zeroSignal_known h

end Design

/-! ## Blocks -/

/-- From `d` to `d'` code was added for the fragments, one after the other. Where all signals that there
were and the constants are settled, all that there are then are settled after it. -/
def Settled (d d' : Design) (fs : List Fragment) : Prop :=
  ∃ l : List (Fragment × Code), l.map Prod.fst = fs ∧ Emitted d.states d'.signals.size d' l ∧
    ∀ A, d.known ⊆ A → d'.fixed ⊆ A → CodesSettle A (l.map Prod.snd) (A ∪ d'.known)

namespace Settled

variable {d d₁ d' : Design} {fs : List Fragment} {f : Fragment}

/-- Code that settles what was made for it. -/
theorem of_emitted {n : Nat} {c : Code} (h : Emitted d.states n d' [(f, c)])
    (hc : ∀ A, d.known ⊆ A → c.Settles A (A ∪ made d.signals.size n)) : Settled d d' [f] := by
  obtain rfl := h.signals
  refine ⟨[(f, c)], rfl, h, fun A hA _ => .cons (hc A hA) (.nil ?_)⟩
  intro s hs
  rcases hs with hs | hs
  · exact .inl hs
  · by_cases hlt : s.index < d.signals.size
    · exact .inl (hA hlt)
    · exact .inr ⟨Nat.le_of_not_lt hlt, hs⟩

/-- Code for which no signals were made. -/
theorem of_kept {c : Code} (h : Emitted d.states d.signals.size d' [(f, c)])
    (hc : ∀ A, d.known ⊆ A → c.Settles A A) : Settled d d' [f] := by
  refine of_emitted h fun A hA => (hc A hA).mono ?_
  intro s hs
  rcases hs with hs | ⟨hlo, hhi⟩
  · exact hs
  · exact absurd hhi (Nat.not_lt_of_le hlo)

theorem append {gs : List Fragment} (h : Settled d d₁ fs) (h' : Settled d₁ d' gs) (he : Edits d₁ d') :
    Settled d d' (fs ++ gs) := by
  obtain ⟨l, rfl, hl, hsettle⟩ := h
  obtain ⟨l', rfl, hl', hsettle'⟩ := h'
  refine ⟨l ++ l', by simp, hl.append hl', fun A hA hfixed => ?_⟩
  have hfirst := hsettle A hA (he.fixed_subset.trans hfixed)
  have hsecond := hsettle' (A ∪ d₁.known) Set.subset_union_right (hfixed.trans Set.subset_union_left)
  rw [List.map_append]
  exact hfirst.append (hsecond.mono (Set.union_subset_union_left _ Set.subset_union_left))

/-- Constants may be made before. -/
theorem after (hstates : d₁.states = d.states) (hknown : d₁.known ⊆ d.known ∪ d₁.fixed) (h : Settled d₁ d' fs)
    (he : Edits d₁ d') : Settled d d' fs := by
  obtain ⟨l, hfs, hl, hsettle⟩ := h
  refine ⟨l, hfs, hstates ▸ hl, fun A hA hfixed => hsettle A (hknown.trans ?_) hfixed⟩
  exact Set.union_subset hA (he.fixed_subset.trans hfixed)

theorem sequence {top : Fragment} (h : Settled d d₁ (f :: fs)) (hs : Design.sequence (f :: fs) d₁ = .ok top d') :
    Settled d d' [top] := by
  have he := (sequence_makes _).edits hs
  have hsignals : d'.signals = d₁.signals := (foldlM_chain_top hs).2
  obtain ⟨l, hfs, hl, hsettle⟩ := h
  cases l with
  | nil => cases hfs
  | cons p l =>
    obtain ⟨g, c⟩ := p
    rw [List.map_cons, List.cons.injEq] at hfs
    obtain ⟨rfl, rfl⟩ := hfs
    have hemitted := hl.sequence hs
    rw [← hemitted.signals] at hemitted
    refine ⟨[(top, (l.map Prod.snd).foldl Code.andThen c)], rfl, hemitted, fun A hA hfixed => ?_⟩
    have hall := hsettle A hA (he.fixed_subset.trans hfixed)
    rw [show d'.known = d₁.known by rw [known, known, hsignals]]
    cases hall with
    | cons hc hrest => exact .cons (hrest.foldl_andThen hc) (.nil subset_rfl)

theorem chain {g top : Fragment} (h : Settled d d₁ [f, g]) (hs : Design.chain f g d₁ = .ok top d') :
    Settled d d' [top] :=
  h.sequence (bind_eq_ok.mpr ⟨top, d', hs, rfl⟩)

end Settled

namespace Block

variable {d d' : Design}

theorem halfAdder_settled {a b : SignalId} {cell : AdderCell} (h : halfAdder a b d = .ok cell d')
    (ha : a.index < d.signals.size) (hb : b.index < d.signals.size) : Settled d d' [cell.fragment] := by
  refine .of_emitted (halfAdder_emitted h).1 fun A hA => (halfAdderCode_settles (hA ha) (hA hb) _ _).mono ?_
  intro s hs
  rcases hs with hs | ⟨hlo, hhi⟩
  · simp [hs]
  · obtain ⟨i⟩ := s
    simp only [Set.mem_insert_iff, SignalId.mk.injEq]
    simp only at hlo hhi
    omega

theorem fullAdder_settled {a b carryIn : SignalId} {cell : AdderCell} (h : fullAdder a b carryIn d = .ok cell d')
    (ha : a.index < d.signals.size) (hb : b.index < d.signals.size) (hc : carryIn.index < d.signals.size) :
    Settled d d' [cell.fragment] :=
  .of_emitted (fullAdder_emitted h).1 fun _ hA => fullAdderCode_settles _ (hA ha) (hA hb) (hA hc)

theorem add_settled {a b : Register} {carryIn : Option SignalId} {adder : RippleAdder} (hd : Sound d)
    (h : add a b carryIn d = .ok adder d') (ha : d.Knows a.bits) (hb : d.Knows b.bits)
    (hc : d.Knows carryIn.toList) : Settled d d' [adder.fragment] := by
  simp only [add, bind_eq_ok, requireSameWidth_eq_ok] at h
  obtain ⟨_, _, ⟨hwidth, rfl⟩, c, d₁, hcarryIn, h⟩ := h
  have he := (signalOrZero_makes carryIn).edits hcarryIn
  obtain ⟨hstates, hknown, -⟩ := signalOrZero_ok hd hcarryIn hc
  obtain ⟨hemitted, hsum, -⟩ := addWithCarry_emitted h hwidth
  have hadder : Settled d₁ d' [adder.fragment] := .of_emitted hemitted fun A hA =>
    addCode_settles hwidth hsum (fun s hs => hA (ha.mono he s hs)) (fun s hs => hA (hb.mono he s hs)) (hA hknown)
  exact hadder.after hstates (signalOrZero_known hcarryIn) ((addWithCarry_makes a b c).edits h)

theorem invert_settled {a : Register} {f : Fragment} (h : invert a d = .ok f d') (ha : d.Knows a.bits) :
    Settled d d' [f] :=
  .of_kept (invert_emitted h) fun _ hA => invertCode_settles fun s hs => hA (ha s hs)

theorem move_settled {src dst : Register} {f : Fragment} (h : move src dst d = .ok f d')
    (hsrc : d.Knows src.bits) : Settled d d' [f] :=
  .of_kept (move_emitted h).1 fun _ hA => moveCode_settles (fun s hs => hA (hsrc s hs)) _

/-- The sum of an adder is known after it. -/
theorem add_knows_sum {a b : Register} {carryIn : Option SignalId} {adder : RippleAdder}
    (h : add a b carryIn d = .ok adder d') : d'.Knows adder.sum.bits := by
  simp only [add, bind_eq_ok, requireSameWidth_eq_ok] at h
  obtain ⟨_, _, ⟨hwidth, rfl⟩, c, d₁, -, h⟩ := h
  obtain ⟨hemitted, hsum, -⟩ := addWithCarry_emitted h hwidth
  intro s hs
  rw [hsum, mem_handles] at hs
  rw [hemitted.signals, addSignals]
  omega

/-- A sum that is moved back into a register. -/
theorem addBack_settled {a b r : Register} {adder : RippleAdder} {back : Fragment} {d₁ : Design} (hd : Sound d)
    (hadd : add a b none d = .ok adder d₁) (hback : move adder.sum r d₁ = .ok back d') (ha : d.Knows a.bits)
    (hb : d.Knows b.bits) : Settled d d' [adder.fragment, back] :=
  (add_settled hd hadd ha hb (knows_nil d)).append (move_settled hback (add_knows_sum hadd))
    ((move_makes _ _).edits hback)

theorem complement_settled {a : Register} {c : Complement} (hd : Sound d) (h : complement a d = .ok c d')
    (ha : d.Knows a.bits) : Settled d d' [c.fragment] := by
  simp only [complement, one, bind_eq_ok, pure_eq_ok] at h
  obtain ⟨unit, d₁, hunit, inverted, d₂, hinvert, sum, d₃, hsum, back, d₄, hback, top, d₅, htop, rfl, rfl⟩ := h
  have he₁ := (constantRegister_makes 1 a.width).edits hunit
  have he₂ := (invert_makes a).edits hinvert
  have he₃ := ((add_makes a unit none).edits hsum).trans ((move_makes sum.sum a).edits hback)
  obtain ⟨hstates, hkeeps⟩ := constantRegister_ok hd.constants hunit
  have hadded := addBack_settled (he₂.sound (he₁.sound hd)) hsum hback (ha.mono (he₁.trans he₂))
    (hkeeps.knows.mono he₂)
  have hparts := (invert_settled hinvert (ha.mono he₁)).append hadded he₃
  exact (hparts.sequence htop).after hstates (constantRegister_known hunit)
    (he₂.trans (he₃.trans ((sequence_makes _).edits htop)))

theorem subtract_settled {a b : Register} {diff : Difference} (hd : Sound d) (h : subtract a b d = .ok diff d')
    (ha : d.Knows a.bits) (hb : d.Knows b.bits) : Settled d d' [diff.fragment] := by
  simp only [subtract, bind_eq_ok, pure_eq_ok, requireSameWidth_eq_ok, requireDisjoint_eq_ok] at h
  obtain ⟨_, _, ⟨-, rfl⟩, _, _, ⟨-, rfl⟩, negated, d₁, hnegated, sum, d₂, hsum, back, d₃, hback, top, d₄, htop, rfl,
    rfl⟩ := h
  have he₁ := (complement_makes b).edits hnegated
  have he₂ := ((add_makes a b none).edits hsum).trans ((move_makes sum.sum b).edits hback)
  have hadded := addBack_settled (he₁.sound hd) hsum hback (ha.mono he₁) (hb.mono he₁)
  exact ((complement_settled hd hnegated hb).append hadded he₂).sequence htop

theorem accumulate_settled {a b : Register} {acc : Accumulator} (hd : Sound d) (h : accumulate a b d = .ok acc d')
    (ha : d.Knows a.bits) (hb : d.Knows b.bits) : Settled d d' [acc.fragment] := by
  simp only [accumulate, bind_eq_ok, pure_eq_ok] at h
  obtain ⟨sum, d₁, hsum, back, d₂, hback, top, d₃, htop, rfl, rfl⟩ := h
  exact (addBack_settled hd hsum hback ha hb).chain htop

theorem increment_settled {a : Register} {acc : Accumulator} (hd : Sound d) (h : increment a d = .ok acc d')
    (ha : d.Knows a.bits) : Settled d d' [acc.fragment] := by
  simp only [increment, one, bind_eq_ok] at h
  obtain ⟨unit, d₁, hunit, h⟩ := h
  have he := (constantRegister_makes 1 a.width).edits hunit
  obtain ⟨hstates, hkeeps⟩ := constantRegister_ok hd.constants hunit
  have hacc := accumulate_settled (he.sound hd) h (ha.mono he) hkeeps.knows
  exact hacc.after hstates (constantRegister_known hunit) ((accumulate_makes a unit).edits h)

theorem decrement_settled {a : Register} {acc : Accumulator} (hd : Sound d) (h : decrement a d = .ok acc d')
    (ha : d.Knows a.bits) : Settled d d' [acc.fragment] := by
  simp only [decrement, bind_eq_ok] at h
  obtain ⟨ones, d₁, hones, h⟩ := h
  have he := (minusOne_makes a.width).edits hones
  obtain ⟨hstates, ⟨_, hkeeps⟩, -⟩ := minusOne_ok hd.constants hones
  have hacc := accumulate_settled (he.sound hd) h (ha.mono he) hkeeps.knows
  exact hacc.after hstates (minusOne_known hones) ((accumulate_makes a ones).edits h)

end Block

/-- Every block on signals that there were settles the signals that were made for it. -/
theorem Builds.settled {d d' : Design} {i : Instruction} {f : Fragment} (h : Builds d i f d') (hd : Sound d)
    (hknown : d.Knows i.operands) : Settled d d' [f] := by
  cases h with
  | halfAdder h =>
    obtain ⟨ha, hb⟩ : _ ∧ _ := by simpa [Instruction.operands] using hknown
    exact halfAdder_settled h ha hb
  | fullAdder h =>
    obtain ⟨ha, hb, hc⟩ : _ ∧ _ ∧ _ := by simpa [Instruction.operands, and_assoc] using hknown
    exact fullAdder_settled h ha hb hc
  | add h =>
    obtain ⟨ha, hb, hc⟩ : _ ∧ _ ∧ _ := by simpa [Instruction.operands] using hknown
    exact add_settled hd h ha hb hc
  | invert h => exact invert_settled h hknown
  | complement h => exact complement_settled hd h hknown
  | subtract h =>
    obtain ⟨ha, hb⟩ := knows_append.mp hknown
    exact subtract_settled hd h ha hb
  | increment h => exact increment_settled hd h hknown
  | decrement h => exact decrement_settled hd h hknown
  | move h => exact move_settled h (knows_append.mp hknown).1
  | loadSignal h => exact .of_kept (loadSignal_emitted h) fun _ _ => .single (.keep (by simp [Action.reads]))
  | loadRegister h => exact .of_kept (loadRegister_emitted h) fun _ _ => loadCode_settles _ _

end SignalGraph
