/-
Signals that have their values from a run, whatever they held before.

Two runs of a block go the same way as long as what its guards read is the same in both, and a
signal that is written from such signals is the same in both after. `ActionsSettle`,
`StepsSettle` and `Code.Settles` are the rules of that: where the signals of `A` are settled
before, those of `B` are settled after, on every way through the code. The code of each block
settles the signals that were made for it: it clears them before it reads them.
-/
import Mathlib.Data.List.GetD
import Mathlib.Data.Set.Function
import SignalGraph.Proofs.Arithmetic
import SignalGraph.Proofs.TruthTable

namespace SignalGraph

open Design

/-! ## Actions -/

/-- Where the signals of `A` are settled, those of `B` are after the actions. -/
inductive ActionsSettle : Set SignalId → List Action → Set SignalId → Prop
  | nil {A B : Set SignalId} : B ⊆ A → ActionsSettle A [] B
  | cons {A B : Set SignalId} {a : Action} {rest : List Action} : (∀ s ∈ a.reads, s ∈ A) →
      ActionsSettle (insert a.target A) rest B → ActionsSettle A (a :: rest) B

namespace ActionsSettle

variable {A A' B B' C : Set SignalId} {as bs : List Action}

theorem mono (h : ActionsSettle A as B) (hA : A ⊆ A') (hB : B' ⊆ B) : ActionsSettle A' as B' := by
  induction h generalizing A' with
  | nil h => exact .nil (hB.trans (h.trans hA))
  | cons hreads _ ih => exact .cons (fun s hs => hA (hreads s hs)) (ih (Set.insert_subset_insert hA) hB)

theorem append (h : ActionsSettle A as B) (h' : ActionsSettle B bs C) : ActionsSettle A (as ++ bs) C := by
  induction h with
  | nil h => exact h'.mono h subset_rfl
  | cons hreads _ ih => exact .cons hreads (ih h')

/-- Actions that read settled signals leave these settled. -/
theorem keep (h : ∀ a ∈ as, ∀ s ∈ a.reads, s ∈ A) : ActionsSettle A as A := by
  induction as generalizing A with
  | nil => exact .nil subset_rfl
  | cons a rest ih =>
    rw [List.forall_mem_cons] at h
    have hrest := ih fun b hb s hs => Set.mem_insert_of_mem a.target (h.2 b hb s hs)
    exact .cons h.1 (hrest.mono subset_rfl (Set.subset_insert _ _))

theorem drive (s : SignalId) (b : Bool) : ActionsSettle A [.drive s b] (insert s A) :=
  .cons (by simp [Action.reads]) (.nil subset_rfl)

theorem copy {src : SignalId} (h : src ∈ A) (dst : SignalId) : ActionsSettle A [.copy src dst] (insert dst A) :=
  .cons (by simpa [Action.reads] using h) (.nil subset_rfl)

end ActionsSettle

theorem Action.eqOn_apply {a : Action} {A : Set SignalId} {v w : Valuation} (h : Set.EqOn v w A)
    (hreads : ∀ s ∈ a.reads, s ∈ A) : Set.EqOn (a.apply v) (a.apply w) (insert a.target A) := by
  have hvalue : a.value v = a.value w := by
    cases a with
    | drive => rfl
    | copy src dst => exact h (hreads src (by simp [reads]))
  intro s hs
  by_cases he : s = a.target
  · simp [apply, he, hvalue]
  · simp only [apply, Valuation.set_of_ne _ he]
    exact h (hs.resolve_left he)

theorem ActionsSettle.eqOn {A B : Set SignalId} {actions : List Action} (h : ActionsSettle A actions B)
    {v w : Valuation} (hvw : Set.EqOn v w A) : Set.EqOn (v.after actions) (w.after actions) B := by
  induction h generalizing v w with
  | nil h => exact hvw.mono h
  | cons hreads _ ih => exact ih (Action.eqOn_apply hvw hreads)

/-! ## Steps -/

theorem Arm.holds_congr {arm : Arm} {v w : Valuation} (h : ∀ g ∈ arm.guards, ∀ s ∈ g.signals, v s = w s) :
    arm.holds v = arm.holds w := by
  rw [Bool.eq_iff_iff, Arm.holds, Arm.holds, List.any_eq_true, List.any_eq_true]
  refine exists_congr fun g => and_congr_right fun hg => ?_
  rw [Guard.holds_congr (h g hg)]

theorem findIdx_holds_congr {v w : Valuation} : ∀ {arms : List Arm}, (∀ arm ∈ arms, arm.holds v = arm.holds w) →
    arms.findIdx (·.holds v) = arms.findIdx (·.holds w)
  | [], _ => rfl
  | arm :: rest, h => by
    rw [List.forall_mem_cons] at h
    rw [List.findIdx_cons, List.findIdx_cons, h.1, findIdx_holds_congr h.2]

/-- Where the signals of `A` are settled, those of `B` are after the steps. A step's guards read what is
settled by the actions before them, so that the arm that is taken is settled too. -/
inductive StepsSettle : Set SignalId → List Step → Set SignalId → Prop
  | nil {A B : Set SignalId} : B ⊆ A → StepsSettle A [] B
  | cons {A B C : Set SignalId} {s : Step} {rest : List Step} (hactions : ActionsSettle A s.actions B)
      (hguards : ∀ arm ∈ s.arms, ∀ g ∈ arm.guards, ∀ x ∈ g.signals, x ∈ B)
      (hbodies : ∀ body ∈ s.bodies, ActionsSettle B body B) (hrest : StepsSettle B rest C) :
      StepsSettle A (s :: rest) C

namespace StepsSettle

variable {A A' B C : Set SignalId} {steps rest : List Step}

theorem mono (h : StepsSettle A steps B) (hA : A ⊆ A') : StepsSettle A' steps B := by
  cases h with
  | nil h => exact .nil (h.trans hA)
  | cons hactions hguards hbodies hrest => exact .cons (hactions.mono hA subset_rfl) hguards hbodies hrest

theorem append (h : StepsSettle A steps B) (h' : StepsSettle B rest C) : StepsSettle A (steps ++ rest) C := by
  induction h with
  | nil h => exact h'.mono h
  | cons hactions hguards hbodies _ ih => exact .cons hactions hguards hbodies (ih h')

/-- A state without arms. -/
theorem single {actions : List Action} (h : ActionsSettle A actions B) : StepsSettle A [⟨actions, [], none⟩] B :=
  .cons h (by simp) (by simp [Step.bodies]) (.nil subset_rfl)

/-- A state with one arm. -/
theorem arm {actions body : List Action} {guard : Guard} (h : ActionsSettle A actions B)
    (hguard : ∀ x ∈ guard.signals, x ∈ B) (hbody : ActionsSettle B body B) :
    StepsSettle A [⟨actions, [⟨[guard], body⟩], none⟩] B :=
  .cons h (by simpa using hguard) (by simpa [Step.bodies] using hbody) (.nil subset_rfl)

theorem eqOn (h : StepsSettle A steps B) {v w : Valuation} (hvw : Set.EqOn v w A) :
    choices steps v = choices steps w ∧ Set.EqOn (execSteps steps v) (execSteps steps w) B := by
  induction h generalizing v w with
  | nil h => exact ⟨rfl, hvw.mono h⟩
  | @cons A B _ s rest hactions hguards hbodies _ ih =>
    have hacted := hactions.eqOn hvw
    have hchoice : s.choice v = s.choice w := findIdx_holds_congr fun arm harm =>
      Arm.holds_congr fun g hg x hx => hacted (hguards arm harm g hg x hx)
    have hexec : Set.EqOn (s.exec v) (s.exec w) B := by
      show Set.EqOn ((v.after s.actions).after (s.bodies.getD (s.choice v) []))
        ((w.after s.actions).after (s.bodies.getD (s.choice w) [])) B
      rw [hchoice]
      by_cases hj : s.choice w < s.bodies.length
      · rw [List.getD_eq_getElem _ _ hj]
        exact (hbodies _ (List.getElem_mem hj)).eqOn hacted
      · rw [List.getD_eq_default _ _ (Nat.le_of_not_lt hj)]
        exact hacted
    obtain ⟨hchoices, hrest⟩ := ih hexec
    exact ⟨congrArg₂ List.cons hchoice hchoices, hrest⟩

end StepsSettle

/-! ## Code -/

namespace Code

/-- Where the signals of `A` are settled, those of `B` are after the code. -/
def Settles (c : Code) (A B : Set SignalId) : Prop := ∃ M, StepsSettle A c.steps M ∧ ActionsSettle M c.last B

/-- The arms that are chosen in the code. -/
def choices (c : Code) (v : Valuation) : List Nat := SignalGraph.choices c.steps v

namespace Settles

variable {c e : Code} {A B C : Set SignalId}

/-- Where the settled signals agree, control goes the same way, and it settles what it says. -/
theorem eqOn (h : c.Settles A B) {v w : Valuation} (hvw : Set.EqOn v w A) :
    c.choices v = c.choices w ∧ Set.EqOn (c.exec v) (c.exec w) B := by
  obtain ⟨M, hsteps, hlast⟩ := h
  obtain ⟨hchoices, hexec⟩ := hsteps.eqOn hvw
  exact ⟨hchoices, hlast.eqOn hexec⟩

theorem mono {B' : Set SignalId} (h : c.Settles A B) (hB : B' ⊆ B) : c.Settles A B' := by
  obtain ⟨M, hsteps, hlast⟩ := h
  exact ⟨M, hsteps, hlast.mono subset_rfl hB⟩

theorem single {actions : List Action} (h : ActionsSettle A actions B) : (Code.single actions).Settles A B :=
  ⟨A, .nil subset_rfl, h⟩

theorem copy {src : SignalId} (h : c.Settles A B) (hsrc : src ∈ B) (dst : SignalId) :
    (c.act (.copy src dst)).Settles A (insert dst B) := by
  obtain ⟨M, hsteps, hlast⟩ := h
  exact ⟨M, hsteps, hlast.append (.copy hsrc dst)⟩

theorem andThen (h : c.Settles A B) (h' : e.Settles B C) : (c.andThen e).Settles A C := by
  obtain ⟨M, hsteps, hlast⟩ := h
  obtain ⟨M', hsteps', hlast'⟩ := h'
  exact ⟨M', hsteps.append ((StepsSettle.single hlast).append hsteps'), hlast'⟩

theorem branch (h : c.Settles A B) (guard : Guard) (hguard : ∀ x ∈ guard.signals, x ∈ B) (s : SignalId)
    (b : Bool) : (c.branch guard [.drive s b]).Settles A B := by
  obtain ⟨M, hsteps, hlast⟩ := h
  have harm : ActionsSettle B [.drive s b] B := (ActionsSettle.drive s b).mono subset_rfl (Set.subset_insert s B)
  exact ⟨B, hsteps.append (.arm hlast hguard harm), .nil subset_rfl⟩

end Settles

end Code

/-- Where the signals of `A` are settled, those of `B` are after the codes, one after the other. -/
inductive CodesSettle : Set SignalId → List Code → Set SignalId → Prop
  | nil {A B : Set SignalId} : B ⊆ A → CodesSettle A [] B
  | cons {A B C : Set SignalId} {c : Code} {rest : List Code} : c.Settles A B → CodesSettle B rest C →
      CodesSettle A (c :: rest) C

namespace CodesSettle

variable {A B C : Set SignalId} {cs es : List Code}

theorem mono (h : CodesSettle A cs B) {B' : Set SignalId} (hB : B' ⊆ B) : CodesSettle A cs B' := by
  induction h with
  | nil h => exact .nil (hB.trans h)
  | cons hc _ ih => exact .cons hc (ih hB)

theorem append (h : CodesSettle A cs B) (h' : CodesSettle B es C) : CodesSettle A (cs ++ es) C := by
  induction h with
  | nil h =>
    cases h' with
    | nil h' => exact .nil (h'.trans h)
    | cons hc hrest =>
      obtain ⟨M, hsteps, hlast⟩ := hc
      exact .cons ⟨M, hsteps.mono h, hlast⟩ hrest
  | cons hc _ ih => exact .cons hc (ih h')

theorem foldl_andThen {c : Code} (h : CodesSettle B es C) (hc : c.Settles A B) :
    (es.foldl Code.andThen c).Settles A C := by
  induction h generalizing c with
  | nil h => exact hc.mono h
  | cons he _ ih => exact ih (hc.andThen he)

end CodesSettle

/-! ## The code of blocks -/

/-- The signals that were made while the table grew from `lo` entries to `hi`. -/
def made (lo hi : Nat) : Set SignalId := {s | lo ≤ s.index ∧ s.index < hi}

namespace Block

variable {A : Set SignalId}

theorem halfAdderCode_settles {a b : SignalId} (ha : a ∈ A) (hb : b ∈ A) (sum carry : SignalId) :
    (halfAdderCode a b sum carry).Settles A (insert carry (insert sum A)) := by
  have hclear : ActionsSettle A [.drive sum false, .drive carry false] (insert carry (insert sum A)) :=
    (ActionsSettle.drive sum false).append (.drive carry false)
  have ha' : a ∈ insert carry (insert sum A) := by simp [ha]
  have hb' : b ∈ insert carry (insert sum A) := by simp [hb]
  by_cases hab : a = b
  · rw [halfAdderCode, if_pos hab]
    exact (Code.Settles.single hclear).branch _ (by simpa [Guard.mem_signals, Guard.when, Guard.all] using ha') _ _
  · rw [halfAdderCode, if_neg hab]
    refine ⟨_, .cons hclear ?_ ?_ (.nil subset_rfl), .nil subset_rfl⟩
    · intro arm harm g hg x hx
      have hread : x = a ∨ x = b := by
        simp only [halfAdderStep, List.mem_cons, List.not_mem_nil, or_false] at harm
        rcases harm with rfl | rfl
        · simp only [List.mem_cons, List.not_mem_nil, or_false] at hg
          rcases hg with rfl | rfl <;> simpa [Guard.mem_signals, Guard.all, eq_comm] using hx
        · rw [List.mem_singleton.mp hg] at hx
          simpa [Guard.mem_signals, Guard.all, eq_comm] using hx
      rcases hread with rfl | rfl
      · exact ha'
      · exact hb'
    · simp only [Step.bodies, halfAdderStep, List.map_cons, List.map_nil, Option.toList_none, List.append_nil,
        List.forall_mem_cons]
      exact ⟨.keep (by simp [Action.reads]), .keep (by simp [Action.reads]), by simp⟩

theorem fullAdderCode_settles {a b carryIn : SignalId} (n : Nat) (ha : a ∈ A) (hb : b ∈ A) (hc : carryIn ∈ A) :
    (fullAdderCode n a b carryIn).Settles A (A ∪ made n (n + 6)) := by
  have hclear : (Code.single [.drive ⟨n + 1⟩ false]).Settles A (insert ⟨n + 1⟩ A) :=
    .single (.drive ⟨n + 1⟩ false)
  have hfirst := hclear.andThen
    (halfAdderCode_settles (Set.mem_insert_of_mem _ ha) (Set.mem_insert_of_mem _ hb) ⟨n + 2⟩ ⟨n + 3⟩)
  have hsecond := hfirst.andThen (halfAdderCode_settles (Set.mem_insert_of_mem _ (Set.mem_insert ⟨n + 2⟩ _))
    (by simp only [Set.mem_insert_iff, hc, or_true] : carryIn ∈ _) ⟨n + 4⟩ ⟨n + 5⟩)
  have hcarry := hsecond.branch (.any [[⟨⟨n + 3⟩, true⟩], [⟨⟨n + 5⟩, true⟩]]) (fun x hx => by
    have hread : x = ⟨n + 3⟩ ∨ x = ⟨n + 5⟩ := by simpa [Guard.mem_signals, Guard.any, eq_comm] using hx
    rcases hread with rfl | rfl <;> simp) ⟨n + 1⟩ true
  have hsum := hcarry.copy (Set.mem_insert_of_mem _ (Set.mem_insert (SignalId.mk (n + 4)) _)) ⟨n⟩
  refine hsum.mono ?_
  intro s hs
  rcases hs with hs | ⟨hlo, hhi⟩
  · simp [hs]
  · obtain ⟨i⟩ := s
    simp only [Set.mem_insert_iff, SignalId.mk.injEq]
    simp only at hlo hhi
    omega

theorem rippleCarry_mem : ∀ (bits : List BitSlice) (n : Nat) (carryIn : SignalId),
    rippleCarry n carryIn bits = carryIn ∨ rippleCarry n carryIn bits ∈ made n (n + 6 * bits.length)
  | [], _, _ => .inl rfl
  | _ :: rest, n, _ => by
    right
    rw [rippleCarry, List.length_cons]
    rcases rippleCarry_mem rest (n + 6) ⟨n + 1⟩ with h | ⟨hlo, hhi⟩
    · rw [h]
      exact ⟨by simp, by dsimp only; omega⟩
    · exact ⟨by omega, by omega⟩

theorem rippleCode_settles {B : Set SignalId} : ∀ {bits : List BitSlice} {c : Code} {n : Nat} {carryIn : SignalId}
    {A : Set SignalId}, c.Settles B A → carryIn ∈ A → (∀ bit ∈ bits, bit.a ∈ A ∧ bit.b ∈ A) →
    (rippleCode c n carryIn bits).Settles B
      (A ∪ (made n (n + 6 * bits.length) ∪ {s | s ∈ bits.map BitSlice.sum}))
  | [], c, n, carryIn, A, hc, hcarry, _ => by
    refine hc.mono ?_
    intro s hs
    rcases hs with hs | ⟨hlo, hhi⟩ | hs
    · exact hs
    · exact absurd hhi (Nat.not_lt_of_le hlo)
    · cases hs
  | bit :: rest, c, n, carryIn, A, hc, hcarry, hbits => by
    rw [List.forall_mem_cons] at hbits
    obtain ⟨⟨ha, hb⟩, hbits⟩ := hbits
    have hfirst : (⟨n⟩ : SignalId) ∈ A ∪ made n (n + 6) := .inr ⟨Nat.le_refl n, by simp⟩
    have hcell := (fullAdderCode_settles n ha hb hcarry).copy hfirst bit.sum
    have hrest := @rippleCode_settles B rest _ (n + 6) ⟨n + 1⟩ _ (hc.andThen hcell)
      (.inr (.inr ⟨by simp, by simp⟩))
      fun bit' hbit' => ⟨.inr (.inl (hbits bit' hbit').1), .inr (.inl (hbits bit' hbit').2)⟩
    refine hrest.mono ?_
    intro s hs
    rcases hs with hs | ⟨hlo, hhi⟩ | hs
    · exact .inl (.inr (.inl hs))
    · rw [List.length_cons] at hhi
      by_cases hs : s.index < n + 6
      · exact .inl (.inr (.inr ⟨hlo, hs⟩))
      · exact .inr (.inl ⟨by omega, by omega⟩)
    · rcases List.mem_cons.mp hs with rfl | hs
      · exact .inl (.inl rfl)
      · exact .inr (.inr hs)

theorem addCode_settles {n : Nat} {a b sum : Register} {carryIn : SignalId} (hwidth : a.width = b.width)
    (hsum : sum.bits = handles n a.width) (ha : ∀ s ∈ a.bits, s ∈ A) (hb : ∀ s ∈ b.bits, s ∈ A)
    (hcarry : carryIn ∈ A) : (addCode n a b sum carryIn).Settles A (A ∪ made n (n + addSignals a.width)) := by
  obtain ⟨hmapa, hmapb, hmaps⟩ := map_bitSlices hwidth (show a.bits.length = sum.bits.length by
    rw [hsum, length_handles, Register.width])
  have hlength : (bitSlices a b sum).length = a.width := by
    rw [← List.length_map BitSlice.a, bitSlices, hmapa, Register.width]
  have hclear : (Code.single [.drive ⟨n + a.width⟩ false]).Settles A (insert ⟨n + a.width⟩ A) :=
    .single (.drive ⟨n + a.width⟩ false)
  have hripple := rippleCode_settles (n := n + a.width + 1) hclear (Set.mem_insert_of_mem _ hcarry)
    (fun bit (hbit : bit ∈ bitSlices a b sum) => ⟨Set.mem_insert_of_mem _ (ha _ (hmapa ▸ List.mem_map_of_mem hbit)),
      Set.mem_insert_of_mem _ (hb _ (hmapb ▸ List.mem_map_of_mem hbit))⟩)
  have hread := rippleCarry_mem (bitSlices a b sum) (n + a.width + 1) carryIn
  rw [hlength] at hripple hread
  refine (hripple.branch (.when (rippleCarry (n + a.width + 1) carryIn (bitSlices a b sum)) true) ?_ _ _).mono ?_
  · intro x hx
    obtain rfl : rippleCarry (n + a.width + 1) carryIn (bitSlices a b sum) = x := by
      simpa [Guard.mem_signals, Guard.when, Guard.all] using hx
    rcases hread with h | h
    · rw [h]
      exact .inl (.inr hcarry)
    · exact .inr (.inl h)
  · intro s hs
    rcases hs with hs | ⟨hlo, hhi⟩
    · exact .inl (.inr hs)
    · rw [addSignals] at hhi
      obtain ⟨i⟩ := s
      dsimp only at hlo hhi
      rcases Nat.lt_trichotomy i (n + a.width) with hi | rfl | hi
      · refine .inr (.inr ?_)
        show _ ∈ (bitSlices a b sum).map BitSlice.sum
        rw [bitSlices, hmaps, hsum, mem_handles]
        exact ⟨hlo, hi⟩
      · exact .inl (.inl rfl)
      · exact .inr (.inl ⟨hi, by dsimp only; omega⟩)

theorem invertCode_settles {bits : List SignalId} (h : ∀ s ∈ bits, s ∈ A) : (invertCode bits).Settles A A := by
  have hsteps : StepsSettle A (bits.map invertStep) A := by
    induction bits with
    | nil => exact .nil subset_rfl
    | cons bit rest ih =>
      rw [List.forall_mem_cons] at h
      refine .cons (.nil subset_rfl) ?_ ?_ (ih h.2)
      · simpa [invertStep, Guard.mem_signals, Guard.when, Guard.all] using h.1
      · simp only [Step.bodies, invertStep, List.map_cons, List.map_nil, Option.toList_some, List.cons_append,
          List.nil_append, List.forall_mem_cons]
        exact ⟨.keep (by simp [Action.reads]), .keep (by simp [Action.reads]), by simp⟩
  exact ⟨A, (StepsSettle.single (.nil subset_rfl)).append hsteps, .nil subset_rfl⟩

theorem moveCode_settles {src : List SignalId} (h : ∀ s ∈ src, s ∈ A) (dst : List SignalId) :
    (moveCode src dst).Settles A A := by
  refine .single (.keep fun a ha s hs => ?_)
  obtain ⟨⟨x, y⟩, hmem, rfl⟩ := List.mem_map.mp ha
  obtain rfl : s = x := List.mem_singleton.mp hs
  exact h s (List.of_mem_zip hmem).1

theorem loadCode_settles (bits : List SignalId) (value : Word) : (loadCode bits value).Settles A A := by
  refine .single (.keep fun a ha s hs => ?_)
  obtain ⟨p, -, rfl⟩ := List.mem_map.mp ha
  cases hs

end Block

end SignalGraph
