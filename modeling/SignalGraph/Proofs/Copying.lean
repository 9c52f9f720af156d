/-
Moving a register is one step.

A move is a single state, whose copies fire one after the other on the same values, so that a copy
could read what another has just written. Where the registers are the same or share no signal none
does, and all bits arrive at once. No edge is taken on the way: the state is the entry and the exit.
-/
import SignalGraph.Proofs.Arithmetic
import SignalGraph.Proofs.Constants
import SignalGraph.Proofs.Iteration

namespace SignalGraph

/-- A program whose entry is its exit halts when the entry was entered. -/
theorem Machine.run_of_entry_eq_exit {p : Program} (h : p.entry = p.exit) (settings : RunSettings)
    (values : Array Bool) : ∃ m, run (.load p settings values) = .ok 0 m ∧ m.isHalted = true ∧
      m.history = .empty ∧ m.values = (p.actions p.entry).foldl Action.fire values := by
  have hstep : step (.load p settings values) = .ok .halted (load p settings values).start :=
    step_eq_halted.mpr ⟨h, rfl⟩
  refine ⟨_, run_ok_iff.mpr ⟨Nat.zero_le _, _, .zero, hstep⟩, ?_, rfl, rfl⟩
  exact Bool.and_eq_true_iff.mpr ⟨rfl, beq_iff_eq.mpr h⟩

namespace Block

open Design

variable {d d' : Design} {src dst : Register}

/-! ## What is built -/

/-- The actions that copy signals to others, pair by pair. -/
def copies (pairs : List (SignalId × SignalId)) : List Action := pairs.map fun p => .copy p.1 p.2

theorem forM_copy_eq_ok {q : StateId} {pairs : List (SignalId × SignalId)} {u : PUnit}
    (hq : q.index < d.states.size) : (pairs.forM fun p => copy q p.1 p.2) d = .ok u d' ↔
      (∀ p ∈ pairs, p.1.index < d.signals.size ∧ d.Writable p.2) ∧
        d' = d.editState q fun n => { n with actions := n.actions ++ copies pairs } := by
  induction pairs generalizing d with
  | nil =>
    have hsame : (d.editState q fun n => { n with actions := n.actions ++ copies [] }) = d := by
      have : (d.states.modify q.index fun n => { n with actions := n.actions ++ copies [] }) = d.states := by
        refine Array.ext_getElem? fun i => ?_
        simp [Array.getElem?_modify, copies]
      rw [editState, this]
    rw [forM_nil_eq_ok, hsame, eq_comm]
    simp
  | cons p pairs ih =>
    have htwice : ((d.editState q (·.addAction (.copy p.1 p.2))).editState q
          fun n => { n with actions := n.actions ++ copies pairs }) =
        d.editState q fun n => { n with actions := n.actions ++ copies (p :: pairs) } := by
      rw [editState_editState]
      simp [StateNode.addAction, copies]
    simp only [forM_cons_eq_ok, copy_eq_ok, List.forall_mem_cons, ← htwice]
    constructor
    · intro h
      obtain ⟨_, ⟨hs, ht, -, rfl⟩, h⟩ := h
      obtain ⟨hrest, rfl⟩ := (ih (by rwa [editState_size])).mp h
      exact ⟨⟨⟨hs, ht⟩, hrest⟩, rfl⟩
    · intro h
      obtain ⟨⟨⟨hs, ht⟩, hrest⟩, rfl⟩ := h
      exact ⟨_, ⟨hs, ht, hq, rfl⟩, (ih (by rwa [editState_size])).mpr ⟨hrest, rfl⟩⟩

/-- A property of all pairs is one of all members of the two lists. -/
theorem forall_mem_zip {α β : Type} {as : List α} {bs : List β} (h : as.length = bs.length) {P : α → Prop}
    {Q : β → Prop} : (∀ p ∈ as.zip bs, P p.1 ∧ Q p.2) ↔ (∀ a ∈ as, P a) ∧ ∀ b ∈ bs, Q b := by
  constructor
  · intro hall
    refine ⟨fun a ha => ?_, fun b hb => ?_⟩
    · rw [← List.map_fst_zip (Nat.le_of_eq h)] at ha
      obtain ⟨p, hp, rfl⟩ := List.mem_map.mp ha
      exact (hall p hp).1
    · rw [← List.map_snd_zip (Nat.le_of_eq h.symm)] at hb
      obtain ⟨p, hp, rfl⟩ := List.mem_map.mp hb
      exact (hall p hp).2
  · exact fun hall p hp => ⟨hall.1 _ (List.of_mem_zip hp).1, hall.2 _ (List.of_mem_zip hp).2⟩

/-- The design with the state of a move. -/
def pushMove (d : Design) (src dst : Register) : Design :=
  ({ d with scopes := d.scopes + 1 }.pushState (scopedName ("mov" ++ toString d.scopes) "copy")).editState
    ⟨d.states.size⟩ fun n => { n with actions := n.actions ++ copies (src.bits.zip dst.bits) }

theorem move_eq_ok {f : Fragment} : move src dst d = .ok f d' ↔ src.width = dst.width ∧
    (src.bits = dst.bits ∨ src.overlaps dst = false) ∧ (d.Knows src.bits ∧ ∀ s ∈ dst.bits, d.Writable s) ∧
      f = .single ⟨d.states.size⟩ ∧ d' = pushMove d src dst := by
  have hpairs := fun h : src.width = dst.width => @forall_mem_zip _ _ src.bits dst.bits h
    (fun s => s.index < d.signals.size) d.Writable
  simp only [move, bind_eq_ok, pure_eq_ok, requireSameWidth_eq_ok, requireCopyable_eq_ok, reserveScope_eq_ok,
    freshState_eq_ok]
  constructor
  · intro h
    obtain ⟨_, _, ⟨hwidth, rfl⟩, _, _, ⟨hcopyable, rfl⟩, _, _, ⟨rfl, rfl⟩, _, _, ⟨rfl, rfl⟩, _, _, hcopies, rfl, rfl⟩ :=
      h
    obtain ⟨hall, rfl⟩ := (forM_copy_eq_ok (by simp)).mp hcopies
    exact ⟨hwidth, hcopyable, (hpairs hwidth).mp hall, rfl, rfl⟩
  · intro h
    obtain ⟨hwidth, hcopyable, hall, rfl, rfl⟩ := h
    refine ⟨⟨⟩, _, ⟨hwidth, rfl⟩, ⟨⟩, _, ⟨hcopyable, rfl⟩, _, _, ⟨rfl, rfl⟩, _, _, ⟨rfl, rfl⟩, ⟨⟩, _, ?_, rfl, rfl⟩
    exact (forM_copy_eq_ok (by simp)).mpr ⟨(hpairs hwidth).mpr hall, rfl⟩

theorem actions_pushMove : ((pushMove d src dst).program (.single ⟨d.states.size⟩)).actions ⟨d.states.size⟩ =
    copies (src.bits.zip dst.bits) := by
  simp only [Program.actions, Program.state?, Design.program, pushMove, editState_getElem?, pushState_getElem?]
  simp

/-! ## What it does -/

/-- The only state is entered, and that is all. -/
theorem run_pushMove (hwritable : ∀ s ∈ dst.bits, d.Writable s) (settings : RunSettings) {values : Array Bool}
    (hsize : values.size = d.signals.size) :
    ∃ m, Machine.run (.load ((pushMove d src dst).program (.single ⟨d.states.size⟩)) settings values) = .ok 0 m ∧
      m.isHalted = true ∧ m.history = .empty ∧
      m.valuation = (moveCode src.bits dst.bits).exec (Valuation.ofArray values) := by
  obtain ⟨m, hrun, hhalted, hhistory, hvalues⟩ := Machine.run_of_entry_eq_exit
    (p := (pushMove d src dst).program (.single ⟨d.states.size⟩)) rfl settings values
  refine ⟨m, hrun, hhalted, hhistory, ?_⟩
  rw [Machine.valuation, hvalues, show Program.entry _ = ⟨d.states.size⟩ from rfl, actions_pushMove]
  refine Valuation.ofArray_foldl_fire fun a ha => ?_
  obtain ⟨p, hp, rfl⟩ := List.mem_map.mp ha
  rw [hsize]
  exact (hwritable p.2 (List.of_mem_zip hp).2).lt

/-- **A move copies all bits at once.** Registers can be moved if they have the same width, are the same or share no
signal, and have signals that exist, of which those to be written are not constant. Then a machine takes no transition
and ends with the values of the source in the bits of the destination, if these differ from each other. All other
signals keep their values, and so does the source. -/
theorem move_copies_at_once (d : Design) {src dst : Register} (hnodup : dst.bits.Nodup) :
    ((∃ f d', move src dst d = .ok f d') ↔ src.width = dst.width ∧
      (src.bits = dst.bits ∨ ∀ s ∈ src.bits, s ∉ dst.bits) ∧ d.Knows src.bits ∧ ∀ s ∈ dst.bits, d.Writable s) ∧
    ∀ f d', move src dst d = .ok f d' → ∀ (settings : RunSettings) (values : Array Bool),
      values.size = d'.signals.size →
        ∃ m, Machine.run (.load (d'.program f) settings values) = .ok 0 m ∧ m.isHalted = true ∧ m.history = .empty ∧
          dst.bits.map m.valuation = src.bits.map (Valuation.ofArray values) ∧
          (∀ s, s ∉ dst.bits → m.valuation s = Valuation.ofArray values s) ∧
          ∀ s ∈ src.bits, m.valuation s = Valuation.ofArray values s := by
  have hoverlaps : src.overlaps dst = false ↔ ∀ s ∈ src.bits, s ∉ dst.bits :=
    ⟨Register.disjoint_of_overlaps, Register.overlaps_of_disjoint⟩
  refine ⟨?_, fun f d' h settings values hsize => ?_⟩
  · simp only [move_eq_ok, hoverlaps]
    constructor
    · intro h
      obtain ⟨_, _, hwidth, hcopyable, hknown, -⟩ := h
      exact ⟨hwidth, hcopyable, hknown⟩
    · exact fun h => ⟨_, _, h.1, h.2.1, h.2.2, rfl, rfl⟩
  · obtain ⟨hwidth, hcopyable, ⟨-, hwritable⟩, rfl, rfl⟩ := move_eq_ok.mp h
    obtain ⟨m, hrun, hhalted, hhistory, hexec⟩ := @run_pushMove d src dst hwritable settings values hsize
    obtain ⟨hnumber, hothers⟩ := exec_moveCode hwidth hcopyable hnodup (.ofArray values)
    rw [← hexec] at hnumber hothers
    have hbits : dst.bits.map m.valuation = src.bits.map (Valuation.ofArray values) :=
      map_eq_of_number_eq hwidth.symm hnumber
    refine ⟨m, hrun, hhalted, hhistory, hbits, hothers, fun s hs => ?_⟩
    rcases hcopyable with heq | hdisj
    · rw [← heq] at hbits
      exact List.map_inj_left.mp hbits s hs
    · exact hothers s (hoverlaps.mp hdisj s hs)

/-- A register of two bits and a signal beside it. -/
def registerAndSignal : Design := performAll [.createRegister "n" 2, .createSignal "x"] (.new {})

/-- The one signal twice, or the register itself. -/
theorem move_copies_repeated_and_same :
    (∃ f d' m, move ⟨"xx", [⟨2⟩, ⟨2⟩]⟩ ⟨"n", [⟨0⟩, ⟨1⟩]⟩ registerAndSignal = .ok f d' ∧
      Machine.run (.load (d'.program f) {} #[false, true, true]) = .ok 0 m ∧
      [m.valuation ⟨0⟩, m.valuation ⟨1⟩] = [true, true] ∧ m.valuation ⟨2⟩ = true) ∧
    ∃ f d' m, move ⟨"n", [⟨0⟩, ⟨1⟩]⟩ ⟨"n", [⟨0⟩, ⟨1⟩]⟩ registerAndSignal = .ok f d' ∧
      Machine.run (.load (d'.program f) {} #[false, true, true]) = .ok 0 m ∧
      [m.valuation ⟨0⟩, m.valuation ⟨1⟩] = [false, true] ∧ m.valuation ⟨2⟩ = true := by
  constructor
  · obtain ⟨f, h, -⟩ := eq_ok_of_result? (x := move ⟨"xx", [⟨2⟩, ⟨2⟩]⟩ ⟨"n", [⟨0⟩, ⟨1⟩]⟩) (s := registerAndSignal)
      (f := Fragment.entry) (b := ⟨0⟩) (by decide +kernel)
    obtain ⟨m, hrun, -, -, hbits, hothers, -⟩ :=
      (move_copies_at_once registerAndSignal (by decide)).2 f _ h {} #[false, true, true] (by decide +kernel)
    exact ⟨f, _, m, h, hrun, hbits, hothers ⟨2⟩ (by decide)⟩
  · obtain ⟨f, h, -⟩ := eq_ok_of_result? (x := move ⟨"n", [⟨0⟩, ⟨1⟩]⟩ ⟨"n", [⟨0⟩, ⟨1⟩]⟩) (s := registerAndSignal)
      (f := Fragment.entry) (b := ⟨0⟩) (by decide +kernel)
    obtain ⟨m, hrun, -, -, hbits, hothers, -⟩ :=
      (move_copies_at_once registerAndSignal (by decide)).2 f _ h {} #[false, true, true] (by decide +kernel)
    exact ⟨f, _, m, h, hrun, hbits, hothers ⟨2⟩ (by decide)⟩

end Block

end SignalGraph
