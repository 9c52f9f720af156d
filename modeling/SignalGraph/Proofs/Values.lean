/-
The values of a machine.

Firing an action never asks whether the signal is constant, so that constants keep their
values rests on the tables: in a well-formed one no action writes a constant. A caller that
tries is refused. So whatever is done to a machine, its table of values has the shape that it
began with, and the constants in it are what they were.
-/
import SignalGraph.Proofs.Constants
import SignalGraph.Proofs.Machines

namespace SignalGraph

/-- One value for each signal of the table, and for constants their own. -/
structure Faithful (signals : Array SignalInfo) (values : Array Bool) : Prop where
  size : values.size = signals.size
  constants : ConstantsHold signals (.ofArray values)

namespace Faithful

variable {signals : Array SignalInfo} {values : Array Bool}

theorem initial (signals : Array SignalInfo) : Faithful signals (signals.map SignalInfo.initial) :=
  ⟨Array.size_map, .initial signals⟩

/-- A write to a signal that is not constant. -/
theorem write (h : Faithful signals values) {s : SignalId} {info : SignalInfo}
    (hs : signals[s.index]? = some info) (hc : info.constant = false) (b : Bool) :
    Faithful signals (values.setIfInBounds s.index b) := by
  refine ⟨Array.size_setIfInBounds.trans h.size, ?_⟩
  intro t info' ht hc'
  have hne : s.index ≠ t.index := by
    intro he
    rw [← he, hs] at ht
    cases ht
    rw [hc] at hc'
    cases hc'
  rw [← h.constants t info' ht hc']
  simp only [Valuation.ofArray, Array.getD_eq_getD_getElem?, Array.getElem?_setIfInBounds_ne hne]

/-- Actions that write what is not constant, one after the other. -/
theorem fire {actions : List Action} (h : Faithful signals values)
    (hw : ∀ a ∈ actions, ∃ info, signals[a.target.index]? = some info ∧ info.constant = false) :
    Faithful signals (actions.foldl Action.fire values) := by
  induction actions generalizing values with
  | nil => exact h
  | cons a rest ih =>
    obtain ⟨info, hs, hc⟩ := hw a (by simp)
    exact ih (h.write hs hc _) fun b hb => hw b (by simp [hb])

end Faithful

theorem WellFormed.actions_write {p : Program} (hw : WellFormed p.signals p.states) (q : StateId) :
    ∀ a ∈ p.actions q, ∃ info, p.signals[a.target.index]? = some info ∧ info.constant = false := by
  unfold Program.actions
  split
  · next n hn => exact (hw _ n hn).writes
  · intro a ha
    cases ha

namespace Machine

/-- The machine runs the program, on values that are faithful to its signals. -/
structure Intact (p : Program) (m : Machine) : Prop where
  program : m.program = p
  values : Faithful p.signals m.values

theorem Intact.enter {p : Program} (hw : WellFormed p.signals p.states) {m : Machine} (h : Intact p m)
    (q : StateId) : Intact p (m.enter q) := by
  obtain ⟨rfl, hv⟩ := h
  exact ⟨rfl, hv.fire (hw.actions_write q)⟩

theorem Move.intact {p : Program} (hw : WellFormed p.signals p.states) {m m' : Machine} (h : Move m m')
    (hm : Intact p m) : Intact p m' := by
  cases h with
  | write value hs hc =>
    obtain ⟨rfl, hv⟩ := hm
    exact ⟨rfl, hv.write hs hc value⟩
  | start hstarted =>
    have hm' : Intact p { m with started := true } := ⟨hm.program, hm.values⟩
    unfold Machine.start
    rw [if_neg (by simp [hstarted])]
    exact hm'.enter hw m.current
  | @take target =>
    have hm' : Intact p { m with
        current := target
        history := m.history.record ⟨m.current, target, m.steps + 1⟩
        steps := m.steps + 1 } := ⟨hm.program, hm.values⟩
    exact hm'.enter hw target
  | restart => exact ⟨hm.program, hm.values⟩

/-- **Constants are never modified.** Whatever is done to a machine for a program that a design
handed out, calls that fail included, it has one value for each signal of the program, and that
of a constant is its initial one. -/
theorem constants_keep_initial {d : Design} {top : Fragment} {p : Program} (hd : d.Reachable)
    (hp : d.finish top = .ok p) {m : Machine} (hm : Reachable p m) :
    m.values.size = p.signals.size ∧
      ∀ s info, p.signal? s = some info → info.constant = true → m.valuation s = info.initial := by
  have hw : WellFormed p.signals p.states := by
    obtain ⟨rfl, -⟩ := Design.finish_ok hp
    exact hd.wellFormed
  have hintact : Intact p m := hm.invariant (fun _ => ⟨rfl, .initial _⟩) fun _ _ => Move.intact hw
  exact ⟨hintact.values.size, hintact.values.constants⟩

/-- An increment of one bit, which reads the constant one, the signal after it. -/
def incrementCalls : List Design.Call := [.createRegister "a" 1, .increment ⟨"a", [⟨0⟩]⟩]

/-- The constant is still one after runs, a write to it that is refused, and a write to the register. -/
theorem increment_keeps_one :
    ∃ p, (Design.performAll incrementCalls (.new {})).finish ⟨⟨0⟩, ⟨14⟩, []⟩ = .ok p ∧
      ∃ info, p.signal? ⟨1⟩ = some info ∧ info.constant = true ∧ info.initial = true ∧
        ∃ m, performAll [.run, .setSignal ⟨1⟩ false, .setRegister ⟨"ab", [⟨0⟩, ⟨1⟩]⟩ 1, .restart, .run] (.new p) = m ∧
          m.isHalted = true ∧ m.valuation ⟨1⟩ = true :=
  have hp : (Design.performAll incrementCalls (.new {})).finish ⟨⟨0⟩, ⟨14⟩, []⟩ =
      .ok ((Design.performAll incrementCalls (.new {})).program ⟨⟨0⟩, ⟨14⟩, []⟩) := by decide +kernel
  have hs : ((Design.performAll incrementCalls (.new {})).program ⟨⟨0⟩, ⟨14⟩, []⟩).signal? ⟨1⟩ =
      some ⟨"const.0x1.w1[0]", true, true⟩ := by decide +kernel
  ⟨_, hp, _, hs, rfl, rfl, _, rfl, by decide +kernel,
    (constants_keep_initial ⟨{}, incrementCalls, rfl⟩ hp ⟨{}, _, rfl⟩).2 ⟨1⟩ _ hs rfl⟩

end Machine

end SignalGraph
