/-
Signals by name.

The signals of a design are kept twice: the table lists them, and `names` finds them by name.
A signal enters both at once and only under a name that leads nowhere yet, so the two say
the same in every design that can be reached. A program has the table alone, and finds by
looking through it what the design had found.
-/
import SignalGraph.Proofs.Edits

namespace SignalGraph

namespace Design

/-- A name leads to a signal if and only if the signal has it. -/
def Indexed (d : Design) : Prop :=
  ∀ name s, d.signalNamed? name = some s ↔ (d.signal? s).map SignalInfo.name = some name

theorem Indexed.new (settings : DesignSettings) : (Design.new settings).Indexed := by
  intro name s
  simp [Design.new, signalNamed?, signal?]

/-- Two signals of one name are the same. -/
theorem Indexed.eq_of_name {d : Design} (h : d.Indexed) {s t : SignalId} {info info' : SignalInfo}
    (hs : d.signal? s = some info) (ht : d.signal? t = some info') (hname : info.name = info'.name) :
    s = t := by
  have hs' := (h info.name s).mpr (by rw [hs, Option.map_some])
  have ht' := (h info.name t).mpr (by rw [ht, Option.map_some, hname])
  exact Option.some.inj (hs'.symm.trans ht')

theorem Indexed.pushSignal {d : Design} (h : d.Indexed) {info : SignalInfo} (hinfo : info.name ∉ d.names) :
    (d.pushSignal info).Indexed := by
  intro name s
  have hold : (d.pushSignal info).signal? s =
      if s.index = d.signals.size then some info else d.signal? s := Array.getElem?_push
  have hfind : (d.pushSignal info).signalNamed? name =
      if info.name = name then some ⟨d.signals.size⟩ else d.signalNamed? name := by
    simp only [signalNamed?, Design.pushSignal, Std.TreeMap.getElem?_insert,
      Std.LawfulEqCmp.compare_eq_iff_eq]
  rw [hold, hfind]
  by_cases hs : s.index = d.signals.size
  · -- The new signal: its name led nowhere, so an old name cannot lead to it.
    have hpast : d.signal? s = none := by
      simp [signal?, hs]
    have hnot : d.signalNamed? name ≠ some s := fun hn => by
      simpa [hpast] using (h name s).mp hn
    have hs' : (⟨d.signals.size⟩ : SignalId) = s := by rw [← hs]
    simp [hs, hs', hnot]
  · have hs' : (⟨d.signals.size⟩ : SignalId) ≠ s := fun he => hs (by rw [← he])
    by_cases hname : info.name = name
    · have hnone : d.signalNamed? name = none := by
        rw [← hname]
        exact Std.TreeMap.getElem?_eq_none hinfo
      have hother := h name s
      rw [hnone] at hother
      simpa [hs, hs', hname] using hother
    · simpa [hs, hname] using h name s

theorem Edit.indexed {d d' : Design} (he : Edit d d') (h : d.Indexed) : d'.Indexed := by
  cases he with
  | signal info hinfo => exact h.pushSignal hinfo
  | scope | zero | constant | state | action | transition | default => exact h

theorem Reachable.indexed {d : Design} (h : Reachable d) : d.Indexed :=
  h.invariant Indexed.new fun _ _ => Edit.indexed

/-- Looking through the table finds what the names lead to. -/
theorem Indexed.program {d : Design} (h : d.Indexed) (top : Fragment) (name : String) :
    (d.program top).signalNamed? name = d.signalNamed? name := by
  cases hfind : d.signals.findIdx? (·.name == name) with
  | none =>
    have hnone : d.signalNamed? name = none := by
      refine Option.eq_none_iff_forall_ne_some.mpr fun s hs => ?_
      obtain ⟨info, hinfo, hname⟩ := Option.map_eq_some_iff.mp ((h name s).mp hs)
      have := Array.findIdx?_eq_none_iff.mp hfind info (Array.mem_of_getElem? hinfo)
      simp [hname] at this
    simp [Program.signalNamed?, Design.program, hfind, hnone]
  | some i =>
    obtain ⟨hi, hname, -⟩ := Array.findIdx?_eq_some_iff_getElem.mp hfind
    have hentry : d.signal? ⟨i⟩ = some d.signals[i] := Array.getElem?_eq_getElem hi
    have hsome : d.signalNamed? name = some ⟨i⟩ := by
      rw [h name ⟨i⟩, hentry, Option.map_some, beq_iff_eq.mp hname]
    simp [Program.signalNamed?, Design.program, hfind, hsome]

/-- **Names are unique.** In every design that can be reached a name leads to a signal if and only if
the table has the signal under that name, so no two signals share one; and a program that is
made from the design finds under every name what the design found. -/
theorem names_agree {d : Design} (h : Reachable d) :
    (∀ name s, d.signalNamed? name = some s ↔ (d.signal? s).map SignalInfo.name = some name) ∧
      (∀ s t info info', d.signal? s = some info → d.signal? t = some info' →
        info.name = info'.name → s = t) ∧
      ∀ top p, d.finish top = .ok p → ∀ name, p.signalNamed? name = d.signalNamed? name := by
  refine ⟨h.indexed, fun _ _ _ _ => h.indexed.eq_of_name, fun top p hp name => ?_⟩
  rw [(finish_ok hp).1]
  exact h.indexed.program top name

/-- A register of which the second bit cannot be made, and a half adder. -/
def interruptedCalls : List Call :=
  [.createSignal "a[1]", .createRegister "a" 2, .halfAdder ⟨0⟩ ⟨1⟩]

theorem interrupted_names_agree :
    ∃ p, (performAll interruptedCalls (.new {})).finish ⟨⟨0⟩, ⟨3⟩, []⟩ = .ok p ∧ p.signals.size = 4 ∧
      ∀ name, p.signalNamed? name = (performAll interruptedCalls (.new {})).signalNamed? name :=
  have hp : (performAll interruptedCalls (.new {})).finish ⟨⟨0⟩, ⟨3⟩, []⟩ =
      .ok ((performAll interruptedCalls (.new {})).program ⟨⟨0⟩, ⟨3⟩, []⟩) :=
    finish_eq_ok.mpr ⟨rfl, by decide +kernel, by decide +kernel, fun _ => by decide +kernel⟩
  ⟨_, hp, by decide +kernel, (names_agree ⟨{}, interruptedCalls, rfl⟩).2.2 _ _ hp⟩

end Design

end SignalGraph
