/-
Fragments put one after the other, and designs finished into programs.
-/
import SignalGraph.Check
import SignalGraph.Design.Wiring

namespace SignalGraph.Design

/-- Leads from where the first fragment is left to where the second is entered. -/
def chain (first second : Fragment) : BuildM Fragment := do
  connect first.exit second.entry
  return first.join second

/-- Chains fragments from the left. -/
def sequence : List Fragment → BuildM Fragment
  | [] => throw .emptySequence
  | first :: rest => rest.foldlM chain first

/-- The program of a design that runs through a fragment. -/
def program (d : Design) (top : Fragment) : Program := ⟨d.signals, d.states, top.entry, top.exit⟩

/-- The program of a design that runs through a fragment, if its ends exist and, where the
settings ask for it, its graph has no defect. -/
def finish (d : Design) (top : Fragment) : Except BuildError Program :=
  if (d.state? top.entry).isNone then .error (.unknownState top.entry)
  else if (d.state? top.exit).isNone then .error (.unknownState top.exit)
  else
    let p := d.program top
    if d.settings.validateOnFinish then
      match p.violations with
      | [] => .ok p
      | violations => .error (.invalid violations)
    else .ok p

end SignalGraph.Design
