/-
Guards: conditions on signals, in disjunctive form.

A test asks one signal for one value, a clause asks for all of its tests, and a guard
for one of its clauses. The guard without clauses is the condition that always holds;
so joining it to another guard with `or` adds no clause, and leaves the other guard.
-/
import SignalGraph.Signal

namespace SignalGraph

/-- Asks a signal for a value. -/
structure Test where
  signal : SignalId
  value : Bool
deriving DecidableEq, Repr

def Test.holds (t : Test) (v : Valuation) : Bool := v t.signal == t.value

/-- Asks for all of its tests. -/
structure Clause where
  tests : List Test
deriving DecidableEq, Repr

def Clause.holds (c : Clause) (v : Valuation) : Bool := c.tests.all (·.holds v)

/-- Asks for one of its clauses, or for nothing if it has none. -/
structure Guard where
  clauses : List Clause
deriving DecidableEq, Repr

namespace Guard

/-- The guard that always holds. -/
def always : Guard := ⟨[]⟩

/-- The guard that is one clause. -/
def all (tests : List Test) : Guard := ⟨[⟨tests⟩]⟩

/-- The guard that is one test. -/
def when (signal : SignalId) (value : Bool) : Guard := all [⟨signal, value⟩]

/-- The guard with a clause for each list of tests. -/
def any (clauses : List (List Test)) : Guard := ⟨clauses.map Clause.mk⟩

/-- The guard with the clauses of both. -/
def or (g h : Guard) : Guard := ⟨g.clauses ++ h.clauses⟩

def isAlways (g : Guard) : Bool := g.clauses.isEmpty

def holds (g : Guard) (v : Valuation) : Bool := g.isAlways || g.clauses.any (·.holds v)

/-- The signals that the guard reads, in increasing order. -/
def signals (g : Guard) : List SignalId :=
  SignalId.sort (g.clauses.flatMap fun c => c.tests.map Test.signal)

end Guard

end SignalGraph
