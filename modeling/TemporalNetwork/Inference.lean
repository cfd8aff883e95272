/-
What the theory infers, and from what.

An explanation is a set of literals, all true, that together entail
something. Permanent edges hold anyway and contribute nothing, so an
empty explanation means that the inference holds whatever is decided. A
conflict is explained by the guards of a negative cycle, an implication
by the guards of the paths that force the literal. Either reads as a
clause: not all of the explanation can be true, unless the implied
literal is.
-/
import TemporalNetwork.Literal.Disjunction
import TemporalNetwork.Network

namespace TemporalNetwork

/-- A set of literals, all true, that entail something. -/
structure Explanation where
  literals : Literals
  deriving DecidableEq

namespace Explanation

/-- Nothing is needed. -/
def empty : Explanation := ⟨[]⟩

/-- The literals in the order of their first occurrence. -/
def ofList (ls : List Literal) : Explanation := ⟨Literals.addAll [] ls⟩

def contains (x : Explanation) (l : Literal) : Bool := l ∈ x.literals

/-- Adds the guards of the edges. -/
def addGuards (x : Explanation) (net : Network) (es : List EdgeId) : Explanation :=
  ⟨x.literals.addAll (es.filterMap fun e => (net.edge e).guard?)⟩

/-- The same set, by increasing code. -/
def sorted (x : Explanation) : Explanation := ⟨x.literals.canonical⟩

instance : ToString Explanation := ⟨fun x => x.literals.text⟩

end Explanation

-- =============================================================== conflicts

/-- A negative cycle among the edges in force. -/
structure Conflict where
  /-- The edges of the cycle, in order. -/
  cycle : List EdgeId
  /-- The guards of the cycle, which cannot all be true. -/
  explanation : Explanation
  deriving DecidableEq

namespace Conflict

def ofCycle (net : Network) (cycle : List EdgeId) : Conflict :=
  ⟨cycle, (Explanation.empty.addGuards net cycle).sorted⟩

/-- At least one guard of the cycle must be false. -/
def clause (c : Conflict) : Disjunction :=
  .ofList (c.explanation.literals.map Literal.negate)

instance : ToString Conflict :=
  ⟨fun c => Text.record "Conflict"
    [("cycle", Text.list (c.cycle.map toString)), ("explanation", toString c.explanation)]⟩

end Conflict

-- ============================================================ implications

/-- A literal that is true because those of the explanation are. -/
structure Implication where
  literal : Literal
  explanation : Explanation
  deriving DecidableEq

namespace Implication

/-- The literal holds, or some literal of the explanation does not. -/
def clause (i : Implication) : Disjunction :=
  .ofList (i.explanation.literals.map Literal.negate ++ [i.literal])

instance : ToString Implication :=
  ⟨fun i => Text.record "Implication"
    [("literal", toString i.literal), ("explanation", toString i.explanation)]⟩

end Implication

end TemporalNetwork
