/-
Clauses under a partial assignment.

A clause keeps its literals in an order of its own, which changes: the
first two, or the only one, are the literals that it watches.
-/
import TemporalNetwork.Literal.Disjunction

namespace TemporalNetwork

/-- What a partial assignment makes of a clause. -/
inductive ClauseStatus where
  /-- Some literal is true. -/
  | satisfied
  /-- The literal has no value, all others are false. -/
  | unit (l : Literal)
  /-- All literals are false. -/
  | violated
  /-- None is true, and more than one has no value. -/
  | undetermined
  deriving DecidableEq

/-- A disjunction whose literals can be reordered. -/
structure Clause where
  literals : List Literal
  /-- The clause was derived during search. -/
  learnt : Bool
  deriving DecidableEq, Inhabited

namespace Clause

def ofDisjunction (d : Disjunction) (learnt : Bool) : Clause := ⟨d.literals, learnt⟩

def isEmpty (c : Clause) : Bool := c.literals.isEmpty

/-- The clause without its order. -/
def disjunction (c : Clause) : Disjunction := .ofList c.literals

/-- The literals that the clause watches. -/
def watched (c : Clause) : List Literal := c.literals.take 2

/-- True literals first, then those without a value, then false ones,
each in the order they had. -/
def sortByValue (c : Clause) (v : Valuation) : Clause :=
  { c with literals :=
      c.literals.filter (v · == some true)
        ++ c.literals.filter (v · == none)
        ++ c.literals.filter (v · == some false) }

/-- What the assignment makes of the clause. -/
def status (c : Clause) (v : Valuation) : ClauseStatus :=
  if c.literals.any (v · == some true) then .satisfied
  else match c.literals.filter (v · == none) with
    | [] => .violated
    | [l] => .unit l
    | _ => .undetermined

/-- Shown as its disjunction between brackets. -/
instance : ToString Clause := ⟨fun c => s!"[{c.disjunction}]"⟩

end Clause

end TemporalNetwork
