/-
Disjunctions: sets of literals, one of which must hold.

A disjunction is built from any list of literals and holds them in
canonical form, increasing and without repetitions. Membership and
tautology lean on that form: a search stops at the first greater
literal, and the two literals of a variable can only be neighbours.
-/
import TemporalNetwork.Literal.Sequence

namespace TemporalNetwork

/-- A set of literals, at least one of which must hold. The empty
disjunction cannot be satisfied. -/
structure Disjunction where
  literals : Literals
  increasing : literals.Increasing
  deriving DecidableEq

namespace Disjunction

def ofList (ls : List Literal) : Disjunction :=
  ⟨Literals.canonical ls, Literals.increasing_canonical ls⟩

def isEmpty (d : Disjunction) : Bool := d.literals.isEmpty

def size (d : Disjunction) : Nat := d.literals.length

/-- Some literal is followed by its negation. -/
def hasOppositeNeighbours : List Literal → Bool
  | l :: m :: rest => l == m.negate || hasOppositeNeighbours (m :: rest)
  | _ => false

/-- The disjunction holds whatever the variables are. -/
def isTautology (d : Disjunction) : Bool := hasOppositeNeighbours d.literals

/-- Looks for a literal in an increasing list. -/
def search (l : Literal) : List Literal → Bool
  | [] => false
  | m :: rest => if m.code < l.code then search l rest else m == l

def contains (d : Disjunction) (l : Literal) : Bool := search l d.literals

@[simp] theorem mem_ofList {l : Literal} {ls : List Literal} :
    l ∈ (ofList ls).literals ↔ l ∈ ls := Literals.mem_canonical

theorem isEmpty_iff {d : Disjunction} : d.isEmpty = true ↔ d.literals = [] := by
  simp [isEmpty]

/-- Shown as `b0 | !b1`, and as `false` if there is nothing to satisfy. -/
instance : ToString Disjunction :=
  ⟨fun d => if d.isEmpty then "false" else d.literals.joined " | "⟩

end Disjunction

end TemporalNetwork
