/-
Decision levels.

The root is the level at which nothing was decided; every saved state
opens the next one. Levels are numbered with 32 bits, of which the last
number is not used.
-/
import TemporalNetwork.Fault

namespace TemporalNetwork

/-- The number of saved states that are open. -/
structure DecisionLevel where
  depth : Nat
  deriving DecidableEq, Inhabited

namespace DecisionLevel

/-- The level at which nothing was decided. -/
def root : DecisionLevel := ⟨0⟩

def isRoot (l : DecisionLevel) : Bool := l.depth == 0

/-- The level right below, none for the root. -/
def parent? (l : DecisionLevel) : Option DecisionLevel :=
  match l.depth with
  | 0 => none
  | n + 1 => some ⟨n⟩

/-- A level given from outside. -/
def ofNumber (n : Nat) : Checked DecisionLevel :=
  if n < 4294967295 then .ok ⟨n⟩ else .error .numberTooLarge

/-- The level `n` steps further up. -/
def above (l : DecisionLevel) (n : Nat) : Checked DecisionLevel := ofNumber (l.depth + n)

instance : ToString DecisionLevel := ⟨fun l => s!"dl({l.depth})"⟩

end DecisionLevel

end TemporalNetwork
