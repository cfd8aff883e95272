/-
Refusals: answers to requests that cannot be met.

A `Refusal` rejects a change to the problem, a `Misuse` a request made
while searching. Either leaves everything as it was. Each is a cause
with its data, and is worded in one place.
-/
import TemporalNetwork.Handle
import TemporalNetwork.History.DecisionLevel

namespace TemporalNetwork

/-- Largest magnitude of a weight or a bound. Potentials stay within it,
so that the sum of any four terms that are ever added fits in 32 bits. -/
def maxMagnitude : Int := 268435455

/-- Why a change to the problem was rejected. -/
inductive Refusal where
  | unknownTimepoint (tp : Timepoint)
  | unknownEdge (e : EdgeId)
  | unknownVariable (v : BoolVar)
  | outOfRange (value : Int)
  | emptyDomain (lower upper : Int)
  | notAtRoot (current : DecisionLevel)
  deriving DecidableEq

def Refusal.message : Refusal → String
  | .unknownTimepoint tp => s!"unknown timepoint {tp}"
  | .unknownEdge e => s!"unknown edge {e}"
  | .unknownVariable v => s!"unknown boolean variable {v}"
  | .outOfRange value =>
    s!"value {value} exceeds the supported magnitude ({maxMagnitude})"
  | .emptyDomain lower upper => s!"empty domain [{lower}, {upper}]"
  | .notAtRoot current =>
    s!"the problem can only be modified at the root level (current: {current})"

/-- Why a request made while searching was rejected. -/
inductive Misuse where
  | unknownLevel (requested current : DecisionLevel)
  | unknownVariable (v : BoolVar)
  deriving DecidableEq

def Misuse.message : Misuse → String
  | .unknownLevel requested current =>
    s!"no checkpoint for {requested} (current level: {current})"
  | .unknownVariable v => s!"literal of an unknown boolean variable {v}"

end TemporalNetwork
