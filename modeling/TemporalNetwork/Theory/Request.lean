/-
Requests to a theory, as data.

Whatever changes a theory is one of these requests, so that a history is
a list of them and a state that can arise is one that `perform` leads to
from the start. A request is answered by a reply; refusals, misuses and
conflicts are replies like any other.
-/
import TemporalNetwork.Theory.Checkpoint

namespace TemporalNetwork.Theory

/-- Something asked of a theory. -/
inductive Request where
  | newVariable
  | newLiteral
  | newTimepoint (domain : Domain)
  | addPermanentEdge (source target : Timepoint) (weight : Int)
  | addConditionalEdge (source target : Timepoint) (weight : Int) (guard : Literal)
  | addConstraint (source target : Timepoint) (weight : Int) (guard : Option Literal)
  | addDirectedEdge (source target : Timepoint) (weight : Int) (guard : Literal)
      (view : Direction)
  | addOptionalEdge (source target : Timepoint) (weight : Int)
      (forwardGuard backwardGuard : Literal)
  | addReifiedEdge (l : Literal) (source target : Timepoint) (weight : Int)
  | addMaxDelay (earlier later : Timepoint) (delay : Int)
  | addMinDelay (earlier later : Timepoint) (delay : Int)
  | addBeforeEq (a b : Timepoint)
  | addStrictlyBefore (a b : Timepoint)
  | bindBound (l : Literal) (f : BoundFact)
  | newBoundLiteral (f : BoundFact)
  | configure (c : Config)
  | assign (l : Literal)
  | propagate
  | pushCheckpoint
  | backtrack (l : DecisionLevel)
  | popTo (l : DecisionLevel)
  | restoreLast
  | reset
  deriving DecidableEq

/-- What a theory answers. -/
inductive Reply where
  | done
  | variable (v : BoolVar)
  | literal (l : Literal)
  | timepoint (tp : Timepoint)
  | edge (id : EdgeId)
  | edges (forward backward : EdgeId)
  | level (l : DecisionLevel)
  | refused (r : Refusal)
  | misused (m : Misuse)
  | conflict (c : Conflict)
  deriving DecidableEq

namespace Reply

def ofRefusable {α : Type} (accepted : α → Reply) : Except Refusal α → Reply
  | .ok a => accepted a
  | .error r => .refused r

def ofMisusable : Except Misuse Unit → Reply
  | .ok () => .done
  | .error m => .misused m

def ofVerdict : Except Conflict Unit → Reply
  | .ok () => .done
  | .error c => .conflict c

def ofAssigned : Except AssignError Unit → Reply
  | .ok () => .done
  | .error (.conflict c) => .conflict c
  | .error (.invalid m) => .misused m

end Reply

/-- Puts the result of an operation into the words of a reply. -/
def replying {α : Type} (step : Checked (Theory × α)) (reply : α → Reply) :
    Checked (Theory × Reply) :=
  step.map fun (t, a) => (t, reply a)

/-- Carries out a request. -/
def perform (t : Theory) : Request → Checked (Theory × Reply)
  | .newVariable => .ok (t.newVariable.1, .variable t.newVariable.2)
  | .newLiteral => .ok (t.newLiteral.1, .literal t.newLiteral.2)
  | .newTimepoint domain => replying (t.newTimepoint domain) (.ofRefusable .timepoint)
  | .addPermanentEdge s e w => replying (t.addPermanentEdge s e w) (.ofRefusable .edge)
  | .addConditionalEdge s e w g =>
    replying (t.addConditionalEdge s e w g) (.ofRefusable .edge)
  | .addConstraint s e w g => replying (t.addConstraint s e w g) (.ofRefusable .edge)
  | .addDirectedEdge s e w g d =>
    replying (t.addDirectedEdge s e w g d) (.ofRefusable .edge)
  | .addOptionalEdge s e w f b =>
    replying (t.addOptionalEdge s e w f b) (.ofRefusable fun ids => .edges ids.1 ids.2)
  | .addReifiedEdge l s e w => replying (t.addReifiedEdge l s e w) (.ofRefusable .edge)
  | .addMaxDelay a b d => replying (t.addMaxDelay a b d) (.ofRefusable .edge)
  | .addMinDelay a b d => replying (t.addMinDelay a b d) (.ofRefusable .edge)
  | .addBeforeEq a b => replying (t.addBeforeEq a b) (.ofRefusable .edge)
  | .addStrictlyBefore a b => replying (t.addStrictlyBefore a b) (.ofRefusable .edge)
  | .bindBound l f => replying (t.bindBound l f) (.ofRefusable fun _ => .done)
  | .newBoundLiteral f => replying (t.newBoundLiteral f) (.ofRefusable .literal)
  | .configure c => .ok ({ t with config := c }, .done)
  | .assign l => replying (t.assign l) .ofAssigned
  | .propagate => t.propagate.map fun t => (t, .ofVerdict t.verdict)
  | .pushCheckpoint => t.pushCheckpoint.map fun t => (t, .level t.level)
  | .backtrack l => replying (t.backtrack l) .ofMisusable
  | .popTo l => replying (t.popTo l) .ofMisusable
  | .restoreLast => t.restoreLast.map fun t => (t, .done)
  | .reset => t.reset.map fun t => (t, .done)

/-- Carries out requests in turn, whatever is answered. -/
def performAll (t : Theory) : List Request → Checked Theory
  | [] => .ok t
  | r :: rs => t.perform r >>= fun (t, _) => t.performAll rs

end TemporalNetwork.Theory
