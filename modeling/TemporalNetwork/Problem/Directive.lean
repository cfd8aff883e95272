/-
Directives: the lines of a problem text.

A line is read in two steps. Its words first make a statement, by the
first of them and their number. The parts of the statement are then
looked up and read, from left to right as far as they depend on what was
declared before, which gives a directive about timepoints and named
variables. The first part that fails is reported.

| line                | reading                              |
| ------------------- | ------------------------------------ |
| `tp n lb ub`        | `lb ≤ n ≤ ub`                        |
| `edge a b w`        | `b - a ≤ w`                          |
| `cond l a b w`      | if `l` then `b - a ≤ w`              |
| `bound l a op k`    | `l` if and only if `a op k`          |
| `clause l …`        | one of the literals holds            |
-/
import TemporalNetwork.Binding
import TemporalNetwork.Text.Alphanumeric
import TemporalNetwork.Text.Integer

namespace TemporalNetwork

/-- A literal given by the name of its variable. -/
structure NamedLiteral where
  name : String
  positive : Bool
  deriving DecidableEq

namespace NamedLiteral

/-- One leading `!` negates; the rest is the name, whatever it is. -/
def split (s : String) : NamedLiteral :=
  match s.toList with
  | '!' :: rest => ⟨String.ofList rest, false⟩
  | _ => ⟨s, true⟩

/-- Names are not empty, of alphanumeric characters and underscores. -/
def isValid (l : NamedLiteral) : Bool :=
  !l.name.toList.isEmpty && l.name.toList.all fun c => Text.isAlphanumeric c || c == '_'

/-- Reads a literal with a valid name. -/
def read? (s : String) : Option NamedLiteral :=
  if (split s).isValid then some (split s) else none

end NamedLiteral

-- ============================================================== statements

/-- A line cut into its parts. -/
inductive Statement where
  | timepoint (name lower upper : String)
  | edge (source target weight : String)
  | conditional (guard source target weight : String)
  | bound (literal timepoint comparison value : String)
  | clause (literals : List String)
  deriving DecidableEq

/-- The statement of the words of a line. -/
def Statement.ofWords? : List String → Option Statement
  | ["tp", name, lower, upper] => some (.timepoint name lower upper)
  | ["edge", source, target, weight] => some (.edge source target weight)
  | ["cond", guard, source, target, weight] => some (.conditional guard source target weight)
  | ["bound", literal, tp, comparison, value] => some (.bound literal tp comparison value)
  | "clause" :: literals => some (.clause literals)
  | _ => none

-- ================================================================== errors

/-- Why a line was rejected. -/
inductive DirectiveError where
  | malformed (directive : String)
  | duplicateTimepoint (name : String)
  | unknownTimepoint (name : String)
  | invalidInteger (text : String) (cause : Text.IntegerError)
  | invalidLiteral (text : String)
  | unknownComparison (text : String)
  /-- The theory did not accept the directive. -/
  | refused (cause : Refusal)
  deriving DecidableEq

/-- What happened, followed by what it was caused by. -/
def DirectiveError.messages : DirectiveError → List String
  | .malformed directive => ["malformed directive `" ++ directive ++ "`"]
  | .duplicateTimepoint name => ["timepoint `" ++ name ++ "` is already defined"]
  | .unknownTimepoint name => ["unknown timepoint `" ++ name ++ "`"]
  | .invalidInteger text cause => ["invalid integer `" ++ text ++ "`", cause.message]
  | .invalidLiteral text => ["invalid literal `" ++ text ++ "`"]
  | .unknownComparison text =>
    ["unknown comparison `" ++ text ++ "`, expected `<=` or `>=`"]
  | .refused cause => [cause.message]

-- ============================================================== directives

/-- What a line says, with timepoints looked up. -/
inductive Directive where
  | timepoint (name : String) (domain : Domain)
  | edge (source target : Timepoint) (weight : Int)
  | conditional (guard : NamedLiteral) (source target : Timepoint) (weight : Int)
  | bound (literal : NamedLiteral) (fact : BoundFact)
  | clause (literals : List NamedLiteral)
  deriving DecidableEq

namespace Directive

def readInteger (s : String) : Except DirectiveError Int :=
  (Text.IntegerRange.int32.read s.toList).mapError (.invalidInteger s)

def readLiteral (s : String) : Except DirectiveError NamedLiteral :=
  match NamedLiteral.read? s with
  | some l => .ok l
  | none => .error (.invalidLiteral s)

def readLiterals : List String → Except DirectiveError (List NamedLiteral)
  | [] => .ok []
  | s :: rest => do
    let l ← readLiteral s
    let ls ← readLiterals rest
    return l :: ls

/-- The fact that a comparison states. -/
def readFact (tp : Timepoint) (comparison : String) (k : Int) : Except DirectiveError BoundFact :=
  if comparison = "<=" then .ok (.leq tp k)
  else if comparison = ">=" then .ok (.geq tp k)
  else .error (.unknownComparison comparison)

/-- Looks a timepoint up among those declared. -/
def lookUp (declared : String → Option Timepoint) (name : String) :
    Except DirectiveError Timepoint :=
  match declared name with
  | some tp => .ok tp
  | none => .error (.unknownTimepoint name)

/-- What a statement says, given the timepoints that were declared. -/
def ofStatement (declared : String → Option Timepoint) :
    Statement → Except DirectiveError Directive
  | .timepoint name lower upper => do
    if (declared name).isSome then throw (.duplicateTimepoint name)
    let lower ← readInteger lower
    let upper ← readInteger upper
    return .timepoint name ⟨lower, upper⟩
  | .edge source target weight => do
    let source ← lookUp declared source
    let target ← lookUp declared target
    let weight ← readInteger weight
    return .edge source target weight
  | .conditional guard source target weight => do
    let source ← lookUp declared source
    let target ← lookUp declared target
    let guard ← readLiteral guard
    let weight ← readInteger weight
    return .conditional guard source target weight
  | .bound literal tp comparison value => do
    let tp ← lookUp declared tp
    let k ← readInteger value
    let fact ← readFact tp comparison k
    let literal ← readLiteral literal
    return .bound literal fact
  | .clause literals => do
    let literals ← readLiterals literals
    return .clause literals

/-- What the words of a line say. -/
def ofWords (declared : String → Option Timepoint) (words : List String) :
    Except DirectiveError Directive :=
  match Statement.ofWords? words with
  | some statement => ofStatement declared statement
  | none => .error (.malformed (words.headD ""))

end Directive

end TemporalNetwork
