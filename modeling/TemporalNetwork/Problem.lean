/-
Problems given as text.

A text has one directive on a line; `#` starts a comment. Timepoints are
declared before they are used, `origin` being there from the start.
Variables are named where they are used first. Each directive is carried
out on a solver before the next line is read, so that a line is rejected
exactly if it has no reading or the theory refuses what it says. Whether
the problem can be satisfied plays no role in that.
-/
import TemporalNetwork.Problem.Directive
import TemporalNetwork.Solver.Search
import TemporalNetwork.Text.Blank

namespace TemporalNetwork

/-- A solver, with names for its timepoints and variables. -/
structure Problem where
  solver : Solver
  /-- The timepoints that were declared, in order. -/
  timepoints : List (String × Timepoint)
  /-- The variables that were named, in order, by their positive
  literals. -/
  boolVars : List (String × Literal)

/-- The line that was rejected, and why. -/
structure ParseError where
  line : Nat
  content : String
  cause : DirectiveError
  deriving DecidableEq

/-- Where it happened, what happened, and what it was caused by. -/
def ParseError.messages (e : ParseError) : List String :=
  ("line " ++ toString e.line ++ ": `" ++ e.content ++ "`") :: e.cause.messages

/-- All of it on one line. -/
def ParseError.message (e : ParseError) : String := ": ".intercalate e.messages

namespace Problem

/-- The name of the timepoint that is always there. -/
def originName : String := "origin"

def ofSolver (s : Solver) : Problem := ⟨s, [], []⟩

-- =================================================================== names

/-- The timepoint of a name. -/
def timepoint? (p : Problem) (name : String) : Option Timepoint :=
  if name = originName then some .origin else p.timepoints.lookup name

/-- The literal of a name, which may be negated, if its variable was
named before. -/
def literal? (p : Problem) (text : String) : Option Literal :=
  let l := NamedLiteral.split text
  (p.boolVars.lookup l.name).map fun m => if l.positive then m else m.negate

/-- The literal of a name; its variable is added if it is new. -/
def literal (p : Problem) (l : NamedLiteral) : Problem × Literal :=
  let (p, m) := match p.boolVars.lookup l.name with
    | some m => (p, m)
    | none =>
      let (theory, m) := p.solver.theory.newLiteral
      ({ p with
        solver := { p.solver with theory }
        boolVars := p.boolVars ++ [(l.name, m)] }, m)
  (p, if l.positive then m else m.negate)

/-- The literals of names, in turn. -/
def literals (p : Problem) : List NamedLiteral → Problem × List Literal
  | [] => (p, [])
  | l :: ls =>
    let (p, m) := p.literal l
    let (p, ms) := p.literals ls
    (p, m :: ms)

-- ============================================================== directives

/-- Goes on from a step of the theory. -/
def onTheory {α : Type} (p : Problem) (step : Checked (Theory × Except Refusal α))
    (next : Problem → α → Problem) : Checked (Except DirectiveError Problem) := do
  match ← step with
  | (theory, .ok a) => return .ok (next { p with solver := { p.solver with theory } } a)
  | (_, .error refusal) => return .error (.refused refusal)

/-- Carries out a directive. -/
def add (p : Problem) : Directive → Checked (Except DirectiveError Problem)
  | .timepoint name domain =>
    p.onTheory (p.solver.theory.newTimepoint domain) fun p tp =>
      { p with timepoints := p.timepoints ++ [(name, tp)] }
  | .edge source target weight =>
    p.onTheory (p.solver.theory.addPermanentEdge source target weight) fun p _ => p
  | .conditional guard source target weight =>
    let (p, l) := p.literal guard
    p.onTheory (p.solver.theory.addConditionalEdge source target weight l) fun p _ => p
  | .bound literal fact =>
    let (p, l) := p.literal literal
    p.onTheory (p.solver.theory.bindBound l fact) fun p _ => p
  | .clause literals =>
    let (p, ls) := p.literals literals
    match p.solver.addClause (.ofList ls) with
    | (solver, .ok ()) => .ok (.ok { p with solver })
    | (_, .error refusal) => .ok (.error (.refused refusal))

/-- Reads a line and carries it out. -/
def addWords (p : Problem) (words : List String) : Checked (Except DirectiveError Problem) :=
  match Directive.ofWords p.timepoint? words with
  | .ok directive => p.add directive
  | .error e => .ok (.error e)

-- =================================================================== texts

/-- What stands on a line before a comment. -/
def content (line : List Char) : List Char := Text.trim (line.takeWhile (· ≠ '#'))

/-- Carries out lines in turn, numbered from `n`. -/
def addLines (n : Nat) : List (List Char) → Problem → Checked (Except ParseError Problem)
  | [], p => .ok (.ok p)
  | line :: rest, p =>
    let cs := content line
    if cs.isEmpty then addLines (n + 1) rest p
    else do
      match ← p.addWords ((Text.words cs).map String.ofList) with
      | .ok p => addLines (n + 1) rest p
      | .error e => return .error ⟨n, String.ofList cs, e⟩

/-- Builds the problem that a text describes on a solver. -/
def parse (text : String) (s : Solver) : Checked (Except ParseError Problem) :=
  addLines 1 (Text.lines text.toList) (ofSolver s)

/-- The times of the declared timepoints, one on a line. -/
def formatSolution (p : Problem) (x : Solution) : Checked String :=
  go p.timepoints
where
  go : List (String × Timepoint) → Checked String
    | [] => .ok ""
    | (name, tp) :: rest => do
      let time ← x.time tp
      let others ← go rest
      return name ++ " " ++ toString time ++ "\n" ++ others

end Problem

end TemporalNetwork
