/-
The command line: options in, exit code and output out.

The program reads a problem file, searches for a schedule, and prints
what it found. It ends with code 2 if its arguments make no sense, with
code 1 if something went wrong or the outcome is not the expected one,
and with code 0 otherwise.

Everything but reading the file and watching the clock is a function
here: `prepare` goes as far as the problem that is to be solved, and
`conclude` from the result of the search to the output.
-/
import TemporalNetwork.Problem
import TemporalNetwork.Text.Seconds

namespace TemporalNetwork.CommandLine

/-- The outcome that the user counts on. -/
inductive Expected where
  | sat
  | unsat
  deriving DecidableEq

/-- What the user asked for. -/
structure Options where
  file : String
  propagation : Option PropagationLevel
  timeout : Option Text.Seconds
  expected : Option Expected
  /-- Print counts at the end. -/
  stats : Bool

/-- What the program leaves behind. -/
structure Outcome where
  code : Nat
  stdout : String
  stderr : String

-- =============================================================== arguments

/-- Options as far as they were read. -/
structure Draft where
  file : Option String
  propagation : Option PropagationLevel
  timeout : Option Text.Seconds
  expected : Option Expected
  stats : Option Unit
  logLevel : Option Unit

/-- Sets an option that was not set before. -/
def once {α : Type} (old : Option α) (new : Option α) : Option (Option α) :=
  match old, new with
  | none, some a => some (some a)
  | _, _ => none

def readExpected : String → Option Expected
  | "sat" => some .sat
  | "unsat" => some .unsat
  | _ => none

/-- Log levels are accepted by name, in any case, or by number. There is
no log. -/
def readLogLevel (s : String) : Option Unit :=
  if s.toLower ∈ ["error", "warn", "info", "debug", "trace", "1", "2", "3", "4", "5"] then
    some ()
  else none

/-- Takes in an option that has a value. -/
def Draft.setValue (o : Draft) (name value : String) : Option Draft :=
  match name with
  | "--theory-propagation" => do
    let propagation ← once o.propagation (PropagationLevel.ofText? value)
    return { o with propagation }
  | "--timeout" => do
    let timeout ← once o.timeout (Text.Seconds.read? value)
    return { o with timeout }
  | "--expect" => do
    let expected ← once o.expected (readExpected value)
    return { o with expected }
  | "--log-level" | "-l" => do
    let logLevel ← once o.logLevel (readLogLevel value)
    return { o with logLevel }
  | _ => none

/-- The text before the first `=`, and the text after it. -/
def splitAtEquals (s : String) : Option (String × String) :=
  let cs := s.toList
  match cs.dropWhile (· ≠ '=') with
  | _ :: value => some (String.ofList (cs.takeWhile (· ≠ '=')), String.ofList value)
  | [] => none

def isOption (s : String) : Bool := s.startsWith "-" && s != "-"

/-- Takes in an argument that needs no other: the file, the flag, or an
option that carries its value. -/
def Draft.setOne (o : Draft) (s : String) : Option Draft :=
  if s = "--stats" then do
    let stats ← once o.stats (some ())
    return { o with stats }
  else if isOption s then do
    let (name, value) ← splitAtEquals s
    o.setValue name value
  else do
    let file ← once o.file (some s)
    return { o with file }

/-- The option takes the next argument for its value. -/
def wantsNext (s : String) : Bool :=
  isOption s && s != "--stats" && (splitAtEquals s).isNone

/-- Takes in arguments in turn. -/
def readArguments : List String → Draft → Option Draft
  | [], o => some o
  | [s], o => o.setOne s
  | s :: next :: rest, o =>
    if wantsNext s then
      if isOption next then none
      else (o.setValue s next).bind (readArguments rest)
    else (o.setOne s).bind (readArguments (next :: rest))

/-- The options of the arguments, none if they make no sense. -/
def Options.ofArguments? (arguments : List String) : Option Options := do
  let o ← readArguments arguments ⟨none, none, none, none, none, none⟩
  let file ← o.file
  return ⟨file, o.propagation, o.timeout, o.expected, o.stats.isSome⟩

-- ================================================================== errors

/-- A message, what it was caused by, and so on. Several causes are
numbered. -/
def errorReport (message : String) (causes : List String) : String :=
  "Error: " ++ message ++ "\n" ++
    match causes with
    | [] => ""
    | [cause] => "\nCaused by:\n    " ++ cause ++ "\n"
    | _ => "\nCaused by:\n" ++ String.join (causes.zipIdx.map fun (cause, i) =>
        String.ofList (List.replicate (5 - (toString i).length) ' ')
          ++ toString i ++ ": " ++ cause ++ "\n")

def failure (message : String) (causes : List String) : Outcome :=
  ⟨1, "", errorReport message causes⟩

-- ============================================================== the program

/-- Builds the problem of the file and reads the time limit, in
nanoseconds. -/
def prepare (o : Options) (config : Config) (polarity : Bool)
    (contents : Except String String) :
    Checked (Except Outcome (Problem × Option Nat)) := do
  match contents with
  | .error cause => return .error (failure ("Could not read problem file " ++ o.file) [cause])
  | .ok text =>
    let config := { config with propagation := o.propagation.getD config.propagation }
    match ← Problem.parse text (.ofTheory (.initial config) polarity) with
    | .error e => return .error (failure ("Invalid problem file " ++ o.file) e.messages)
    | .ok p =>
      match o.timeout with
      | none => return .ok (p, none)
      | some seconds =>
        match seconds.nanoseconds with
        | .ok limit => return .ok (p, some limit)
        | .error e => return .error (failure "Invalid timeout" [e.message])

/-- Prints the result of the search. -/
def conclude (o : Options) (p : Problem) (result : SearchResult) : Checked Outcome := do
  let counts := if o.stats then p.solver.report ++ "\n" else ""
  match result with
  | .sat x =>
    let times ← p.formatSolution x
    let stdout := counts ++ "SAT\n" ++ times
    return if o.expected = some .unsat then
      ⟨1, stdout, errorReport "Solution found to an unsat problem." []⟩
    else ⟨0, stdout, ""⟩
  | .unsat =>
    let stdout := counts ++ "UNSAT\n"
    return if o.expected = some .sat then
      ⟨1, stdout, errorReport "No solution found to a solvable problem." []⟩
    else ⟨0, stdout, ""⟩
  | .timeout => return ⟨0, counts ++ "TIMEOUT\n", ""⟩

/-- What is printed for arguments that make no sense. -/
def usage : String :=
  String.join
    ["Usage: stn-solve [OPTIONS] <FILE>\n\nOptions:\n",
      "  --theory-propagation <LEVEL>  none, bounds, edges or full\n",
      "  --timeout <SECONDS>           time limit for the search\n",
      "  --expect <OUTCOME>            sat or unsat\n",
      "  --stats                       print the statistics of the solver\n"]

/-- The whole program, with a clock that stands still: a time limit is
reached at the outset or never. -/
def run (arguments : List String) (config : Config) (polarity : Bool)
    (read : String → Except String String) : Checked Outcome := do
  match Options.ofArguments? arguments with
  | none => return ⟨2, "", usage⟩
  | some o =>
    match ← prepare o config polarity (read o.file) with
    | .error outcome => return outcome
    | .ok (p, limit) =>
      let (solver, result) ← p.solver.solve (limit == some 0)
      conclude o { p with solver } result

end TemporalNetwork.CommandLine
