/-
The program itself: arguments, environment, file and clock.
-/
import TemporalNetwork.CommandLine
import TemporalNetwork.Parameter.Kinds

namespace TemporalNetwork

/-- The setting of a parameter. -/
def settingOf {α : Type} (p : Parameter α) : IO Setting := do
  match ← IO.getEnv p.name with
  | some s => return .text s
  | none => return .unset

/-- What is said of a file that cannot be read. -/
def readFailure : IO.Error → String
  | .noFileOrDirectory .. => "No such file or directory (os error 2)"
  | .permissionDenied .. => "Permission denied (os error 13)"
  | .inappropriateType .. => "Is a directory (os error 21)"
  | e => toString e

/-- The contents of a file, or what went wrong. -/
def readProblemFile (file : String) : IO (Except String String) := do
  try
    match String.fromUTF8? (← IO.FS.readBinFile file) with
    | some s => return .ok s
    | none => return .error "stream did not contain valid UTF-8"
  catch e => return .error (readFailure e)

/-- Searches until the clock has reached the deadline. -/
partial def searchUntil (deadline : Option Nat) (s : Solver) :
    IO (Checked (Solver × SearchResult)) := do
  let now ← IO.monoNanosNow
  if deadline.any (· ≤ now) then return .ok (s, .timeout)
  match s.step with
  | .error fault => return .error fault
  | .ok (s, some result) => return .ok (s, result)
  | .ok (s, none) => searchUntil deadline s

/-- Runs the program. -/
def runProgram (arguments : List String) : IO (Checked CommandLine.Outcome) := do
  let some o := CommandLine.Options.ofArguments? arguments
    | return .ok ⟨2, "", CommandLine.usage⟩
  let propagation := Parameter.propagation.evaluate (← settingOf .propagation)
  let selfCheck := Parameter.selfCheck.evaluate (← settingOf .selfCheck)
  let polarity := Parameter.polarity.evaluate (← settingOf .polarity)
  let contents ← readProblemFile o.file
  let prepared : Checked (Except CommandLine.Outcome (Problem × Option Nat)) := do
    CommandLine.prepare o ⟨← propagation, ← selfCheck⟩ (← polarity) contents
  match prepared with
  | .error fault => return .error fault
  | .ok (.error outcome) => return .ok outcome
  | .ok (.ok (p, limit)) =>
    let now ← IO.monoNanosNow
    match p.solver.start with
    | .error fault => return .error fault
    | .ok s =>
      match ← searchUntil (limit.map (now + ·)) s with
      | .error fault => return .error fault
      | .ok (solver, result) => return CommandLine.conclude o { p with solver } result

end TemporalNetwork

def main (arguments : List String) : IO UInt32 := do
  match ← TemporalNetwork.runProgram arguments with
  | .ok outcome =>
    (← IO.getStdout).putStr outcome.stdout
    (← IO.getStderr).putStr outcome.stderr
    return outcome.code.toUInt32
  | .error _ =>
    (← IO.getStderr).putStrLn "Error: internal fault"
    return 1
