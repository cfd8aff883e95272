/-
Tuning parameters.

A parameter has a name, under which a setting may be found in the
environment, and a default. It is read when it is first asked for and
keeps its value from then on; later settings have no effect. It can also
be forced, but only before it was read.

A setting that is not valid text, or that has no value, counts as none.
-/
import TemporalNetwork.Fault

namespace TemporalNetwork

/-- What the environment holds under a name. -/
inductive Setting where
  | unset
  | text (s : String)
  /-- Bytes that are not text. -/
  | garbled
  deriving DecidableEq

/-- A value that can be set from outside. -/
structure Parameter (α : Type) where
  name : String
  /-- The default, as text. -/
  default : String
  /-- The value of a text. -/
  parse : String → Option α
  /-- The value, once it was read or forced. -/
  value : Option α

namespace Parameter

variable {α : Type}

/-- A parameter that was not read. -/
def declare (name default : String) (parse : String → Option α) : Parameter α :=
  ⟨name, default, parse, none⟩

def isInitialized (p : Parameter α) : Bool := p.value.isSome

/-- The value under a setting. -/
def evaluate (p : Parameter α) (setting : Setting) : Checked α :=
  let set := match setting with
    | .text s => p.parse s
    | .unset | .garbled => none
  match set <|> p.parse p.default with
  | some a => .ok a
  | none => .error .badDefault

/-- The value, which is read under the setting if it was not before. -/
def get (p : Parameter α) (setting : Setting) : Checked (Parameter α × α) :=
  match p.value with
  | some a => .ok (p, a)
  | none => (p.evaluate setting).map fun a => ({ p with value := some a }, a)

/-- Fixes the value of a parameter that was not read. -/
def force (p : Parameter α) (a : α) : Checked (Parameter α) :=
  match p.value with
  | some _ => .error .alreadyInitialized
  | none => .ok { p with value := some a }

/-- Shown with its value, or with its default if it was not read. -/
def text (p : Parameter α) (shown : α → String) : String :=
  match p.value with
  | some a => p.name ++ "=" ++ shown a
  | none => p.name ++ "=<unread, default \"" ++ p.default ++ "\">"

end Parameter

end TemporalNetwork
