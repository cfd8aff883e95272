/-
How structured values are shown.

A record is its name and its fields between braces, a constructor with
arguments its name and the arguments between parentheses, a list its
elements between brackets.
-/
namespace TemporalNetwork.Text

/-- Shown as `Name { field: value, … }`. -/
def record (name : String) (fields : List (String × String)) : String :=
  name ++ " \x7b " ++ ", ".intercalate (fields.map fun f => f.1 ++ ": " ++ f.2) ++ " \x7d"

/-- Shown as `Name(argument, …)`. -/
def applied (name : String) (arguments : List String) : String :=
  name ++ "(" ++ ", ".intercalate arguments ++ ")"

/-- Shown as `[element, …]`. -/
def list (elements : List String) : String :=
  "[" ++ ", ".intercalate elements ++ "]"

/-- Shown as `Some(value)` or `None`. -/
def optional : Option String → String
  | some value => applied "Some" [value]
  | none => "None"

end TemporalNetwork.Text
