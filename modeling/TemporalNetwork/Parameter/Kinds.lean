/-
The kinds of value that a parameter can have, and the parameters of the
program.

A text is read as a whole: blanks around a value are part of it, and
make it none.
-/
import TemporalNetwork.Parameter
import TemporalNetwork.Text.Integer
import TemporalNetwork.Theory.Config

namespace TemporalNetwork.Parameter

-- =================================================================== kinds

def readBool? (s : String) : Option Bool :=
  if s = "true" then some true else if s = "false" then some false else none

def readInteger? (range : Text.IntegerRange) (s : String) : Option Int :=
  (range.read s.toList).toOption

/-- A text of exactly one character. -/
def readCharacter? (s : String) : Option Char :=
  match s.toList with
  | [c] => some c
  | _ => none

-- ============================================================== parameters

/-- The level of propagation, where none is asked for. -/
def propagation : Parameter PropagationLevel :=
  declare "TEMPO_STN_THEORY_PROPAGATION" "bounds" PropagationLevel.ofText?

/-- Whether the theory checks itself. -/
def selfCheck : Parameter Bool := declare "TEMPO_STN_SELF_CHECK" "false" readBool?

/-- The value with which a variable is decided first. -/
def polarity : Parameter Bool := declare "TEMPO_DEFAULT_POLARITY" "true" readBool?

end TemporalNetwork.Parameter
