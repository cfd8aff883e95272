/-
Written integers of a limited range.

An integer is an optional sign and at least one digit. A minus sign is
only read where the range has negative numbers. Digits are taken in from
the left, and the first one that is none, or that leads out of the
range, decides what is reported.
-/
namespace TemporalNetwork.Text

/-- Why a text is not an integer of the range. -/
inductive IntegerError where
  | empty
  | invalidDigit
  | tooLarge
  | tooSmall
  deriving DecidableEq

def IntegerError.message : IntegerError → String
  | .empty => "cannot parse integer from empty string"
  | .invalidDigit => "invalid digit found in string"
  | .tooLarge => "number too large to fit in target type"
  | .tooSmall => "number too small to fit in target type"

/-- The integers from `lower` to `upper`. -/
structure IntegerRange where
  lower : Int
  upper : Int

namespace IntegerRange

def int32 : IntegerRange := ⟨-2147483648, 2147483647⟩

def nat8 : IntegerRange := ⟨0, 255⟩

def nat64 : IntegerRange := ⟨0, 18446744073709551615⟩

/-- The value of a decimal digit. -/
def digit? (c : Char) : Option Nat :=
  if '0' ≤ c ∧ c ≤ '9' then some (c.toNat - '0'.toNat) else none

/-- Takes in digits after a number read so far, upwards or downwards. -/
def readDigits (range : IntegerRange) (negative : Bool) : Int → List Char → Except IntegerError Int
  | n, [] => .ok n
  | n, c :: cs =>
    match digit? c with
    | none => .error .invalidDigit
    | some d =>
      let next : Int := if negative then 10 * n - d else 10 * n + d
      if next < range.lower then .error .tooSmall
      else if range.upper < next then .error .tooLarge
      else readDigits range negative next cs

/-- Reads an integer of the range. -/
def read (range : IntegerRange) (cs : List Char) : Except IntegerError Int :=
  match cs with
  | [] => .error .empty
  | ['+'] | ['-'] => .error .invalidDigit
  | '+' :: rest => range.readDigits false 0 rest
  | '-' :: rest =>
    if range.lower < 0 then range.readDigits true 0 rest else .error .invalidDigit
  | _ => range.readDigits false 0 cs

end IntegerRange

end TemporalNetwork.Text
