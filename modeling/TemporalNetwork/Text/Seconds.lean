/-
Written numbers of seconds, and the durations they stand for.

A number is a decimal with an optional sign, fraction and exponent, or
one of the words for infinity and for no number at all, in any case. A
duration is a count of nanoseconds below `2 ^ 64` seconds. Numbers are
read as doubles, which shows at two ends only: what rounds to zero is no
longer negative, and what rounds to `2 ^ 64` is too large.
-/
import TemporalNetwork.Text.Integer

namespace TemporalNetwork.Text

/-- A number as it was written. -/
inductive Seconds where
  /-- `mantissa * 10 ^ exponent`, or the negative of it. -/
  | decimal (negative : Bool) (mantissa : Nat) (exponent : Int)
  | infinite (negative : Bool)
  | notANumber
  deriving DecidableEq

/-- Why a number is not a duration. -/
inductive DurationError where
  | negative
  | tooLargeOrNotANumber
  deriving DecidableEq

def DurationError.message (e : DurationError) : String :=
  "cannot convert float seconds to Duration: " ++
    match e with
    | .negative => "value is negative"
    | .tooLargeOrNotANumber => "value is either too big or NaN"

namespace Seconds

-- ================================================================= reading

/-- The digits at the front, as a number appended to `n`, their count,
and the rest. -/
def takeDigits (n count : Nat) : List Char → Nat × Nat × List Char
  | [] => (n, count, [])
  | c :: cs =>
    match IntegerRange.digit? c with
    | some d => takeDigits (10 * n + d) (count + 1) cs
    | none => (n, count, c :: cs)

/-- An exponent, if there is one, up to the end of the text. -/
def readExponent : List Char → Option Int
  | [] => some 0
  | c :: cs =>
    if c = 'e' ∨ c = 'E' then
      let (negative, digits) := match cs with
        | '-' :: rest => (true, rest)
        | '+' :: rest => (false, rest)
        | _ => (false, cs)
      match takeDigits 0 0 digits with
      | (_, 0, _) => none
      | (n, _, []) => some (if negative then -(n : Int) else n)
      | _ => none
    else none

/-- A decimal without sign. At least one digit stands before or after
the point. -/
def readDecimal (negative : Bool) (cs : List Char) : Option Seconds :=
  let (whole, wholeCount, rest) := takeDigits 0 0 cs
  let (mantissa, places, rest) := match rest with
    | '.' :: fraction => takeDigits whole 0 fraction
    | _ => (whole, 0, rest)
  if wholeCount + places = 0 then none
  else (readExponent rest).map fun e => .decimal negative mantissa (e - places)

/-- Reads a number. -/
def read? (s : String) : Option Seconds :=
  let (negative, cs) := match s.toList with
    | '-' :: rest => (true, rest)
    | '+' :: rest => (false, rest)
    | cs => (false, cs)
  match String.ofList (cs.map Char.toLower) with
  | "nan" => some .notANumber
  | "inf" | "infinity" => some (.infinite negative)
  | _ => readDecimal negative cs

-- =============================================================== durations

/-- The nanoseconds of a number of seconds, rounded to the nearest. What
is past all doubles is decided without forming a power of ten. -/
def nanoseconds : Seconds → Except DurationError Nat
  | notANumber => .error .tooLargeOrNotANumber
  | infinite negative => .error (if negative then .negative else .tooLargeOrNotANumber)
  | decimal negative mantissa exponent =>
    if mantissa = 0 ∨ exponent + (Nat.toDigits 10 mantissa).length < -400 then .ok 0
    else if exponent > 400 then
      .error (if negative then .negative else .tooLargeOrNotANumber)
    else
      let (num, den) :=
        if 0 ≤ exponent then (mantissa * Nat.pow 10 exponent.toNat, 1)
        else (mantissa, Nat.pow 10 (-exponent).toNat)
      -- half of the least double above zero still rounds to zero
      if num * Nat.pow 2 1075 ≤ den then .ok 0
      else if negative then .error .negative
      -- half way from the greatest double below `2 ^ 64`
      else if den * (Nat.pow 2 64 - 1024) ≤ num then .error .tooLargeOrNotANumber
      else .ok ((2 * num * Nat.pow 10 9 + den) / (2 * den))

end Seconds

end TemporalNetwork.Text
