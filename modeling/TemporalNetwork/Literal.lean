/-
Boolean literals: a variable or its negation.

A literal has a code, twice its variable plus one if it is negated, so
that the two literals of a variable are neighbours. The code is the
handle of the literal and gives the order in which literals are kept.
Written forms are `b3` for variable 3 and `!b3` for its negation.
-/
import TemporalNetwork.Handle

namespace TemporalNetwork

/-- A variable, or its negation. -/
structure Literal where
  var : BoolVar
  positive : Bool
  deriving DecidableEq, Inhabited

namespace Literal

/-- The literal that holds exactly when this one does not. -/
def negate (l : Literal) : Literal := { l with positive := !l.positive }

/-- Position in the order of literals. -/
def code (l : Literal) : Nat := 2 * l.var.index + if l.positive then 0 else 1

def ofCode (n : Nat) : Literal := ⟨⟨n / 2⟩, n % 2 == 0⟩

theorem code_ofCode (n : Nat) : (ofCode n).code = n := by
  unfold code ofCode
  split <;> simp_all <;> omega

theorem ofCode_code (l : Literal) : ofCode l.code = l := by
  obtain ⟨⟨v⟩, p⟩ := l
  cases p
  · simp [code, ofCode]
    omega
  · simp [code, ofCode]

instance : Handle Literal := ⟨code, ofCode, code_ofCode, ofCode_code⟩

theorem code_inj {l m : Literal} : l.code = m.code ↔ l = m :=
  @Handle.index_inj Literal _ l m

@[simp] theorem negate_negate (l : Literal) : l.negate.negate = l := by
  simp [negate]

@[simp] theorem negate_var (l : Literal) : l.negate.var = l.var := rfl

theorem negate_ne (l : Literal) : l.negate ≠ l := by
  obtain ⟨v, p⟩ := l
  cases p <;> simp [negate]

/-- A code given from outside has 32 bits. -/
def ofNumber (n : Nat) : Literal := ofCode (n % 4294967296)

/-- The literal of a variable given from outside. A code of 32 bits
leaves 31 for the variable. -/
def ofVar (v : BoolVar) (positive : Bool) : Literal :=
  ⟨⟨v.index % 2147483648⟩, positive⟩

-- ============================================================ written form

instance : ToString Literal :=
  ⟨fun l => (if l.positive then "b" else "!b") ++ toString l.var.index⟩

/-- Reads what `toString` writes. -/
def ofText? (s : String) : Option Literal :=
  match s.toList with
  | '!' :: 'b' :: digits => number? digits |>.map fun n => ofVar ⟨n⟩ false
  | 'b' :: digits => number? digits |>.map fun n => ofVar ⟨n⟩ true
  | _ => none
where
  number? (digits : List Char) : Option Nat :=
    if digits ≠ [] ∧ digits.all Char.isDigit then
      some (digits.foldl (fun n c => 10 * n + (c.toNat - 48)) 0)
    else none

end Literal

-- ============================================================ truth values

/-- A partial assignment: what is known about each literal. -/
abbrev Valuation := Literal → Option Bool

end TemporalNetwork
