/-
What a written integer stands for.

An integer of a range is read digit by digit, and the reader may stop
early where the number leaves the range. What it stands for does not
depend on any of that: a sign, and the digits as a decimal number.

Conversely a text is read if what it stands for is in the range. The
numbers on the way lie between 0 and the number of all digits, so that
the reader does not stop early.
-/
import TemporalNetwork.Text.Integer

namespace TemporalNetwork.Text

-- ================================================================ decimals

/-- Digits after a number, as one number. -/
def decimalFrom (n : Nat) (ds : List Char) : Nat :=
  ds.foldl (fun n c => 10 * n + (c.toNat - '0'.toNat)) n

/-- The number that digits stand for; there must be some. -/
def natural? (ds : List Char) : Option Nat :=
  if ds ≠ [] ∧ ds.all Char.isDigit = true then some (decimalFrom 0 ds) else none

/-- The integer that a text stands for. -/
def integer? : List Char → Option Int
  | '+' :: ds => (natural? ds).map fun n => (n : Int)
  | '-' :: ds => (natural? ds).map fun n => -(n : Int)
  | ds => (natural? ds).map fun n => (n : Int)

example : integer? "-120".toList = some (-120) := by decide

namespace IntegerRange

variable {range : IntegerRange} {negative : Bool} {n : Nat} {k : Int} {cs : List Char} {c : Char}

/-- The value of a digit is its distance from zero. -/
theorem digit?_eq_some {d : Nat} (h : digit? c = some d) :
    c.isDigit = true ∧ d = c.toNat - '0'.toNat := by
  unfold digit? at h
  split at h
  next hrange =>
    cases h
    refine ⟨?_, rfl⟩
    unfold Char.isDigit
    rw [Bool.and_eq_true, decide_eq_true_eq, decide_eq_true_eq]
    exact hrange
  next => cases h

/-- The number so far, with its sign. -/
def signed (negative : Bool) (n : Nat) : Int := if negative then -(n : Int) else n

theorem signed_zero (negative : Bool) : signed negative 0 = 0 := by
  cases negative <;> rfl

/-- A digit more, away from 0. -/
theorem signed_next (negative : Bool) (n d : Nat) :
    (if negative then 10 * signed negative n - (d : Int) else 10 * signed negative n + d) =
      signed negative (10 * n + d) := by
  unfold signed
  cases negative
  · simp
  · simp only [if_true]
    omega

/-- Reading goes from the number so far to that with all digits. -/
theorem readDigits_eq_ok (h : range.readDigits negative (signed negative n) cs = .ok k) :
    cs.all Char.isDigit = true ∧ k = signed negative (decimalFrom n cs) := by
  induction cs generalizing n with
  | nil =>
      cases h
      exact ⟨rfl, rfl⟩
  | cons c cs ih =>
      unfold readDigits at h
      cases hd : digit? c with
      | none =>
          rw [hd] at h
          cases h
      | some d =>
          obtain ⟨hdigit, hvalue⟩ := digit?_eq_some hd
          rw [hd] at h
          simp only [signed_next] at h
          split at h
          next => cases h
          next =>
            split at h
            next => cases h
            next =>
              obtain ⟨hall, hk⟩ := ih h
              refine ⟨?_, ?_⟩
              · rw [List.all_cons, hdigit, hall]
                rfl
              · rw [hk, hvalue]
                rfl

/-- Digits that are read in range are those of a natural number, with the
sign. -/
theorem natural?_of_readDigits (hne : cs ≠ [])
    (h : range.readDigits negative 0 cs = .ok k) :
    ∃ n, natural? cs = some n ∧ k = signed negative n := by
  rw [← signed_zero negative] at h
  obtain ⟨hall, hk⟩ := readDigits_eq_ok h
  exact ⟨decimalFrom 0 cs, if_pos ⟨hne, hall⟩, hk⟩

/-- What is read is what the text stands for. -/
theorem read_eq_ok (h : range.read cs = .ok k) : integer? cs = some k := by
  unfold read at h
  split at h
  next => cases h
  next => cases h
  next => cases h
  next rest hrest =>
    obtain ⟨n, hn, rfl⟩ := natural?_of_readDigits hrest h
    rw [integer?, hn]
    rfl
  next rest hrest =>
    split at h
    next =>
      obtain ⟨n, hn, rfl⟩ := natural?_of_readDigits hrest h
      rw [integer?, hn]
      rfl
    next => cases h
  next hnil _ _ hplus hminus =>
    obtain ⟨n, hn, rfl⟩ := natural?_of_readDigits hnil h
    have hplain : integer? cs = (natural? cs).map fun n => (n : Int) := by
      rw [integer?]
      · exact hplus
      · exact hminus
    rw [hplain, hn]
    rfl

-- ============================================================ completeness

/-- Every decimal digit has a value. -/
theorem digit?_of_isDigit (h : c.isDigit = true) : digit? c = some (c.toNat - '0'.toNat) := by
  unfold Char.isDigit at h
  rw [Bool.and_eq_true, decide_eq_true_eq, decide_eq_true_eq] at h
  exact if_pos h

/-- More digits do not make a number less. -/
theorem le_decimalFrom (n : Nat) (ds : List Char) : n ≤ decimalFrom n ds := by
  induction ds generalizing n with
  | nil => exact Nat.le_refl n
  | cons c ds ih =>
      have hnext : n ≤ 10 * n + (c.toNat - '0'.toNat) := by omega
      exact Nat.le_trans hnext (ih _)

/-- Digits are read if the number they lead to is in the range. -/
theorem readDigits_of (hall : cs.all Char.isDigit = true) (hzero : range.lower ≤ 0)
    (hzero' : 0 ≤ range.upper) (hlower : range.lower ≤ signed negative (decimalFrom n cs))
    (hupper : signed negative (decimalFrom n cs) ≤ range.upper) :
    range.readDigits negative (signed negative n) cs =
      .ok (signed negative (decimalFrom n cs)) := by
  induction cs generalizing n with
  | nil => rfl
  | cons c cs ih =>
      rw [List.all_cons, Bool.and_eq_true] at hall
      have hlast : decimalFrom n (c :: cs) =
          decimalFrom (10 * n + (c.toNat - '0'.toNat)) cs := rfl
      rw [hlast] at hlower hupper ⊢
      have hle := le_decimalFrom (10 * n + (c.toNat - '0'.toNat)) cs
      have hstep := ih hall.2 hlower hupper
      unfold readDigits
      rw [digit?_of_isDigit hall.1]
      generalize c.toNat - '0'.toNat = d at hle hlower hupper hstep ⊢
      -- the number so far lies between 0 and the number of all digits
      have hbetween : range.lower ≤ signed negative (10 * n + d) ∧
          signed negative (10 * n + d) ≤ range.upper := by
        unfold signed at hlower hupper ⊢
        cases negative
        · simp only [Bool.false_eq_true, if_false] at hlower hupper ⊢
          omega
        · simp only [if_true] at hlower hupper ⊢
          omega
      simp only [signed_next]
      rw [if_neg (Int.not_lt.mpr hbetween.1), if_neg (Int.not_lt.mpr hbetween.2)]
      exact hstep

/-- The number of some digits, with a sign, is read if it is in the range. -/
theorem readDigits_of_natural? {f : Int → Int} (h : (natural? cs).map f = some k)
    (hf : ∀ n : Nat, f n = signed negative n) (hzero : range.lower ≤ 0)
    (hzero' : 0 ≤ range.upper) (hlower : range.lower ≤ k) (hupper : k ≤ range.upper) :
    cs ≠ [] ∧ range.readDigits negative 0 cs = .ok k := by
  unfold natural? at h
  split at h
  next hdigits =>
    obtain rfl : f (decimalFrom 0 cs) = k := Option.some.inj h
    rw [hf] at hlower hupper ⊢
    refine ⟨hdigits.1, ?_⟩
    rw [← readDigits_of hdigits.2 hzero hzero' hlower hupper, signed_zero]
  next => cases h

/-- What stands for an integer of the range is read. -/
theorem read_of_integer? (h : integer? cs = some k) (hnegative : range.lower < 0)
    (hzero : 0 ≤ range.upper) (hlower : range.lower ≤ k) (hupper : k ≤ range.upper) :
    range.read cs = .ok k := by
  have hplain : ∀ n : Nat, (n : Int) = signed false n := fun _ => rfl
  have hnegated : ∀ n : Nat, -(n : Int) = signed true n := fun _ => rfl
  have hle : range.lower ≤ 0 := Int.le_of_lt hnegative
  unfold integer? at h
  split at h
  next ds =>
    obtain ⟨hne, hread⟩ := readDigits_of_natural? h hplain hle hzero hlower hupper
    cases ds with
    | nil => exact absurd rfl hne
    | cons d ds => exact hread
  next ds =>
    obtain ⟨hne, hread⟩ := readDigits_of_natural? h hnegated hle hzero hlower hupper
    cases ds with
    | nil => exact absurd rfl hne
    | cons d ds => exact (if_pos hnegative).trans hread
  next hplus hminus =>
    obtain ⟨hne, hread⟩ := readDigits_of_natural? h hplain hle hzero hlower hupper
    rw [read.eq_def]
    split
    next => exact absurd rfl hne
    next => exact absurd rfl (hplus [])
    next => exact absurd rfl (hminus [])
    next rest _ => exact absurd rfl (hplus rest)
    next rest _ => exact absurd rfl (hminus rest)
    next => exact hread

end IntegerRange

end TemporalNetwork.Text
