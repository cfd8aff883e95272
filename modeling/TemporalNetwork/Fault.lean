/-
Faults: the ways an operation stops without an answer.

Every operation that can break off returns a `Checked` value. A fault is
never an answer about the problem (inconsistency, refusal and misuse
have results of their own): it says that a handle named nothing, that a
number left its 32 bits, or that a condition which every step relies on
did not hold when it was looked at. The conditions are looked at as the
program runs, so "this never happens" is a statement about results:
the operation returns `.ok`.

# Arithmetic

Weights, bounds and distances are integers of 32 bits. Sums are formed
in `Int` and pass through `int32`, which keeps the exact value or
faults; no value ever wraps.
-/
namespace TemporalNetwork

-- ============================================================ the causes

/-- Why an operation broke off. -/
inductive Fault where
  /-- A sum does not fit in 32 bits. -/
  | overflow
  /-- A handle or a level beyond the last one that can be numbered. -/
  | numberTooLarge
  /-- A handle that names nothing in the structure it was used on. -/
  | outOfBounds
  /-- A saved state was to be restored and there is none. -/
  | nothingSaved
  /-- A partial undo reached back over a saved state. -/
  | undoCrossesCheckpoint
  /-- The edge taken from an out-list is not the one being undone. -/
  | wrongEdgeUndone
  /-- A node is added while the graph holds a saved state. -/
  | nodeAboveRoot
  /-- A checkpoint is opened while activations are pending. -/
  | pendingAtCheckpoint
  /-- A checkpoint was reopened at another level than it had. -/
  | wrongLevelReopened
  /-- Following predecessors from a node does not end at the origin. -/
  | chainMissesOrigin
  /-- The chain that explains a potential weighs more than it. -/
  | chainTooHeavy
  /-- The predecessors of a violated node do not close a cycle. -/
  | predecessorsNotClosed
  /-- An edge leads further down than the potentials allow. -/
  | negativeReducedCost
  /-- The edges of a conflict do not form a closed walk. -/
  | conflictNotClosed
  /-- The edges of a conflict do not weigh less than nothing. -/
  | conflictNotNegative
  /-- A literal that explains a conflict is not true. -/
  | conflictNotEntailed
  /-- A timepoint has its lower bound above its upper bound. -/
  | emptyDomain
  /-- An active edge is not respected by the potentials. -/
  | violatedEdge
  /-- A clause is revisited for a literal that it does not watch. -/
  | notWatched
  /-- A solution is read from an inconsistent theory. -/
  | inconsistentSolution
  /-- A search step names a level or a variable the theory lacks. -/
  | misuse
  /-- A parameter is forced after it was read. -/
  | alreadyInitialized
  /-- The default text of a parameter has no value. -/
  | badDefault
  /-- A loop ran for longer than its bound. -/
  | stepLimit
  deriving DecidableEq

/-- A value, unless a fault stopped the operation. -/
abbrev Checked (α : Type) : Type := Except Fault α

namespace Checked

/-- Goes on if the condition holds, and faults otherwise. -/
def require (p : Prop) [Decidable p] (f : Fault) : Checked Unit :=
  if p then .ok () else .error f

theorem require_of {p : Prop} [Decidable p] {f : Fault} (h : p) :
    require p f = .ok () := if_pos h

@[simp] theorem require_eq_ok {p : Prop} [Decidable p] {f : Fault} {u : Unit} :
    require p f = .ok u ↔ p := by
  unfold require
  split <;> simp_all

section
variable {α β : Type}

/-- A sequence ends with an answer if each part does. -/
@[simp] theorem bind_eq_ok {x : Checked α} {f : α → Checked β} {b : β} :
    (x >>= f) = .ok b ↔ ∃ a, x = .ok a ∧ f a = .ok b := by
  cases x <;> simp [bind, Except.bind]

/-- A sequence ends with an answer if what comes first has one, and what
comes next has one for it. -/
theorem exists_bind {x : Checked α} {f : α → Checked β} (hx : ∃ a, x = .ok a)
    (hf : ∀ a, x = .ok a → ∃ b, f a = .ok b) : ∃ b, (x >>= f) = .ok b := by
  obtain ⟨a, ha⟩ := hx
  obtain ⟨b, hb⟩ := hf a ha
  exact ⟨b, bind_eq_ok.mpr ⟨a, ha, hb⟩⟩

@[simp] theorem pure_eq_ok {a b : α} : (pure a : Checked α) = .ok b ↔ a = b := by
  simp [pure, Except.pure]

@[simp] theorem fmap_eq_ok {x : Checked α} {f : α → β} {b : β} :
    (f <$> x) = .ok b ↔ ∃ a, x = .ok a ∧ f a = b := by
  cases x <;> simp [Functor.map, Except.map]

@[simp] theorem map_eq_ok {x : Checked α} {f : α → β} {b : β} :
    x.map f = .ok b ↔ ∃ a, x = .ok a ∧ f a = b := by
  cases x <;> simp [Except.map]

/-- There is an answer, of which the test holds. -/
def answers (x : Checked α) (test : α → Bool) : Bool :=
  match x with
  | .ok a => test a
  | .error _ => false

theorem exists_of_answers {x : Checked α} {test : α → Bool} (h : x.answers test = true) :
    ∃ a, x = .ok a ∧ test a = true := by
  cases x with
  | ok a => exact ⟨a, rfl, h⟩
  | error f => cases h

end

end Checked

-- ========================================================== 32-bit values

/-- The integers of 32 bits, two's complement. -/
def FitsInt32 (x : Int) : Prop := -2147483648 ≤ x ∧ x ≤ 2147483647

instance (x : Int) : Decidable (FitsInt32 x) :=
  inferInstanceAs (Decidable (_ ∧ _))

/-- The exact value if it fits in 32 bits, a fault otherwise. -/
def int32 (x : Int) : Checked Int :=
  if FitsInt32 x then .ok x else .error .overflow

theorem int32_of {x : Int} (h : FitsInt32 x) : int32 x = .ok x := if_pos h

@[simp] theorem int32_eq_ok {x y : Int} :
    int32 x = .ok y ↔ FitsInt32 x ∧ x = y := by
  unfold int32
  split <;> simp_all

end TemporalNetwork
