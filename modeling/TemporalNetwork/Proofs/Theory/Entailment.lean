/-
What follows from what a theory knows.

A total assignment is admitted by a network if the edges that it puts in
force have a schedule. Whatever propagation infers holds in every
assignment that is admitted and that has the values from which it was
inferred: so one assignment can be followed through a history, and what
was never decided holds in all of them. The clause of an explanation holds
in all of them as well (`Network.Forces`), and in all that an extended
network admits.

The states that were saved belong to branches of a search and may have
values that an assignment lacks. What lies below all of them does not:
`root` is the state at the root of the levels, and requests that set no
literal keep it within every assignment that is admitted.
-/
import TemporalNetwork.Proofs.Theory.History

namespace TemporalNetwork

variable {σ : BoolVar → Bool} {l : Literal}

/-- The literal is true in the assignment. -/
def Literal.Holds (σ : BoolVar → Bool) (l : Literal) : Prop := σ l.var = l.positive

theorem Literal.holds_negate : l.negate.Holds σ ↔ ¬ l.Holds σ := by
  unfold Literal.Holds Literal.negate
  cases σ l.var <;> cases l.positive <;> simp

/-- The edges that the assignment puts in force have a schedule. -/
def Network.Admits (net : Network) (σ : BoolVar → Bool) : Prop :=
  ¬ net.Excludes {l | l.Holds σ}

/-- An extended problem admits no more than it did before. -/
theorem Network.Grows.admits {net net' : Network} (h : net.Grows net') (h' : net'.Admits σ) :
    net.Admits σ := fun hexcludes => h' (h.excludes hexcludes)

/-- The clause holds in every assignment that is admitted, and not because
it lists a literal and its negation. -/
structure Network.Forces (net : Network) (ls : List Literal) : Prop where
  holds (σ : BoolVar → Bool) : net.Admits σ → ∃ l ∈ ls, l.Holds σ
  proper (l : Literal) : l ∈ ls → l.negate ∉ ls

/-- What a network forces does not depend on the order of the literals. -/
theorem Network.Forces.perm {net : Network} {ls ls' : List Literal} (h : net.Forces ls)
    (hperm : ls'.Perm ls) : net.Forces ls' := by
  refine ⟨fun σ hσ => ?_, fun l hl hnegate => ?_⟩
  · obtain ⟨l, hl, htrue⟩ := h.holds σ hσ
    exact ⟨l, hperm.mem_iff.mpr hl, htrue⟩
  · exact h.proper l (hperm.mem_iff.mp hl) (hperm.mem_iff.mp hnegate)

/-- What is forced once is forced for good. -/
theorem Network.Grows.forces {net net' : Network} {ls : List Literal} (h : net.Grows net')
    (hls : net.Forces ls) : net'.Forces ls :=
  ⟨fun σ hσ => hls.holds σ (h.admits hσ), hls.proper⟩

/-- Some literal of an explanation is false in an assignment that is
admitted. -/
theorem Conflict.Valid.exists_holds {net : Network} {c : Conflict} (h : c.Valid net)
    (hσ : net.Admits σ) : ∃ l ∈ c.clause.literals, l.Holds σ := by
  by_contra hnone
  refine hσ (h.excludes.mono fun l hl => ?_)
  by_contra hfalse
  refine hnone ⟨l.negate, ?_, Literal.holds_negate.mpr hfalse⟩
  exact Disjunction.mem_ofList.mpr (List.mem_map.mpr ⟨l, hl, rfl⟩)

namespace Theory

variable {t t' u : Theory} {ts : List Theory} {p q : List Theory × Theory}

-- ======================================================== along propagation

/-- The assignment has all values that are known. -/
def HoldsIn (t : Theory) (σ : BoolVar → Bool) : Prop := ∀ l ∈ t.trueLiterals, l.Holds σ

/-- A literal that holds can be set. -/
theorem HoldsIn.setLiteral (h : t.HoldsIn σ) (hvar : t.hasVariable l.var = true)
    (hl : l.Holds σ) : (t.setLiteral l).HoldsIn σ := by
  cases hvalue : t.value l with
  | some b =>
      rw [setLiteral_of_some hvalue]
      exact h
  | none =>
      intro m hm
      rcases (value_setLiteral hvalue hvar m).mp hm with hm | rfl
      · exact h m hm
      · exact hl

/-- An inference holds in every assignment that is admitted and has the
values from which it was drawn. -/
theorem Step.holdsIn (h : Step t t') (hσ : t.network.Admits σ) (ht : t.HoldsIn σ) :
    t'.HoldsIn σ := by
  cases h with
  | counted stats => exact ht
  | dropped sub => exact ht
  | activated henabled haccepts hgrounded => exact ht
  | refuted hnone henabled hvalid => exact ht
  | implied hnone hvar htrue hvalid =>
      intro m hm
      rcases (value_imply hnone hvar _ m).mp hm with hm | rfl
      · exact ht m hm
      · by_contra hfalse
        refine hσ (hvalid.mono fun n hn => ?_)
        rcases hn with hn | hn
        · exact ht n (htrue n hn)
        · rw [hn]
          exact Literal.holds_negate.mpr hfalse

/-- An assignment that the network admits is followed through propagation. -/
theorem Steps.holdsIn (h : Steps t t') (hσ : t.network.Admits σ) (ht : t.HoldsIn σ) :
    t'.HoldsIn σ := by
  induction h with
  | refl => exact ht
  | tail hsteps hstep ih =>
      refine hstep.holdsIn ?_ ih
      rw [(Steps.sameProblem hsteps).network]
      exact hσ

/-- An assignment that the network admits is followed when one of its literals
is assigned. -/
theorem holdsIn_assign (ht : t.Settled) {r : Except AssignError Unit}
    (h : t.assign l = .ok (t', r)) (hσ : t.network.Admits σ) (hholds : t.HoldsIn σ)
    (hl : l.Holds σ) : t'.HoldsIn σ := by
  by_cases hset : t.hasVariable l.var = true ∧ t.conflict = none
  · obtain ⟨-, hsteps⟩ := steps_assign ht hset.1 hset.2 h
    refine hsteps.holdsIn ?_ (hholds.setLiteral hset.1 hl)
    rw [(sameProblem_setLiteral t l).network]
    exact hσ
  · rw [eq_of_assign h hset]
    exact hholds

/-- An assignment that the network admits is followed through a change. -/
theorem Change.holdsIn (h : Change t t') (hσ : t'.network.Admits σ) (ht : t.HoldsIn σ) :
    t'.HoldsIn σ := by
  cases h with
  | extended h =>
      unfold HoldsIn
      rw [h.trueLiterals]
      exact ht
  | step h => exact h.holdsIn (h.sameProblem.network ▸ hσ) ht

/-- An assignment that the network admits is followed through changes. -/
theorem Changes.holdsIn (h : Changes t t') (hσ : t'.network.Admits σ) (ht : t.HoldsIn σ) :
    t'.HoldsIn σ := by
  induction h with
  | refl => exact ht
  | tail _ hchange ih => exact hchange.holdsIn hσ (ih (hchange.grows.admits hσ))

theorem Agrees.holdsIn_iff (h : Agrees t t') : t'.HoldsIn σ ↔ t.HoldsIn σ := by
  unfold HoldsIn
  rw [h.trueLiterals]

-- =============================================================== the root

/-- The state below all levels. -/
def root (p : List Theory × Theory) : Theory := p.1.getLast?.getD p.2

/-- What is above the root does not touch it, and at the root nothing
is decided. -/
theorem Turn.holdsIn_root (h : Turn p q) (hσ : q.2.network.Admits σ)
    (hp : (root p).HoldsIn σ) : (root q).HoldsIn σ := by
  cases h with
  | settled settles => exact settles.changes.holdsIn hσ hp
  | @recorded t t' ts settles extended =>
      cases ts with
      | nil => exact settles.changes.holdsIn hσ hp
      | cons t₀ ts =>
          have hroot : root (t₀ :: ts, t') = root (t₀ :: ts, t) := by
            simp [root, List.getLast?_cons]
          rw [hroot]
          exact hp
  | @opened t ts =>
      have hroot : root (t :: ts, t.saved) = root (ts, t) := by
        simp [root, List.getLast?_cons]
      rw [hroot]
      exact hp
  | @closed t₀ t u ts returns =>
      cases ts with
      | nil => exact returns.agrees.holdsIn_iff.mpr hp
      | cons t₁ ts =>
          have hroot : root (t₁ :: ts, u) = root (t₀ :: t₁ :: ts, t) := by
            simp [root, List.getLast?_cons]
          rw [hroot]
          exact hp

/-- An assignment that holds at the root goes on holding there. -/
theorem Turns.holdsIn_root (h : Turns p q) (hstack : Stack p.1 p.2)
    (hσ : q.2.network.Admits σ) (hp : (root p).HoldsIn σ) : (root q).HoldsIn σ := by
  induction h with
  | refl => exact hp
  | tail hturns hturn ih =>
      have hgrows := hturn.grows (Turns.stack hturns hstack)
      exact hturn.holdsIn_root hσ (ih (hgrows.admits hσ))

end Theory

end TemporalNetwork
