/-
A bound literal says what the bounds say.

A literal that stands for a fact is tied to it from both sides. While it
is true, the edge of the fact is in force and keeps the potential of the
fact at most at its threshold; and a potential that is at the threshold
has set the literal, since no watch is left behind. With the negation of
the literal and of the fact it is the same, and the two potentials of a
timepoint do not cross, so that each side is an equivalence:
`Bound.value_eq_true_iff`.

The edge and the watch stay once they are there. Nothing else is used of
the history, neither the level of propagation nor which literals have
other meanings besides.
-/
import TemporalNetwork.Proofs.Theory.History

namespace TemporalNetwork

/-- The fact holds of all values between the bounds. -/
def BoundFact.EntailedBy (lower upper : Int) : BoundFact → Prop
  | .leq _ k => upper ≤ k
  | .geq _ k => k ≤ lower

namespace Theory

variable {s s' t t' : Theory} {ts : List Theory} {l : Literal} {f : BoundFact} {c : Config}
  {before after : List Request}

-- ================================================================ the tie

/-- The literal enforces the fact, and follows from it. -/
structure Bound (t : Theory) (l : Literal) (f : BoundFact) : Prop where
  edge : t.network.Contains (f.edge l)
  watch : ⟨f.threshold, l⟩ ∈ t.bindings.watches f.view f.timepoint

/-- The edge that enforces the fact, in the view of the fact. -/
theorem enforces (f : BoundFact) (l : Literal) : (f.edge l).isIn f.view = true ∧
    (f.edge l).tail f.view = .origin ∧ (f.edge l).head f.view = f.timepoint ∧
      (f.edge l).weight = f.threshold := by
  cases f with
  | leq x k => exact ⟨rfl, rfl, rfl, rfl⟩
  | geq x k => exact ⟨rfl, rfl, rfl, rfl⟩

theorem Bound.hasTimepoint (h : Bound t l f) (ht : t.Settled) :
    t.network.hasTimepoint f.timepoint = true := by
  obtain ⟨id, hid, hedge⟩ := h.edge
  have hhead := ht.coherent.network.head hid f.view
  rw [hedge, (enforces f l).2.2.1] at hhead
  exact hhead

/-- A true literal enforces its fact. -/
theorem Bound.value_le (h : Bound t l f) (ht : t.Settled) (hnone : t.conflict = none)
    (htrue : t.value l = some true) : t.graph.value f.view f.timepoint ≤ f.threshold := by
  obtain ⟨id, hid, hedge⟩ := h.edge
  obtain ⟨hin, htail, hhead, hweight⟩ := enforces f l
  have hactive : t.graph.isActive id = true := by
    refine ht.enabledBy_active hnone ⟨hid, fun g hg => ?_⟩
    rw [hedge, guard?_boundEdge, Option.some.injEq] at hg
    exact hg ▸ htrue
  have hrespected := ht.coherent.graph.respected f.view id hactive (by rw [hedge]; exact hin)
  rw [hedge, htail, hhead, hweight, ht.coherent.graph.origin] at hrespected
  omega

/-- Of a fact and its negation only one can be entailed. -/
theorem not_both_entailed (ht : t.Settled)
    (hle : t.graph.value f.view f.timepoint ≤ f.threshold) :
    ¬ t.graph.value f.negation.view f.negation.timepoint ≤ f.negation.threshold := by
  cases f with
  | leq x k =>
      have huncrossed := ht.coherent.graph.uncrossed x
      simp only [BoundFact.view, BoundFact.timepoint, BoundFact.threshold,
        BoundFact.negation] at hle ⊢
      omega
  | geq x k =>
      have huncrossed := ht.coherent.graph.uncrossed x
      simp only [BoundFact.view, BoundFact.timepoint, BoundFact.threshold,
        BoundFact.negation] at hle ⊢
      omega

/-- The literal is true exactly when the potential of the fact is at most
at its threshold. -/
theorem Bound.value_eq_true_iff (h : Bound t l f) (hneg : Bound t l.negate f.negation)
    (ht : t.Settled) (hnone : t.conflict = none) :
    t.value l = some true ↔ t.graph.value f.view f.timepoint ≤ f.threshold := by
  constructor
  · exact h.value_le ht hnone
  · intro hle
    have hvalue : t.value l ≠ none :=
      (ht.fired _ _ _ h.watch hle).resolve_right (Set.notMem_empty _)
    cases hl : t.value l with
    | none => exact absurd hl hvalue
    | some b =>
        cases b with
        | true => rfl
        | false =>
            have hle' := hneg.value_le ht hnone (value_negate_eq_true.mpr hl)
            exact absurd hle' (not_both_entailed ht hle)

/-- A potential at its threshold, said of bounds. -/
theorem entailedBy_iff (g : ActiveGraph) (f : BoundFact) :
    f.EntailedBy (g.lower f.timepoint) (g.upper f.timepoint) ↔
      g.value f.view f.timepoint ≤ f.threshold := by
  cases f with
  | leq x k => exact Iff.rfl
  | geq x k =>
      show k ≤ -g.value .backward x ↔ g.value .backward x ≤ -k
      omega

-- =============================================================== histories

/-- The problem only grows, whatever is asked. -/
theorem Stack.grows (hts : Stack ts t) {r : Request} {reply : Reply}
    (h : t.perform r = .ok (t', reply)) : t.network.Grows t'.network ∧
      ∀ d x, t.bindings.watches d x ⊆ t'.bindings.watches d x := by
  by_cases hr : ∃ l, r = .assign l
  · obtain ⟨l, rfl⟩ := hr
    obtain ⟨a, hrun, -⟩ := replying_eq_ok.mp h
    obtain ⟨-, hsame, -⟩ := extends_assign hts.settled hrun
    rw [hsame.network, hsame.bindings]
    exact ⟨.refl _, fun d x => List.Subset.refl _⟩
  · obtain ⟨ts', hturns, -⟩ := turns_perform hts (fun l hl => hr ⟨l, hl⟩) h
    exact ⟨hturns.grows hts, fun d x => hturns.watches hts d x⟩

/-- A literal stays bound, as network and watches only grow. -/
theorem Bound.performAll (h : Bound t l f) (hts : Stack ts t)
    (hrun : t.performAll after = .ok t') : Bound t' l f := by
  induction after generalizing ts t with
  | nil =>
      cases hrun
      exact h
  | cons r rs ih =>
      unfold Theory.performAll at hrun
      rw [Checked.bind_eq_ok] at hrun
      obtain ⟨⟨t₁, reply⟩, hfirst, hrest⟩ := hrun
      obtain ⟨hgrows, hwatches⟩ := hts.grows hfirst
      obtain ⟨ts₁, hts₁⟩ := hts.perform hfirst
      exact ih ⟨hgrows.contains h.edge, hwatches _ _ h.watch⟩ hts₁ hrest

/-- What recording a fact leaves behind, for the literal and for its
negation. -/
theorem bound_of_recorded (hnetwork : t'.network = boundNetwork t.network l f)
    (hbindings : t'.bindings = (t.recordBound l f).bindings) :
    Bound t' l f ∧ Bound t' l.negate f.negation := by
  constructor
  · refine ⟨?_, ?_⟩
    · rw [hnetwork]
      exact Network.contains_addEdge_iff.mpr (.inl (Network.contains_addEdge _ _))
    · rw [hbindings]
      exact Bindings.mem_watches_addBound.mpr
        (.inl (Bindings.mem_watches_addBound.mpr (.inr ⟨⟨rfl, rfl⟩, rfl⟩)))
  · refine ⟨?_, ?_⟩
    · rw [hnetwork]
      exact Network.contains_addEdge _ _
    · rw [hbindings]
      exact Bindings.mem_watches_addBound.mpr (.inr ⟨⟨rfl, rfl⟩, rfl⟩)

/-- A literal that was bound to a fact, or added for it. -/
def Binds (s : Theory) (l : Literal) (f : BoundFact) (s' : Theory) : Prop :=
  s.perform (.bindBound l f) = .ok (s', .done) ∨
    s.perform (.newBoundLiteral f) = .ok (s', .literal l)

/-- The requests that bind a literal record both edges and both watches. -/
theorem Binds.bound (h : s.Binds l f s') (hs : s.Settled) :
    Bound s' l f ∧ Bound s' l.negate f.negation := by
  rcases h with h | h
  · obtain ⟨r, hrun, hreply⟩ := replying_eq_ok.mp h
    cases r with
    | error refusal => cases hreply
    | ok u =>
        obtain ⟨-, hnetwork, hbindings⟩ := (outcome_bindBound hs hrun).settles
        exact bound_of_recorded hnetwork hbindings
  · obtain ⟨r, hrun, hreply⟩ := replying_eq_ok.mp h
    cases r with
    | error refusal => cases hreply
    | ok m =>
        cases hreply
        obtain ⟨-, hnetwork, hbindings⟩ := (outcome_newBoundLiteral hs hrun).settles
        exact bound_of_recorded hnetwork hbindings

-- ============================================================ the statement

/-- A bound literal follows the bounds of its timepoint exactly: once it
was bound, and whatever was done before and after, it is true in every
consistent state exactly when the bounds entail the fact, and false
exactly when they entail its negation. -/
theorem value_iff_entailedBy (hbefore : (initial c).performAll before = .ok s)
    (hbinds : s.Binds l f s') (hafter : s'.performAll after = .ok t)
    (hconsistent : t.isConsistent = true) :
    ∃ lower upper, t.lower f.timepoint = .ok lower ∧ t.upper f.timepoint = .ok upper ∧
      (t.value l = some true ↔ f.EntailedBy lower upper) ∧
      (t.value l = some false ↔ f.negation.EntailedBy lower upper) := by
  have hinitial : Stack [] (initial c) := .root (settled_initial c) (atRoot_initial c)
  obtain ⟨ts, hts⟩ := hinitial.performAll hbefore
  obtain ⟨hbound, hnegated⟩ := hbinds.bound hts.settled
  obtain ⟨ts', hts'⟩ : ∃ ts', Stack ts' s' := by
    rcases hbinds with h | h
    · exact hts.perform h
    · exact hts.perform h
  -- what binds the literal is kept by all requests
  have hbound' := hbound.performAll hts' hafter
  have hnegated' := hnegated.performAll hts' hafter
  obtain ⟨ts'', hts''⟩ := hts'.performAll hafter
  have ht := hts''.settled
  have hnone : t.conflict = none := Option.isNone_iff_eq_none.mp hconsistent
  have hx := hbound'.hasTimepoint ht
  have htimepoint : f.negation.timepoint = f.timepoint := by cases f <;> rfl
  refine ⟨t.graph.lower f.timepoint, t.graph.upper f.timepoint, ?_, ?_, ?_, ?_⟩
  · unfold Theory.lower requireTimepoint
    rw [Checked.require_of hx]
    rfl
  · unfold Theory.upper requireTimepoint
    rw [Checked.require_of hx]
    rfl
  · rw [entailedBy_iff]
    exact hbound'.value_eq_true_iff hnegated' ht hnone
  · -- the negation of the literal is bound to the negation of the fact
    rw [← value_negate_eq_true, ← htimepoint, entailedBy_iff]
    refine hnegated'.value_eq_true_iff ?_ ht hnone
    rw [Literal.negate_negate, BoundFact.negation_negation]
    exact hbound'

/-- The literal guards another edge besides. It is set at a level that is
taken back, and set again. -/
theorem value_iff_entailedBy_again :
    ∃ s s' t, (initial .standard).performAll
        [.newTimepoint ⟨0, 10⟩, .newVariable, .newVariable,
          .addConditionalEdge .origin ⟨1⟩ 4 ⟨⟨1⟩, true⟩,
          .addConditionalEdge ⟨1⟩ .origin (-2) ⟨⟨0⟩, true⟩] = .ok s ∧
      s.Binds ⟨⟨0⟩, true⟩ (.leq ⟨1⟩ 5) s' ∧
      s'.performAll [.pushCheckpoint, .assign ⟨⟨1⟩, true⟩, .reset, .configure ⟨.off, true⟩,
        .pushCheckpoint, .assign ⟨⟨1⟩, true⟩] = .ok t ∧
      t.isConsistent = true ∧ t.value ⟨⟨0⟩, true⟩ = some true ∧
      ∃ lower upper, t.lower ⟨1⟩ = .ok lower ∧ t.upper ⟨1⟩ = .ok upper ∧
        (t.value ⟨⟨0⟩, true⟩ = some true ↔ upper ≤ 5) ∧
        (t.value ⟨⟨0⟩, true⟩ = some false ↔ 5 + 1 ≤ lower) := by
  have hrun : ((initial .standard).performAll
      [.newTimepoint ⟨0, 10⟩, .newVariable, .newVariable,
        .addConditionalEdge .origin ⟨1⟩ 4 ⟨⟨1⟩, true⟩,
        .addConditionalEdge ⟨1⟩ .origin (-2) ⟨⟨0⟩, true⟩] >>= fun s =>
      s.perform (.bindBound ⟨⟨0⟩, true⟩ (.leq ⟨1⟩ 5)) >>= fun p =>
      Checked.require (p.2 = .done) .outOfBounds >>= fun _ =>
      p.1.performAll [.pushCheckpoint, .assign ⟨⟨1⟩, true⟩, .reset, .configure ⟨.off, true⟩,
        .pushCheckpoint, .assign ⟨⟨1⟩, true⟩]).answers (fun t =>
          t.isConsistent && t.value ⟨⟨0⟩, true⟩ == some true) = true := by
    decide +kernel
  obtain ⟨t, ht, hstate⟩ := Checked.exists_of_answers hrun
  simp only [Checked.bind_eq_ok, Checked.require_eq_ok] at ht
  obtain ⟨s, hs, ⟨s', reply⟩, hstep, -, rfl, ht⟩ := ht
  obtain ⟨hconsistent, hvalue⟩ := Bool.and_eq_true_iff.mp hstate
  exact ⟨s, s', t, hs, .inl hstep, ht, hconsistent, beq_iff_eq.mp hvalue,
    value_iff_entailedBy hs (.inl hstep) ht hconsistent⟩

end Theory

end TemporalNetwork
