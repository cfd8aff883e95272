/-
The order in which literals are set does not matter.

What a run derives at a moment depends on what was set before, and two
runs that set the same literals in different orders pass through states
that cannot be compared. Their ends can: the one is saturated above the
graph from which both started, hence absorbs the other, which therefore
ends below it. As the second run then ends as well as the first, the
roles may be exchanged.
-/
import TemporalNetwork.Proofs.Theory.Containment

namespace TemporalNetwork

namespace Theory

variable {s t t' : Theory} {l : Literal} {ls ls' : List Literal} {g₀ : ActiveGraph}
  {p : PropagationLevel} {answers : List (Except AssignError Unit)}

-- ==================================================== runs that end well

/-- A theory at rest absorbs what starts at its own graph. -/
theorem Stable.absorbs (ht : t.Stable) : Absorbs p t.graph t where
  toStable := ht
  sound := ht.coherent.graph.toSound
  saturated := saturated_self ht.fired

/-- A literal is set if it is known and there is no conflict before or
after. -/
theorem assign_eq_done (h : t.assign l = .ok (t', .ok ())) :
    t.hasVariable l.var = true ∧ t.conflict = none ∧ t'.conflict = none := by
  unfold assign at h
  split at h
  next hvar =>
    cases hconflict : t.conflict with
    | some c =>
        rw [hconflict] at h
        cases h
    | none =>
        rw [hconflict] at h
        simp only [Checked.bind_eq_ok, Checked.pure_eq_ok, Prod.mk.injEq] at h
        obtain ⟨t₁, -, rfl, hverdict⟩ := h
        refine ⟨hvar, rfl, ?_⟩
        cases hafter : t₁.conflict with
        | none => rfl
        | some c =>
            unfold verdict at hverdict
            rw [hafter] at hverdict
            cases hverdict
  next => cases h

/-- What a literal leads to absorbs again, as nothing that follows from it
is missed. -/
theorem Absorbs.assign (ht : Absorbs p g₀ t) (hp : t.config.propagation = p)
    (h : t.assign l = .ok (t', .ok ())) :
    Absorbs p g₀ t' ∧ t'.config.propagation = p ∧ Below t t' := by
  obtain ⟨hvar, hnone, hnone'⟩ := assign_eq_done h
  obtain ⟨hsettled, hadvances, -⟩ := advances_assign ht.toSettled hvar hnone h
  have hset := below_setLiteral (l := l) hvar
  have hsame := sameProblem_setLiteral t l
  have hbelow := hset.trans hadvances.steps.below
  have hp' : (t.setLiteral l).config.propagation = p := hsame.config ▸ hp
  refine ⟨⟨⟨hsettled, hnone'⟩, hbelow.network ▸ ht.sound, ?_⟩, ?_, hbelow⟩
  · exact hadvances.saturated (ht.coherent.setLiteral hvar) hp'
      (ht.saturated.of_subset hsame (graph_setLiteral t l) hset.literals)
  · exact hadvances.steps.sameProblem.config ▸ hp'

/-- Assignments that are all accepted lead up to a theory that absorbs. -/
theorem Absorbs.assignAll (ht : Absorbs p g₀ t) (hp : t.config.propagation = p)
    (h : t.assignAll ls = .ok (t', answers)) (hok : ∀ a ∈ answers, a = .ok ()) :
    Absorbs p g₀ t' ∧ Below t t' := by
  induction ls generalizing t answers with
  | nil =>
      cases h
      exact ⟨ht, .refl _⟩
  | cons l ls ih =>
      obtain ⟨t₁, answer, rest, hfirst, hrest, rfl⟩ := assignAll_cons_eq_ok.mp h
      obtain ⟨rfl, hok'⟩ := List.forall_mem_cons.mp hok
      obtain ⟨ht₁, hp₁, hbelow⟩ := ht.assign hp hfirst
      obtain ⟨ht', hbelow'⟩ := ih ht₁ hp₁ hrest hok'
      exact ⟨ht', hbelow.trans hbelow'⟩

/-- Literals that are true after a run that ended well can be set in any
order, and that leads to nothing else. -/
theorem Stable.exists_assignAll (hs : s.Stable) (h : s.assignAll ls = .ok (t, answers))
    (hok : ∀ a ∈ answers, a = .ok ()) (hls' : ∀ l ∈ ls', l ∈ t.trueLiterals) :
    ∃ t' answers', s.assignAll ls' = .ok (t', answers') ∧ (∀ a ∈ answers', a = .ok ()) ∧
      t'.Stable ∧ (∀ l ∈ ls', l ∈ t'.trueLiterals) ∧ Below t' t := by
  obtain ⟨ht, hbelow⟩ := hs.absorbs.assignAll rfl h hok
  have hstart : Approaches _ s.graph s t := ⟨hbelow, hs.coherent, rfl, Set.Subset.refl _⟩
  obtain ⟨t', answers', hrun, hok', ht', happroaches, -, htrue⟩ := hstart.assignAll ht hs hls'
  exact ⟨t', answers', hrun, hok', ht', htrue, happroaches.toBelow⟩

-- ============================================================ the same end

/-- Two theories of which neither knows more have the same edges in force
and the same bounds. -/
theorem Below.antisymm (h : Below t t') (h' : Below t' t) (ht : t.Stable) (ht' : t'.Stable) :
    (∀ l, t.value l = some true ↔ t'.value l = some true) ∧
      (∀ id, t.isActive id = t'.isActive id) ∧
      ∀ x, t.lower x = t'.lower x ∧ t.upper x = t'.upper x := by
  refine ⟨fun l => ⟨fun hl => h.literals hl, fun hl => h'.literals hl⟩, fun id => ?_, fun x => ?_⟩
  · exact Bool.eq_iff_iff.mpr ⟨fun hid => h.active ht.coherent ht' hid,
      fun hid => h'.active ht'.coherent ht hid⟩
  · unfold Theory.lower Theory.upper requireTimepoint
    rw [h.network]
    by_cases hx : t.network.hasTimepoint x = true
    · have hvalue : ∀ d, t.graph.value d x = t'.graph.value d x := fun d =>
        Int.le_antisymm (h'.value_le ht'.coherent ht (h.network ▸ hx) d)
          (h.value_le ht.coherent ht' hx d)
      rw [Checked.require_of hx]
      unfold ActiveGraph.lower ActiveGraph.upper
      rw [hvalue, hvalue]
      exact ⟨rfl, rfl⟩
    · unfold Checked.require
      rw [if_neg hx]
      exact ⟨rfl, rfl⟩

/-- Literals are set in some order, each without a conflict, and are all
true in the end. Then in any other order there is no conflict either, and
the end is the same: the true literals, the edges in force, and the
bounds of each timepoint. -/
theorem assignAll_confluent {c : Config} {rs : List Request}
    (hs : (initial c).performAll rs = .ok s) (hconsistent : s.isConsistent = true)
    (hsame : ∀ l, l ∈ ls ↔ l ∈ ls') (h : s.assignAll ls = .ok (t, answers))
    (hok : ∀ a ∈ answers, a = .ok ()) (htrue : ∀ l ∈ ls, t.value l = some true) :
    ∃ t' answers', s.assignAll ls' = .ok (t', answers') ∧ (∀ a ∈ answers', a = .ok ()) ∧
      t'.isConsistent = true ∧ (∀ l ∈ ls', t'.value l = some true) ∧
      (∀ l, t'.value l = some true ↔ t.value l = some true) ∧
      (∀ id, t'.isActive id = t.isActive id) ∧
      ∀ x, t'.lower x = t.lower x ∧ t'.upper x = t.upper x := by
  have hstable : s.Stable :=
    ⟨settled_of_performAll hs, Option.isNone_iff_eq_none.mp hconsistent⟩
  obtain ⟨t', answers', hrun', hok', ht', htrue', hbelow'⟩ :=
    hstable.exists_assignAll h hok fun l hl => htrue l ((hsame l).mpr hl)
  -- the other run ended as well, so that the first is contained in it
  obtain ⟨t₁, answers₁, hrun₁, -, ht, -, hbelow⟩ :=
    hstable.exists_assignAll hrun' hok' fun l hl => htrue' l ((hsame l).mp hl)
  cases h.symm.trans hrun₁
  exact ⟨t', answers', hrun', hok', Option.isNone_iff_eq_none.mpr ht'.consistent, htrue',
    hbelow'.antisymm hbelow ht' ht⟩

/-- Two edges in a row bring the second timepoint below the bound of a
literal, and rule an edge out, whichever of them comes first. -/
theorem assignAll_confluent_chain :
    ∃ s t answers t' answers', (initial ⟨.full, true⟩).performAll
        [.newTimepoint ⟨0, 10⟩, .newTimepoint ⟨0, 10⟩, .newVariable, .newVariable,
          .addConditionalEdge .origin ⟨1⟩ 4 ⟨⟨0⟩, true⟩, .addConditionalEdge ⟨1⟩ ⟨2⟩ 3 ⟨⟨1⟩, true⟩,
          .newBoundLiteral (.leq ⟨2⟩ 7), .newVariable,
          .addConditionalEdge ⟨2⟩ .origin (-9) ⟨⟨3⟩, true⟩] = .ok s ∧
      s.assignAll [⟨⟨0⟩, true⟩, ⟨⟨1⟩, true⟩] = .ok (t, answers) ∧
      t.value ⟨⟨2⟩, true⟩ = some true ∧ t.value ⟨⟨3⟩, true⟩ = some false ∧
      s.assignAll [⟨⟨1⟩, true⟩, ⟨⟨0⟩, true⟩] = .ok (t', answers') ∧
      (∀ a ∈ answers', a = .ok ()) ∧ t'.isConsistent = true ∧
      (∀ l ∈ [⟨⟨1⟩, true⟩, ⟨⟨0⟩, true⟩], t'.value l = some true) ∧
      (∀ l, t'.value l = some true ↔ t.value l = some true) ∧
      (∀ id, t'.isActive id = t.isActive id) ∧
      ∀ x, t'.lower x = t.lower x ∧ t'.upper x = t.upper x := by
  have hrun : ((initial ⟨.full, true⟩).performAll
      [.newTimepoint ⟨0, 10⟩, .newTimepoint ⟨0, 10⟩, .newVariable, .newVariable,
        .addConditionalEdge .origin ⟨1⟩ 4 ⟨⟨0⟩, true⟩, .addConditionalEdge ⟨1⟩ ⟨2⟩ 3 ⟨⟨1⟩, true⟩,
        .newBoundLiteral (.leq ⟨2⟩ 7), .newVariable,
        .addConditionalEdge ⟨2⟩ .origin (-9) ⟨⟨3⟩, true⟩] >>= fun s =>
      Checked.require (s.isConsistent = true) .outOfBounds >>= fun _ =>
      s.assignAll [⟨⟨0⟩, true⟩, ⟨⟨1⟩, true⟩]).answers (fun p =>
        p.2.all (·.isOk) &&
        [⟨⟨0⟩, true⟩, ⟨⟨1⟩, true⟩].all (fun l => p.1.value l == some true) &&
        p.1.value ⟨⟨2⟩, true⟩ == some true && p.1.value ⟨⟨3⟩, true⟩ == some false) = true := by
    decide +kernel
  obtain ⟨⟨t, answers⟩, hrun, hstate⟩ := Checked.exists_of_answers hrun
  simp only [Checked.bind_eq_ok, Checked.require_eq_ok] at hrun
  obtain ⟨s, hs, -, hconsistent, h⟩ := hrun
  simp only [Bool.and_eq_true, beq_iff_eq, List.all_eq_true] at hstate
  obtain ⟨⟨⟨hok, htrue⟩, hbound⟩, hruledOut⟩ := hstate
  have hok' : ∀ a ∈ answers, a = .ok () := by
    intro a ha
    have hmatches := hok a ha
    cases a with
    | ok u => rfl
    | error e => cases hmatches
  have hsame : ∀ l : Literal, l ∈ [⟨⟨0⟩, true⟩, ⟨⟨1⟩, true⟩] ↔ l ∈ [⟨⟨1⟩, true⟩, ⟨⟨0⟩, true⟩] :=
    fun l => by simp [or_comm]
  obtain ⟨t', answers', hother⟩ := assignAll_confluent hs hconsistent hsame h hok' htrue
  exact ⟨s, t, answers, t', answers', hs, h, hbound, hruledOut, hother⟩

end Theory

end TemporalNetwork
