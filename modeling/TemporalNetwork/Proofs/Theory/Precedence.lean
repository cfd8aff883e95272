/-
Antecedents come before what they imply.

The queue of true literals is the order in which they were set, and the
implications are read off it: each of them names a literal of the queue,
in the same order, and is explained by literals that stand before that
literal. So the implications of a theory can be followed back from any
literal to the ones that were set from outside, and never in a circle.

`Ordered` says this of a state by means of values and of the two queues
alone. A literal is set at the end of the queue, when its explanation is
true and hence in the queue already; that is the one argument here.
Nothing else that is done touches what `Ordered` speaks of, except that
closing a level leads back to the queues that were saved, and so
`Ordered` is carried along for the saved states too.
-/
import TemporalNetwork.Proofs.Theory.History

namespace TemporalNetwork

-- =================================================================== order

/-- The first literal stands before the second one. -/
def Precedes (ls : List Literal) (m l : Literal) : Prop :=
  ∃ before after, ls = before ++ l :: after ∧ m ∈ before

/-- What is appended leaves the order as it is. -/
theorem Precedes.concat {ls : List Literal} {m l : Literal} (h : Precedes ls m l) (k : Literal) :
    Precedes (ls ++ [k]) m l := by
  obtain ⟨before, after, heq, hm⟩ := h
  refine ⟨before, after ++ [k], ?_, hm⟩
  rw [heq, List.append_assoc, List.cons_append]

/-- What is appended comes last. -/
theorem precedes_concat_self {ls : List Literal} {m : Literal} (hm : m ∈ ls) (l : Literal) :
    Precedes (ls ++ [l]) m l := ⟨ls, [], rfl, hm⟩

namespace Theory

variable {t t' u : Theory} {ts : List Theory} {l : Literal} {x : Explanation}
  {p q : List Theory × Theory}

/-- The queue of true literals puts the implications in order. -/
structure Ordered (t : Theory) : Prop where
  assigned (l : Literal) : l ∈ t.assignments.toList ↔ t.value l = some true
  /-- A variable is set once. -/
  once : (t.assignments.toList.map Literal.var).Nodup
  published : (t.implications.toList.map Implication.literal).Sublist t.assignments.toList
  explained (i : Implication) : i ∈ t.implications.toList → ∀ m ∈ i.explanation.literals,
    Precedes t.assignments.toList m i.literal

/-- Before the first request nothing has been implied. -/
theorem ordered_initial (c : Config) : (initial c).Ordered where
  assigned l := by
    constructor
    · exact fun hl => absurd hl List.not_mem_nil
    · intro htrue
      cases ((coherent_initial c).assigned l).mpr htrue
  once := List.nodup_nil
  published := .slnil
  explained i hi := absurd hi List.not_mem_nil

/-- The order rests on the values and on what the queues hold. -/
theorem Ordered.congr (h : t.Ordered) (hvalue : t'.value = t.value)
    (hassignments : t'.assignments.events = t.assignments.events)
    (himplications : t'.implications.events = t.implications.events) : t'.Ordered := by
  have hA : t'.assignments.toList = t.assignments.toList := congrArg Array.toList hassignments
  have hI : t'.implications.toList = t.implications.toList := congrArg Array.toList himplications
  constructor
  · rw [hA, hvalue]
    exact h.assigned
  · rw [hA]
    exact h.once
  · rw [hA, hI]
    exact h.published
  · rw [hA, hI]
    exact h.explained

-- ========================================================== setting literals

/-- A literal that is set comes last. -/
theorem toList_assignments_setLiteral (hnone : t.value l = none) :
    (t.setLiteral l).assignments.toList = t.assignments.toList ++ [l] := by
  rw [setLiteral_of_none hnone]
  exact Array.toList_push

theorem implications_setLiteral (t : Theory) (l : Literal) :
    (t.setLiteral l).implications = t.implications := by
  unfold setLiteral
  split <;> rfl

/-- A variable that has no value is in no literal of the queue. -/
theorem Ordered.var_notMem (h : t.Ordered) (hnone : t.value l = none) :
    l.var ∉ t.assignments.toList.map Literal.var := by
  intro hmem
  obtain ⟨m, hm, hvar⟩ := List.mem_map.mp hmem
  have htrue := value_eq_true_iff.mp ((h.assigned m).mp hm)
  rw [hvar, value_eq_none_iff.mp hnone] at htrue
  cases htrue

/-- A literal that is assigned needs no antecedents. -/
theorem Ordered.setLiteral (h : t.Ordered) (hvar : t.hasVariable l.var = true) :
    (t.setLiteral l).Ordered := by
  cases hvalue : t.value l with
  | some b =>
      rw [setLiteral_of_some hvalue]
      exact h
  | none =>
      have hA := toList_assignments_setLiteral hvalue
      have hI := implications_setLiteral t l
      constructor
      · intro m
        rw [hA, List.mem_append, List.mem_singleton, h.assigned, value_setLiteral hvalue hvar]
      · rw [hA, List.map_append, List.map_singleton, ← List.concat_eq_append]
        exact h.once.concat (h.var_notMem hvalue)
      · rw [hA, hI]
        exact h.published.trans (List.sublist_append_left _ _)
      · rw [hA, hI]
        exact fun i hi m hm => (h.explained i hi m hm).concat l

/-- What explains an implication is true when it is drawn, and so it is in
the queue before the implied literal is. -/
theorem Ordered.imply (h : t.Ordered) (hnone : t.value l = none)
    (hvar : t.hasVariable l.var = true) (htrue : ∀ m ∈ x.literals, m ∈ t.trueLiterals) :
    (t.imply l x).Ordered := by
  have hset := h.setLiteral hvar
  have hA : (t.imply l x).assignments.toList = t.assignments.toList ++ [l] := by
    rw [imply_of_none hnone]
    exact toList_assignments_setLiteral hnone
  have hI : (t.imply l x).implications.toList = t.implications.toList ++ [⟨l, x.sorted⟩] := by
    rw [imply_of_none hnone]
    show ((t.setLiteral l).implications.events.push _).toList = _
    rw [implications_setLiteral, Array.toList_push]
    rfl
  constructor
  · intro m
    rw [hA, List.mem_append, List.mem_singleton, h.assigned, value_imply hnone hvar]
  · rw [hA, ← toList_assignments_setLiteral hnone]
    exact hset.once
  · rw [hA, hI, List.map_append]
    exact h.published.append (List.Sublist.refl [l])
  · intro i hi m hm
    rw [hI, List.mem_append, List.mem_singleton] at hi
    rw [hA]
    rcases hi with hold | rfl
    · exact (h.explained i hold m hm).concat l
    · apply precedes_concat_self
      exact (h.assigned m).mpr (htrue m (Explanation.mem_sorted.mp hm))

-- ============================================================ propagation

/-- A step of propagation implies from what was there before. -/
theorem Step.ordered (h : Step t t') (ht : t.Ordered) : t'.Ordered := by
  cases h with
  | counted stats => exact ht.congr rfl rfl rfl
  | dropped sub => exact ht.congr rfl rfl rfl
  | implied hnone hvar htrue hvalid => exact ht.imply hnone hvar htrue
  | activated henabled haccepts hgrounded => exact ht.congr rfl rfl rfl
  | refuted hnone henabled hvalid => exact ht.congr rfl rfl rfl

theorem Steps.ordered (h : Steps t t') (ht : t.Ordered) : t'.Ordered := by
  induction h with
  | refl => exact ht
  | tail _ hstep ih => exact hstep.ordered ih

theorem Extended.ordered (h : Extended t t') (ht : t.Ordered) : t'.Ordered :=
  ht.congr (value_congr h.known) (congrArg _ h.assignments) (congrArg _ h.implications)

/-- Antecedents come first through all changes. -/
theorem Changes.ordered (h : Changes t t') (ht : t.Ordered) : t'.Ordered := by
  induction h with
  | refl => exact ht
  | tail _ hchange ih =>
      cases hchange with
      | extended hextended => exact hextended.ordered ih
      | step hstep => exact hstep.ordered ih

-- ================================================================= requests

/-- Levels are opened and closed with the queues in order. -/
theorem Turn.ordered (h : Turn p q) (hp : ∀ u ∈ p.2 :: p.1, u.Ordered) :
    ∀ u ∈ q.2 :: q.1, u.Ordered := by
  cases h with
  | settled settles =>
      exact List.forall_mem_singleton.mpr (settles.changes.ordered (hp _ List.mem_cons_self))
  | recorded settles extended =>
      obtain ⟨ht, hts⟩ := List.forall_mem_cons.mp hp
      exact List.forall_mem_cons.mpr ⟨settles.changes.ordered ht, hts⟩
  | opened =>
      have ht := hp _ List.mem_cons_self
      exact List.forall_mem_cons.mpr ⟨ht.congr rfl rfl rfl, hp⟩
  | closed returns =>
      obtain ⟨-, hts⟩ := List.forall_mem_cons.mp hp
      obtain ⟨ht₀, hrest⟩ := List.forall_mem_cons.mp hts
      refine List.forall_mem_cons.mpr ⟨ht₀.congr ?_ ?_ ?_, hrest⟩
      · exact value_congr returns.agrees.known
      · exact returns.agrees.assignmentEvents
      · exact returns.agrees.implicationEvents

/-- Antecedents come first on every level that is kept. -/
theorem Turns.ordered (h : Turns p q) (hp : ∀ u ∈ p.2 :: p.1, u.Ordered) :
    ∀ u ∈ q.2 :: q.1, u.Ordered := by
  induction h with
  | refl => exact hp
  | tail _ hturn ih => exact hturn.ordered ih

/-- A request leaves the order as it is, in all states that it can lead
back to. -/
theorem Stack.ordered_perform {r : Request} {reply : Reply} (hts : Stack ts t)
    (hordered : ∀ u ∈ t :: ts, u.Ordered) (h : t.perform r = .ok (t', reply)) :
    ∃ ts', Stack ts' t' ∧ ∀ u ∈ t' :: ts', u.Ordered := by
  by_cases hr : ∃ l, r = .assign l
  · obtain ⟨l, rfl⟩ := hr
    obtain ⟨a, hrun, -⟩ := replying_eq_ok.mp h
    obtain ⟨hextends, -, hsettled⟩ := extends_assign hts.settled hrun
    obtain ⟨ht, hbelow⟩ := List.forall_mem_cons.mp hordered
    refine ⟨ts, hts.extends hextends hsettled, List.forall_mem_cons.mpr ⟨?_, hbelow⟩⟩
    by_cases hset : t.hasVariable l.var = true ∧ t.conflict = none
    · obtain ⟨-, hsteps⟩ := steps_assign hts.settled hset.1 hset.2 hrun
      exact hsteps.ordered (ht.setLiteral hset.1)
    · rw [eq_of_assign hrun hset]
      exact ht
  · obtain ⟨ts', hturns, -⟩ := turns_perform hts (fun l hl => hr ⟨l, hl⟩) h
    exact ⟨ts', hturns.stack hts, hturns.ordered hordered⟩

/-- Antecedents come first after any requests. -/
theorem Stack.ordered_performAll {rs : List Request} (hts : Stack ts t)
    (hordered : ∀ u ∈ t :: ts, u.Ordered) (h : t.performAll rs = .ok t') : t'.Ordered := by
  induction rs generalizing ts t with
  | nil =>
      cases h
      exact hordered _ List.mem_cons_self
  | cons r rs ih =>
      unfold Theory.performAll at h
      rw [Checked.bind_eq_ok] at h
      obtain ⟨⟨t₁, reply⟩, hfirst, hrest⟩ := h
      obtain ⟨ts₁, hts₁, hordered₁⟩ := hts.ordered_perform hordered hfirst
      exact ih hts₁ hordered₁ hrest

theorem ordered_of_performAll {c : Config} {rs : List Request}
    (h : (initial c).performAll rs = .ok t) : t.Ordered := by
  have hinitial : Stack [] (initial c) := .root (settled_initial c) (atRoot_initial c)
  exact hinitial.ordered_performAll (List.forall_mem_singleton.mpr (ordered_initial c)) h

variable {c : Config} {rs : List Request}

/-- After any history the true literals are those of the queue, which has
each variable once; the implications are a part of it, in the same order;
and each of them is explained by literals that stand before the implied
one. -/
theorem antecedents_precede (h : (initial c).performAll rs = .ok t) :
    (∀ l, t.value l = some true ↔ l ∈ t.assignments.toList) ∧
      (t.assignments.toList.map Literal.var).Nodup ∧
      (t.implications.toList.map Implication.literal).Sublist t.assignments.toList ∧
      ∀ i ∈ t.implications.toList, ∀ m ∈ i.explanation.literals,
        Precedes t.assignments.toList m i.literal := by
  have ht := ordered_of_performAll h
  exact ⟨fun l => (ht.assigned l).symm, ht.once, ht.published, ht.explained⟩

/-- A bound literal is implied, taken back and implied again by another
edge, before a conflict leaves a literal set whose edge is not in force. -/
theorem antecedents_precede_conflict :
    ∃ t, (initial ⟨.off, true⟩).performAll
        [.newTimepoint ⟨0, 10⟩, .newBoundLiteral (.leq ⟨1⟩ 5), .newVariable, .newVariable,
          .newVariable, .addConditionalEdge .origin ⟨1⟩ 3 ⟨⟨1⟩, true⟩,
          .addConditionalEdge .origin ⟨1⟩ 4 ⟨⟨2⟩, true⟩,
          .addConditionalEdge ⟨1⟩ .origin (-8) ⟨⟨3⟩, true⟩, .pushCheckpoint,
          .assign ⟨⟨1⟩, true⟩, .restoreLast, .pushCheckpoint, .assign ⟨⟨2⟩, true⟩,
          .assign ⟨⟨3⟩, true⟩] = .ok t ∧
      t.conflict.isSome = true ∧
      t.assignments.toList = [⟨⟨2⟩, true⟩, ⟨⟨0⟩, true⟩, ⟨⟨3⟩, true⟩] ∧
      t.implications.toList = [⟨⟨⟨0⟩, true⟩, ⟨[⟨⟨2⟩, true⟩]⟩⟩] ∧
      (∀ l, t.value l = some true ↔ l ∈ t.assignments.toList) ∧
      (t.assignments.toList.map Literal.var).Nodup ∧
      (t.implications.toList.map Implication.literal).Sublist t.assignments.toList ∧
      ∀ i ∈ t.implications.toList, ∀ m ∈ i.explanation.literals,
        Precedes t.assignments.toList m i.literal := by
  have hrun : ((initial ⟨.off, true⟩).performAll
      [.newTimepoint ⟨0, 10⟩, .newBoundLiteral (.leq ⟨1⟩ 5), .newVariable, .newVariable,
        .newVariable, .addConditionalEdge .origin ⟨1⟩ 3 ⟨⟨1⟩, true⟩,
        .addConditionalEdge .origin ⟨1⟩ 4 ⟨⟨2⟩, true⟩,
        .addConditionalEdge ⟨1⟩ .origin (-8) ⟨⟨3⟩, true⟩, .pushCheckpoint,
        .assign ⟨⟨1⟩, true⟩, .restoreLast, .pushCheckpoint, .assign ⟨⟨2⟩, true⟩,
        .assign ⟨⟨3⟩, true⟩]).answers (fun t => decide (t.conflict.isSome = true ∧
          t.assignments.toList = [⟨⟨2⟩, true⟩, ⟨⟨0⟩, true⟩, ⟨⟨3⟩, true⟩] ∧
          t.implications.toList = [⟨⟨⟨0⟩, true⟩, ⟨[⟨⟨2⟩, true⟩]⟩⟩])) = true := by
    decide +kernel
  obtain ⟨t, ht, hstate⟩ := Checked.exists_of_answers hrun
  obtain ⟨hconflict, hassigned, himplied⟩ := of_decide_eq_true hstate
  exact ⟨t, ht, hconflict, hassigned, himplied, antecedents_precede ht⟩

end Theory

end TemporalNetwork
