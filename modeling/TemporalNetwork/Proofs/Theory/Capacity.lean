/-
What is numbered fits its 32 bits, as long as there are fewer requests than
numbers.

Handles and levels are natural numbers here. They stand for numbers of 32
bits, of which the last one is not used, and a literal leaves 31 of the bits
for its variable. No request adds more than one variable, one timepoint and
two edges, or opens more than one level. So up to a length that no history
comes to, each number that a theory gives out is one of 32 bits, and means
the same when it is given back (`fits_of_performAll`).
-/
import TemporalNetwork.Proofs.Theory.Acts

namespace TemporalNetwork

/-- A handle of 32 bits, other than the last one, is read back. -/
theorem Handle.ofNumber_index {κ : Type} [Handle κ] {k : κ} (h : index k < 4294967295) :
    ofNumber (index k) = .ok k := by
  have hmod : index k % 4294967296 = index k := Nat.mod_eq_of_lt (by omega)
  unfold ofNumber
  rw [hmod, if_neg (Nat.ne_of_lt h), ofIndex_index]

namespace Theory

variable {t t' u : Theory} {ts : List Theory} {v p e l n : Nat} {c : Config} {rs : List Request}

-- =================================================================== sizes

/-- How many variables, timepoints, edges and levels there are at most. -/
structure Sized (v p e l : Nat) (t : Theory) : Prop where
  boolVars : t.numVariables ≤ v
  timepoints : t.network.numTimepoints ≤ p
  edges : t.network.numEdges ≤ e
  levels : t.level.depth ≤ l

/-- At first there is the origin and nothing else. -/
theorem sized_initial (c : Config) : Sized 0 1 0 0 (initial c) :=
  ⟨Nat.le_refl 0, Nat.le_refl 1, Nat.le_refl 0, Nat.le_refl 0⟩

theorem Sized.mono {v' p' e' l' : Nat} (h : Sized v p e l t) (hv : v ≤ v') (hp : p ≤ p')
    (he : e ≤ e') (hl : l ≤ l') : Sized v' p' e' l' t :=
  ⟨Nat.le_trans h.boolVars hv, Nat.le_trans h.timepoints hp, Nat.le_trans h.edges he,
    Nat.le_trans h.levels hl⟩

/-- One request more, that took no number. -/
theorem Sized.spare (h : Sized v p e l t) : Sized (v + 1) (p + 1) (e + 2) (l + 1) t :=
  h.mono (Nat.le_add_right v 1) (Nat.le_add_right p 1) (Nat.le_add_right e 2)
    (Nat.le_add_right l 1)

/-- Propagation numbers nothing. -/
theorem Sized.sameProblem (h : Sized v p e l t) (hsame : SameProblem t t') :
    Sized v p e l t' := by
  refine ⟨?_, hsame.network ▸ h.timepoints, hsame.network ▸ h.edges, ?_⟩
  · rw [numVariables, hsame.size]
    exact h.boolVars
  · show t'.log.marks.length ≤ l
    rw [hsame.logMarks]
    exact h.levels

-- =============================================================== additions

/-- A variable takes a number. -/
theorem Sized.newVariable (h : Sized v p e l t) : Sized (v + 1) p e l t.newVariable.1 := by
  refine ⟨?_, h.timepoints, h.edges, h.levels⟩
  show (t.values.push none).size ≤ v + 1
  rw [HandleVector.size_push]
  exact Nat.succ_le_succ h.boolVars

/-- An edge takes a number. -/
theorem Sized.record (h : Sized v p e l t) (edge : Edge) : Sized v p (e + 1) l (t.record edge) := by
  refine ⟨h.boolVars, ?_, ?_, h.levels⟩
  · rw [network_record, Network.numTimepoints_addEdge]
    exact h.timepoints
  · rw [network_record, Network.numEdges_addEdge]
    exact Nat.succ_le_succ h.edges

/-- What binds a literal to a fact numbers nothing. -/
theorem Sized.recordBound (h : Sized v p e l t) (x : Literal) (f : BoundFact) :
    Sized v p (e + 2) l (t.recordBound x f) := by
  obtain ⟨hboolVars, htimepoints, hedges, hlevels⟩ :=
    (h.record (f.edge x)).record (f.negation.edge x.negate)
  exact ⟨hboolVars, htimepoints, hedges, hlevels⟩

theorem Sized.commits {C : Set Literal} (h : Sized v p e l u) (hcommits : Commits t u C t') :
    Sized v p e l t' := h.sameProblem hcommits.settles.2

/-- A timepoint takes two edges for its domain. -/
theorem Sized.builds (h : Sized v p e l t) (hbuilds : Builds t t') :
    Sized v (p + 1) (e + 2) l t' := by
  have hspare : ∀ {t' : Theory}, Sized v p (e + 2) l t' → Sized v (p + 1) (e + 2) l t' :=
    fun hall => hall.mono (Nat.le_refl v) (Nat.le_add_right p 1) (Nat.le_refl _) (Nat.le_refl l)
  cases hbuilds with
  | bounded domain added result =>
      rw [result]
      refine ⟨h.boolVars, ?_, ?_, h.levels⟩
      · simp only [Network.addBounded, Network.numTimepoints_addEdge,
          Network.numTimepoints_addTimepoint]
        exact Nat.succ_le_succ h.timepoints
      · simp only [Network.addBounded, Network.numEdges_addEdge]
        exact Nat.add_le_add_right h.edges 2
  | edge commits =>
      exact hspare (((h.record _).commits commits).mono (Nat.le_refl v) (Nat.le_refl p)
        (Nat.le_succ _) (Nat.le_refl l))
  | equivalence hedge hnegated commits =>
      exact hspare (((h.record _).record _).commits commits)
  | bound commits => exact hspare ((h.recordBound _ _).commits commits)

/-- Whatever is added to the problem by one request. An optional edge is two
edges; only a bound literal comes with its variable. -/
theorem Sized.enlarges (h : Sized v p e l t) (henlarges : Enlarges t t') :
    Sized (v + 1) (p + 1) (e + 2) (l + 1) t' := by
  cases henlarges with
  | refused same =>
      rw [same]
      exact h.spare
  | built root builds =>
      exact (h.builds builds).mono (Nat.le_succ v) (Nat.le_refl _) (Nat.le_refl _) (Nat.le_succ l)
  | declared root builds =>
      exact (h.newVariable.builds builds).mono (Nat.le_refl _) (Nat.le_refl _) (Nat.le_refl _)
        (Nat.le_succ l)
  | optional root split₁ split₂ first second =>
      exact (((h.record _).commits first).record _ |>.commits second).mono (Nat.le_succ v)
        (Nat.le_succ p) (Nat.le_refl _) (Nat.le_succ l)

-- ================================================================== levels

/-- A level takes a number. -/
theorem Sized.saved (h : Sized v p e l t) : Sized v p e (l + 1) t.saved :=
  ⟨h.boolVars, h.timepoints, h.edges, Nat.succ_le_succ h.levels⟩

/-- Levels that are closed give their numbers back, and nothing else. -/
theorem Sized.restoreTimes (h : Sized v p e l t) (hts : Stack ts t)
    (hrun : t.restoreTimes n = .ok u) : Sized v p e l u := by
  obtain ⟨hnetwork, hsize⟩ := sameProblem_restoreTimes hts hrun
  refine ⟨?_, hnetwork ▸ h.timepoints, hnetwork ▸ h.edges, ?_⟩
  · rw [numVariables, hsize]
    exact h.boolVars
  · have hbefore : t.log.marks.length ≤ l := h.levels
    show u.log.marks.length ≤ l
    rw [((turns_restoreTimes hts hrun).stack hts).depth, List.length_drop]
    rw [hts.depth] at hbefore
    exact Nat.le_trans (Nat.sub_le _ _) hbefore

/-- Going back closes levels, or is refused. -/
theorem Sized.backtrack {level : DecisionLevel} {r : Except Misuse Unit} (h : Sized v p e l t)
    (hts : Stack ts t) (hrun : t.backtrack level = .ok (u, r)) : Sized v p e l u := by
  unfold Theory.backtrack at hrun
  split at hrun
  next =>
    cases hrun
    exact h
  next =>
    simp only [Checked.map_eq_ok, Prod.mk.injEq] at hrun
    obtain ⟨t₁, hrestore, rfl, -⟩ := hrun
    exact h.restoreTimes hts hrestore

/-- Of the levels that are closed one is opened again. -/
theorem Sized.popTo {level : DecisionLevel} {r : Except Misuse Unit} (h : Sized v p e l t)
    (hts : Stack ts t) (hrun : t.popTo level = .ok (u, r)) : Sized v p e (l + 1) u := by
  have hspare : ∀ {u : Theory}, Sized v p e l u → Sized v p e (l + 1) u :=
    fun hu => hu.mono (Nat.le_refl v) (Nat.le_refl p) (Nat.le_refl e) (Nat.le_succ l)
  unfold Theory.popTo at hrun
  split at hrun
  next => exact hspare (h.backtrack hts hrun)
  next parent hparent =>
    split at hrun
    next =>
      cases hrun
      exact hspare h
    next =>
      simp only [Checked.bind_eq_ok, Checked.pure_eq_ok, Prod.mk.injEq,
        pushCheckpoint_eq_ok] at hrun
      obtain ⟨t₁, hfirst, t₂, hsecond, t₃, ⟨-, rfl⟩, -, -, rfl, -⟩ := hrun
      have hbelow := (turns_restore hts hfirst).stack hts
      exact ((h.restoreTimes hts hfirst).restoreTimes hbelow hsecond).saved

-- ================================================================ requests

/-- A request takes one number of each kind at most, and two for edges. -/
theorem Sized.perform {r : Request} {reply : Reply} (h : Sized v p e l t) (hts : Stack ts t)
    (hrun : t.perform r = .ok (t', reply)) : Sized (v + 1) (p + 1) (e + 2) (l + 1) t' := by
  have ht := hts.settled
  have hopened : ∀ {u : Theory}, Sized v p e (l + 1) u →
      Sized (v + 1) (p + 1) (e + 2) (l + 1) u := fun hu =>
    hu.mono (Nat.le_succ v) (Nat.le_succ p) (Nat.le_add_right e 2) (Nat.le_refl _)
  -- the requests that declare something are alike
  have hsetup : r.isSetup = true → Sized (v + 1) (p + 1) (e + 2) (l + 1) t' := by
    intro hsets
    rcases enlarges_perform ht hsets hrun with rfl | henlarges
    · exact h.newVariable.mono (Nat.le_refl _) (Nat.le_succ p) (Nat.le_add_right e 2) (Nat.le_succ l)
    · exact h.enlarges henlarges
  cases r with
  | configure c =>
      cases hrun
      obtain ⟨hboolVars, htimepoints, hedges, hlevels⟩ := h.spare
      exact ⟨hboolVars, htimepoints, hedges, hlevels⟩
  | assign x =>
      obtain ⟨a, hassign, -⟩ := replying_eq_ok.mp hrun
      exact (h.sameProblem (extends_assign ht hassign).2.1).spare
  | propagate =>
      obtain ⟨t₁, hpropagate, heq⟩ := Checked.map_eq_ok.mp hrun
      cases heq
      obtain ⟨-, hadvances⟩ := settled_propagate ht.coherent ht.covered ht.fired hpropagate
      exact (h.sameProblem hadvances.steps.sameProblem).spare
  | pushCheckpoint =>
      obtain ⟨t₁, hpush, heq⟩ := Checked.map_eq_ok.mp hrun
      cases heq
      obtain ⟨-, rfl⟩ := pushCheckpoint_eq_ok.mp hpush
      exact hopened h.saved
  | backtrack level =>
      obtain ⟨a, hback, -⟩ := replying_eq_ok.mp hrun
      exact (h.backtrack hts hback).spare
  | popTo level =>
      obtain ⟨a, hpop, -⟩ := replying_eq_ok.mp hrun
      exact hopened (h.popTo hts hpop)
  | restoreLast =>
      obtain ⟨t₁, hlast, heq⟩ := Checked.map_eq_ok.mp hrun
      cases heq
      have honce : t.restoreTimes 1 = .ok t' := Checked.bind_eq_ok.mpr ⟨t', hlast, rfl⟩
      exact (h.restoreTimes hts honce).spare
  | reset =>
      obtain ⟨t₁, hreset, heq⟩ := Checked.map_eq_ok.mp hrun
      cases heq
      exact (h.restoreTimes hts hreset).spare
  | _ => exact hsetup rfl

/-- Numbers add up over a history. -/
theorem Sized.performAll (h : Sized v p e l t) (hts : Stack ts t)
    (hrun : t.performAll rs = .ok t') :
    Sized (v + rs.length) (p + rs.length) (e + 2 * rs.length) (l + rs.length) t' := by
  induction rs generalizing v p e l t ts with
  | nil =>
      cases hrun
      exact h
  | cons r rs ih =>
      unfold Theory.performAll at hrun
      rw [Checked.bind_eq_ok] at hrun
      obtain ⟨⟨t₁, reply⟩, hfirst, hrest⟩ := hrun
      obtain ⟨ts₁, hts₁⟩ := hts.perform hfirst
      refine (ih (h.perform hts hfirst) hts₁ hrest).mono ?_ ?_ ?_ ?_
      all_goals
        rw [List.length_cons]
        omega

-- ==================================================================== bits

/-- With fewer requests than there are codes for variables, all numbers that
were given out are read back as what they stand for: variables and literals,
timepoints, edges and the level. -/
theorem fits_of_performAll (h : (initial c).performAll rs = .ok t)
    (hrs : rs.length < 2147483648) :
    (∀ v positive, t.hasVariable v = true →
      Literal.ofVar v positive = ⟨v, positive⟩ ∧
        Literal.ofNumber (Literal.code ⟨v, positive⟩) = ⟨v, positive⟩) ∧
    (∀ tp : Timepoint, t.network.hasTimepoint tp = true → Handle.ofNumber tp.index = .ok tp) ∧
    (∀ id : EdgeId, t.network.hasEdge id = true → Handle.ofNumber id.index = .ok id) ∧
    DecisionLevel.ofNumber t.level.depth = .ok t.level := by
  have hstack : Stack [] (initial c) := .root (settled_initial c) (atRoot_initial c)
  obtain ⟨hboolVars, htimepoints, hedges, hlevels⟩ := (sized_initial c).performAll hstack h
  refine ⟨fun v positive hv => ?_, fun tp htp => ?_, fun id hid => ?_, ?_⟩
  · have hlt : v.index < t.values.size := (HandleVector.contains_iff _ _).mp hv
    have hindex : v.index < 2147483648 := by
      unfold numVariables at hboolVars
      omega
    have hcode : Literal.code ⟨v, positive⟩ < 4294967296 := by
      unfold Literal.code
      split <;> simp only <;> omega
    unfold Literal.ofVar Literal.ofNumber
    rw [Nat.mod_eq_of_lt hindex, Nat.mod_eq_of_lt hcode, Literal.ofCode_code]
    exact ⟨rfl, rfl⟩
  · have hlt := Network.hasTimepoint_iff.mp htp
    exact Handle.ofNumber_index (show tp.index < 4294967295 by omega)
  · have hlt := Network.hasEdge_iff.mp hid
    exact Handle.ofNumber_index (show id.index < 4294967295 by omega)
  · exact if_pos (by omega)

end Theory

end TemporalNetwork
