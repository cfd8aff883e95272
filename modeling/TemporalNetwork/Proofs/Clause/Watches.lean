/-
What it takes for no violated clause to go unnoticed.

A clause is alert if one of the literals that it watches has not been
read as false. It is revisited when that literal is, so that a clause of
false literals is noticed at the latest when the last of its two watches
is read. `Ready` says this of all clauses but those whose watches are
still to be selected. It says nothing of the other watch, which may well
be false: a clause can become unit unnoticed when decisions are closed.
It cannot become violated.

# Reading

While the clauses that watch the negation of `p` are revisited some of
them are not alert. They were so before `p` was read, and that is what is
left if the rest of them is given back: `Reading` keeps both facts.
-/
import TemporalNetwork.Proofs.Clause.Database

namespace TemporalNetwork

-- ================================================================== status

namespace Clause

variable {c : Clause} {v : Valuation} {l : Literal}

/-- Sorting by value permutes the literals. -/
theorem perm_sortByValue (c : Clause) (v : Valuation) :
    (c.sortByValue v).literals.Perm c.literals := by
  obtain ⟨ls, learnt⟩ := c
  unfold sortByValue
  simp only
  induction ls with
  | nil => exact .refl _
  | cons l ls ih =>
      cases h : v l with
      | none =>
          simp only [List.filter_cons, h, reduceCtorEq, beq_iff_eq, if_false, if_true]
          rw [List.append_assoc, List.cons_append]
          refine List.perm_middle.trans (List.Perm.cons _ ?_)
          rw [← List.append_assoc]
          exact ih
      | some b =>
          cases b with
          | true => simpa only [List.filter_cons, h, reduceCtorEq, beq_iff_eq, if_false, if_true,
              List.cons_append, Option.some.injEq, List.perm_cons] using ih
          | false =>
              simp only [List.filter_cons, h, reduceCtorEq, beq_iff_eq, if_false, if_true,
                Option.some.injEq]
              exact List.perm_middle.trans (List.Perm.cons _ ih)

/-- Literals that are not false come first. -/
theorem exists_watched_sortByValue (h : ∃ m ∈ c.literals, v m ≠ some false) :
    ∃ w ∈ (c.sortByValue v).watched, v w ≠ some false := by
  obtain ⟨m, hm, hvalue⟩ := h
  have hhead : ∃ w rest, (c.sortByValue v).literals = w :: rest ∧ v w ≠ some false := by
    unfold sortByValue
    simp only
    cases htrue : c.literals.filter (v · == some true) with
    | cons w rest =>
        have hw : w ∈ c.literals.filter (v · == some true) := htrue ▸ List.mem_cons_self
        have hw' : v w = some true := by simpa using (List.mem_filter.mp hw).2
        exact ⟨w, _, rfl, by simp [hw']⟩
    | nil =>
        cases hnone : c.literals.filter (v · == none) with
        | cons w rest =>
            have hw : w ∈ c.literals.filter (v · == none) := hnone ▸ List.mem_cons_self
            have hw' : v w = none := by simpa using (List.mem_filter.mp hw).2
            exact ⟨w, _, rfl, by simp [hw']⟩
        | nil =>
            rw [List.filter_eq_nil_iff] at htrue hnone
            have h₁ := htrue m hm
            have h₂ := hnone m hm
            cases hm' : v m with
            | none => simp [hm'] at h₂
            | some b => cases b <;> simp_all
  obtain ⟨w, rest, heq, hw⟩ := hhead
  refine ⟨w, ?_, hw⟩
  unfold watched
  rw [heq]
  exact List.mem_cons_self

/-- A clause is violated exactly when all its literals are false. -/
theorem status_eq_violated : c.status v = .violated ↔ ∀ m ∈ c.literals, v m = some false := by
  unfold status
  constructor
  · intro h m hm
    split at h
    next => cases h
    next hany =>
      split at h
      next hnone =>
        rw [List.filter_eq_nil_iff] at hnone
        have h₁ : v m ≠ some true := fun ht => hany (List.any_eq_true.mpr ⟨m, hm, by simp [ht]⟩)
        have h₂ : v m ≠ none := fun ht => hnone m hm (by simp [ht])
        cases hm' : v m with
        | none => exact absurd hm' h₂
        | some b => cases b <;> simp_all
      next => cases h
      next => cases h
  · intro h
    have hany : ¬ c.literals.any (v · == some true) = true := by
      intro hany
      obtain ⟨m, hm, ht⟩ := List.any_eq_true.mp hany
      simp [h m hm] at ht
    have hnone : c.literals.filter (v · == none) = [] := by
      rw [List.filter_eq_nil_iff]
      intro m hm
      simp [h m hm]
    rw [if_neg hany, hnone]

/-- The literal of a unit clause is open, and all others are false. -/
theorem status_eq_unit (h : c.status v = .unit l) : l ∈ c.literals ∧ v l = none ∧
    ∀ m ∈ c.literals, m ≠ l → v m = some false := by
  unfold status at h
  split at h
  next => cases h
  next hany =>
    split at h
    next => cases h
    next l' hnone =>
      cases h
      have hl : l ∈ c.literals.filter (v · == none) := hnone ▸ List.mem_cons_self
      obtain ⟨hmem, hvalue⟩ := List.mem_filter.mp hl
      refine ⟨hmem, by simpa using hvalue, fun m hm hne => ?_⟩
      have h₁ : v m ≠ some true := fun ht => hany (List.any_eq_true.mpr ⟨m, hm, by simp [ht]⟩)
      have h₂ : v m ≠ none := by
        intro ht
        have : m ∈ c.literals.filter (v · == none) := List.mem_filter.mpr ⟨hm, by simp [ht]⟩
        rw [hnone, List.mem_singleton] at this
        exact hne this
      cases hm' : v m with
      | none => exact absurd hm' h₂
      | some b => cases b <;> simp_all
    next => cases h

end Clause

namespace ClauseDatabase

variable {db db' : ClauseDatabase} {id j : ClauseId} {l p : Literal} {v : Valuation}
  {U U' ids rest : List ClauseId} {R R' : List Literal} {status : ClauseStatus}

-- =================================================================== ready

/-- All clauses but those listed are watched, and one of the watched
literals is not among those whose negation was read. -/
structure Ready (db : ClauseDatabase) (U : List ClauseId) (R : List Literal) : Prop where
  listed (id : ClauseId) : db.Has id → id ∉ U → ∀ w ∈ db.watchedBy id,
    id ∈ db.watchersOf w.negate
  alert (id : ClauseId) : db.Has id → id ∉ U → ∃ w ∈ db.watchedBy id, w.negate ∉ R

/-- Fewer clauses to look after and more to come make no demands. -/
theorem Ready.mono (h : Ready db U R) (hU : U ⊆ U') (hR : R' ⊆ R) : Ready db U' R' where
  listed id hid hout := h.listed id hid fun hin => hout (hU hin)
  alert id hid hout := by
    obtain ⟨w, hw, hread⟩ := h.alert id hid fun hin => hout (hU hin)
    exact ⟨w, hw, fun hin => hread (hR hin)⟩

/-- If no watches are selected nothing is claimed. -/
theorem ready_of_forall_mem (h : ∀ id, db.Has id → id ∈ U) : Ready db U R :=
  ⟨fun id hid hout => absurd (h id hid) hout, fun id hid hout => absurd (h id hid) hout⟩

/-- A new clause is not filed yet. -/
theorem Ready.add (h : Ready db U R) (c : Clause) :
    Ready (db.add c).1 ((db.add c).2 :: U) R := by
  have hold : ∀ id, (db.add c).1.Has id → id ∉ (db.add c).2 :: U →
      db.Has id ∧ id ∉ U ∧ (db.add c).1.watchedBy id = db.watchedBy id := by
    intro id hid hout
    rw [List.mem_cons, not_or] at hout
    have hid' := (has_add.mp hid).resolve_left hout.1
    refine ⟨hid', hout.2, ?_⟩
    unfold watchedBy
    rw [literalsOf_add_of_has hid']
  constructor
  · intro id hid hout
    obtain ⟨hid', hout', heq⟩ := hold id hid hout
    rw [heq]
    exact h.listed id hid' hout'
  · intro id hid hout
    obtain ⟨hid', hout', heq⟩ := hold id hid hout
    rw [heq]
    exact h.alert id hid' hout'

/-- A clause that is taken off its lists is not filed any more. -/
theorem Ready.unwatch (h : Ready db (id :: U) R) (hrun : db.unwatch id = .ok db') :
    Ready db' (id :: U) R := by
  have hclauses := (unwatch_eq_ok hrun).1
  have hwatched : ∀ j, db'.watchedBy j = db.watchedBy j := by
    intro j
    unfold watchedBy literalsOf
    rw [hclauses]
  have hhas : ∀ j, db'.Has j ↔ db.Has j := by
    intro j
    unfold Has size
    rw [hclauses]
  constructor
  · intro j hj hout w hw
    rw [hwatched] at hw
    refine mem_watchersOf_unwatch hrun ?_ (h.listed j ((hhas j).mp hj) hout w hw)
    rintro rfl
    exact hout List.mem_cons_self
  · intro j hj hout
    rw [hwatched]
    exact h.alert j ((hhas j).mp hj) hout

/-- A clause whose watches change does not concern the others. -/
theorem Relists.of_ne {ls under : List Literal}
    (h : Relists db id ls under db') (hne : id ≠ j) : db'.watchedBy j = db.watchedBy j := by
  unfold watchedBy
  rw [h.literals, if_neg hne]

/-- The watches of the clause are now the first two of its list. -/
theorem Relists.watchedBy_self {ls under : List Literal}
    (h : Relists db id ls under db') : db'.watchedBy id = ls.take 2 := by
  unfold watchedBy
  rw [h.literals, if_pos rfl]

/-- Relisting loses no clause and adds none. -/
theorem Relists.has {ls under : List Literal}
    (h : Relists db id ls under db') : db'.Has j ↔ db.Has j := by
  unfold Has
  rw [h.size]

/-- Selecting the watches of a clause. It needs to be looked after only
if all of its literals are false. -/
theorem Ready.watch (h : Ready db (id :: U) R) (hR : ∀ w : Literal, w.negate ∈ R → v w = some false)
    (hrun : db.watch id v = .ok (db', status)) :
    Reorders db db' ∧ db.Has id ∧ Found db id v status ∧
      Ready db' (if status = .violated then id :: U else U) R := by
  obtain ⟨c, hid, hliterals, rfl, hrelists⟩ := watch_eq_ok hrun
  have hperm := c.perm_sortByValue v
  -- the other clauses are listed as they were
  have hother : Ready db' (id :: U) R := by
    constructor
    · intro j hj hout w hw
      have hne : id ≠ j := fun heq => hout (heq ▸ List.mem_cons_self)
      rw [hrelists.of_ne hne] at hw
      exact (hrelists.listed j _).mpr (.inl (h.listed j (hrelists.has.mp hj) hout w hw))
    · intro j hj hout
      have hne : id ≠ j := fun heq => hout (heq ▸ List.mem_cons_self)
      rw [hrelists.of_ne hne]
      exact h.alert j (hrelists.has.mp hj) hout
  refine ⟨hrelists.reorders (hliterals ▸ hperm), hid, ?_, ?_⟩
  · -- the verdict is about the sorted literals, and so about the clause
    cases hstatus : (c.sortByValue v).status v with
    | satisfied => trivial
    | undetermined => trivial
    | violated =>
        intro m hm
        rw [← hliterals, ← hperm.mem_iff] at hm
        exact Clause.status_eq_violated.mp hstatus m hm
    | unit l =>
        obtain ⟨hl, hnone, hothers⟩ := Clause.status_eq_unit hstatus
        simp only [hperm.mem_iff, hliterals] at hl hothers
        exact ⟨hl, hnone, hothers⟩
  split
  next => exact hother
  next hne =>
    -- the clause is looked after from now on, by a literal that is not false
    have hcons : ∀ j, id ≠ j → j ∉ U → j ∉ id :: U := by
      intro j hj hout
      rw [List.mem_cons, not_or]
      exact ⟨fun hc => hj hc.symm, hout⟩
    constructor
    · intro j hj hout w hw
      by_cases heq : id = j
      · subst heq
        rw [hrelists.watchedBy_self] at hw
        exact (hrelists.listed id _).mpr (.inr ⟨rfl, List.mem_map.mpr ⟨w, hw, rfl⟩⟩)
      · exact hother.listed j hj (hcons j heq hout) w hw
    · intro j hj hout
      by_cases heq : id = j
      · subst heq
        have hfalse : ∃ m ∈ c.literals, v m ≠ some false := by
          by_contra hall
          refine hne (Clause.status_eq_violated.mpr fun m hm => ?_)
          by_contra hm'
          exact hall ⟨m, hperm.mem_iff.mp hm, hm'⟩
        obtain ⟨w, hw, hvalue⟩ := Clause.exists_watched_sortByValue hfalse
        rw [hrelists.watchedBy_self]
        exact ⟨w, hw, fun hin => hvalue (hR w hin)⟩
      · exact hother.alert j hj (hcons j heq hout)

-- ================================================================= reading

/-- The literal `p` was read, and of the clauses that watched its
negation those in the hand are still to be revisited. -/
structure Reading (db : ClauseDatabase) (U : List ClauseId) (p : Literal) (hand : List ClauseId)
    (R : List Literal) : Prop where
  listed (id : ClauseId) : db.Has id → id ∉ U → ∀ w ∈ db.watchedBy id,
    id ∈ db.watchersOf w.negate ∨ w.negate = p ∧ id ∈ hand
  alert (id : ClauseId) : db.Has id → id ∉ U → id ∉ hand →
    ∃ w ∈ db.watchedBy id, w.negate ∉ R ++ [p]
  /-- As it was before `p` was read. -/
  before (id : ClauseId) : db.Has id → id ∉ U → ∃ w ∈ db.watchedBy id, w.negate ∉ R

/-- Taking the clauses that watch the negation of a literal. -/
theorem Ready.takeWatchers (h : Ready db U R) (p : Literal) :
    Reading (db.takeWatchers p).1 U p (db.watchersOf p) R := by
  refine ⟨fun id hid hout w hw => ?_, fun id hid hout hhand => ?_, h.alert⟩
  · have hlisted := h.listed id hid hout w hw
    by_cases hp : w.negate = p
    · exact .inr ⟨hp, hp ▸ hlisted⟩
    · rw [watchersOf_takeWatchers hp]
      exact .inl hlisted
  · obtain ⟨w, hw, hread⟩ := h.alert id hid hout
    refine ⟨w, hw, fun hin => ?_⟩
    rcases List.mem_append.mp hin with hin | hin
    · exact hread hin
    · rw [List.mem_singleton] at hin
      exact hhand (hin ▸ h.listed id hid hout w hw)

/-- All clauses were revisited. -/
theorem Reading.ready (h : Reading db U p [] R) : Ready db U (R ++ [p]) := by
  refine ⟨fun id hid hout w hw => ?_, fun id hid hout => h.alert id hid hout List.not_mem_nil⟩
  rcases h.listed id hid hout w hw with hlisted | ⟨-, hhand⟩
  · exact hlisted
  · exact absurd hhand List.not_mem_nil

/-- The clauses in the hand are given back. -/
theorem Reading.restoreWatchers (h : Reading db U p ids R) :
    Ready (db.restoreWatchers p ids) U R := by
  have hwatched : ∀ j, (db.restoreWatchers p ids).watchedBy j = db.watchedBy j := by
    intro j
    unfold watchedBy literalsOf
    rw [clauses_restoreWatchers]
  have hhas : ∀ j, (db.restoreWatchers p ids).Has j ↔ db.Has j := by
    intro j
    unfold Has size
    rw [clauses_restoreWatchers]
  constructor
  · intro id hid hout w hw
    rw [hwatched] at hw
    rw [mem_watchersOf_restoreWatchers]
    rcases h.listed id ((hhas id).mp hid) hout w hw with hlisted | ⟨hp, hhand⟩
    · exact .inl hlisted
    · exact .inr ⟨hp, hhand⟩
  · intro id hid hout
    rw [hwatched]
    exact h.before id ((hhas id).mp hid) hout

/-- Revisiting the first clause of the hand, where what was read as false
is false. -/
theorem Reading.revisit (h : Reading db U p (id :: rest) R)
    (hR : ∀ w : Literal, w.negate ∈ R ++ [p] → v w = some false)
    (hnodup : db.Has id → (db.literalsOf id).Nodup)
    (hrun : db.revisit id p v = .ok (db', status)) :
    Reorders db db' ∧ db.Has id ∧ Found db id v status ∧
      Reading db' (if status = .violated then id :: U else U) p rest R := by
  have hp : v p.negate = some false := by
    apply hR
    rw [Literal.negate_negate]
    exact List.mem_append_right R (List.mem_singleton.mpr rfl)
  obtain ⟨hid, hfound, ls, q, ⟨hrelists, hperm, hlisted⟩, halert, -⟩ :=
    revisit_eq_ok hnodup hp hrun
  refine ⟨hrelists.reorders hperm, hid, hfound, ?_⟩
  -- a clause need not be looked after only if it is violated
  have hsub : ∀ j, j ∉ (if status = .violated then id :: U else U) →
      j ∉ U ∧ (id = j → status ≠ .violated) := by
    intro j hout
    split at hout
    next =>
      rw [List.mem_cons, not_or] at hout
      exact ⟨hout.2, fun heq => absurd heq.symm hout.1⟩
    next hne => exact ⟨hout, fun _ => hne⟩
  -- any other clause has a watch that was not read, as what was read is false
  have hread : ∀ R', R' ⊆ R ++ [p] → status ≠ .violated →
      ∃ w ∈ db'.watchedBy id, w.negate ∉ R' := by
    intro R' hsubset hne
    obtain ⟨w, hw, hvalue⟩ := halert hne
    rw [hrelists.watchedBy_self]
    exact ⟨w, hw, fun hin => hvalue (hR w (hsubset hin))⟩
  refine ⟨fun j hj hout w hw => ?_, fun j hj hout hhand => ?_, fun j hj hout => ?_⟩
  · -- the clause itself is listed where it was put; all others are listed as before
    obtain ⟨hout', -⟩ := hsub j hout
    by_cases heq : id = j
    · subst heq
      rw [hrelists.watchedBy_self] at hw
      rcases hlisted w hw with hq | ⟨hw', hne⟩
      · exact .inl ((hrelists.listed id _).mpr (.inr ⟨rfl, List.mem_singleton.mpr hq⟩))
      · rcases h.listed id hid hout' w hw' with hmem | ⟨hp', -⟩
        · exact .inl ((hrelists.listed id _).mpr (.inl hmem))
        · exact absurd hp' hne
    · rw [hrelists.of_ne heq] at hw
      rcases h.listed j (hrelists.has.mp hj) hout' w hw with hmem | ⟨hp', hhand⟩
      · exact .inl ((hrelists.listed j _).mpr (.inl hmem))
      · refine .inr ⟨hp', (List.mem_cons.mp hhand).resolve_left fun hc => heq hc.symm⟩
  · obtain ⟨hout', hstatus⟩ := hsub j hout
    by_cases heq : id = j
    · subst heq
      exact hread _ (List.Subset.refl _) (hstatus rfl)
    · rw [hrelists.of_ne heq]
      apply h.alert j (hrelists.has.mp hj) hout'
      rw [List.mem_cons, not_or]
      exact ⟨fun hc => heq hc.symm, hhand⟩
  · obtain ⟨hout', hstatus⟩ := hsub j hout
    by_cases heq : id = j
    · subst heq
      exact hread R (List.subset_append_left R [p]) (hstatus rfl)
    · rw [hrelists.of_ne heq]
      exact h.before j (hrelists.has.mp hj) hout'

end ClauseDatabase

end TemporalNetwork
