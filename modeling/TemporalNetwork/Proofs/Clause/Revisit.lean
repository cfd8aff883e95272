/-
What a revisit finds is what reading every literal would find.

A clause is `Listed` if it stands on the lists of the negations of its
watches and on no others. A revisit takes such a clause, off the list of
`p`, back to such a clause in another order: where `!p` gives its place
away the list changes with it.

The verdict looks at the other watch and at the first literal that could
replace `!p`. What it claims is true of the clause in any case. It is all
that `Clause.status` would claim if the other watch is not false: then a
clause with no replacement has one literal left, and a clause with a
replacement has two. If the other watch is false a replacement hides that
the clause is unit.
-/
import TemporalNetwork.Proofs.Clause.Index

namespace TemporalNetwork

-- ================================================================== status

namespace Clause

variable {c : Clause} {v : Valuation} {l : Literal}

/-- A clause is unit on a literal exactly when that one is open and all others
are false. -/
theorem status_eq_unit_iff (hnodup : c.literals.Nodup) : c.status v = .unit l ↔
    l ∈ c.literals ∧ v l = none ∧ ∀ m ∈ c.literals, m ≠ l → v m = some false := by
  refine ⟨status_eq_unit, fun ⟨hl, hnone, hfalse⟩ => ?_⟩
  have hany : ¬ c.literals.any (v · == some true) = true := by
    intro hany
    obtain ⟨m, hm, htrue⟩ := List.any_eq_true.mp hany
    by_cases heq : m = l
    · simp [heq, hnone] at htrue
    · simp [hfalse m hm heq] at htrue
  have hopen : c.literals.filter (v · == none) = [l] := by
    have hperm : (c.literals.filter (v · == none)).Perm [l] := by
      refine (List.perm_ext_iff_of_nodup (hnodup.filter _) (List.nodup_singleton l)).mpr
        fun m => ?_
      rw [List.mem_filter, List.mem_singleton, beq_iff_eq]
      refine ⟨fun ⟨hm, hm'⟩ => ?_, fun heq => heq ▸ ⟨hl, hnone⟩⟩
      by_contra hne
      rw [hfalse m hm hne] at hm'
      cases hm'
    exact List.perm_singleton.mp hperm
  unfold status
  rw [if_neg hany, hopen]

end Clause

namespace ClauseDatabase

variable {db db' : ClauseDatabase} {id : ClauseId} {p q l : Literal} {v : Valuation}
  {ls : List Literal} {c : Clause} {status : ClauseStatus}

-- ================================================================== listed

/-- The clause is on the lists of the negations of its watches, and on no
other. -/
def Listed (db : ClauseDatabase) (id : ClauseId) : Prop :=
  ∀ q, id ∈ db.watchersOf q ↔ q.negate ∈ db.watchedBy id

/-- No list has the clause twice. -/
def ListedOnce (db : ClauseDatabase) (id : ClauseId) : Prop :=
  ∀ q, (db.watchersOf q).count id ≤ 1

/-- Selecting the watches of a clause that is on no list lists it. -/
theorem listed_of_watch (hnone : ∀ q, id ∉ db.watchersOf q)
    (h : db.watch id v = .ok (db', status)) : Listed db' id := by
  obtain ⟨c, -, -, -, hrelists⟩ := watch_eq_ok h
  intro q
  rw [hrelists.listed, hrelists.watchedBy_self]
  refine ⟨fun hmem => ?_, fun hmem => .inr ⟨rfl, ?_⟩⟩
  · obtain ⟨-, hq⟩ := hmem.resolve_left (hnone q)
    obtain ⟨w, hw, rfl⟩ := List.mem_map.mp hq
    rw [Literal.negate_negate]
    exact hw
  · exact List.mem_map.mpr ⟨q.negate, hmem, Literal.negate_negate q⟩

/-- What is left of the lists once those of `p` were taken. -/
theorem Listed.takeWatchers (h : Listed db id) (p q : Literal) :
    id ∈ (db.takeWatchers p).1.watchersOf q ↔
      q ≠ p ∧ q.negate ∈ (db.takeWatchers p).1.watchedBy id := by
  by_cases hq : q = p
  · subst hq
    rw [watchersOf_takeWatchers_self]
    simp
  · rw [watchersOf_takeWatchers hq, h q]
    exact (and_iff_right hq).symm

/-- Taking a list makes no clause listed twice. -/
theorem ListedOnce.takeWatchers (h : ListedOnce db id) (p : Literal) :
    ListedOnce (db.takeWatchers p).1 id := by
  intro q
  by_cases hq : q = p
  · subst hq
    rw [watchersOf_takeWatchers_self]
    simp
  · rw [watchersOf_takeWatchers hq]
    exact h q

/-- The place on the list of `p` is given up for one that the watches ask
for. -/
theorem Rewatches.listed (h : Rewatches db id p ls q db')
    (hlists : ∀ r, id ∈ db.watchersOf r ↔ r ≠ p ∧ r.negate ∈ db.watchedBy id) :
    Listed db' id := by
  intro r
  rw [h.relists.listed, h.relists.watchedBy_self, hlists, List.mem_singleton]
  constructor
  · rintro (⟨hr, hmem⟩ | ⟨-, rfl⟩)
    · refine h.stays _ hmem ?_
      rw [Literal.negate_negate]
      exact hr
    · exact h.under
  · intro hmem
    rcases h.watched _ hmem with hq | ⟨hmem', hr⟩
    · rw [Literal.negate_negate] at hq
      exact .inr ⟨rfl, hq⟩
    · rw [Literal.negate_negate] at hr
      exact .inl ⟨hr, hmem'⟩

/-- A clause that is watched anew is again listed once under each watch. -/
theorem Rewatches.listedOnce (h : Rewatches db id p ls q db')
    (hlists : ∀ r, id ∈ db.watchersOf r ↔ r ≠ p ∧ r.negate ∈ db.watchedBy id)
    (honce : ListedOnce db id) : ListedOnce db' id := by
  intro r
  rw [h.relists.watchers, List.count_append, List.count_replicate_self]
  by_cases hr : r = q
  · subst hr
    -- it is not on that list yet
    have hnone : id ∉ db.watchersOf r := by
      intro hmem
      obtain ⟨hne, hmem'⟩ := (hlists r).mp hmem
      exact h.fresh hne hmem'
    have hzero := List.count_eq_zero_of_not_mem hnone
    have hone : List.count r [r] = 1 := List.count_singleton_self
    omega
  · rw [List.count_eq_zero_of_not_mem fun hmem => hr (List.mem_singleton.mp hmem)]
    exact honce r

-- ================================================================= verdict

/-- Wherever the other watch was not false the verdict leaves out
nothing. -/
theorem Shows.unit_of_forall (hshows : Shows v ls q status)
    (hrewatches : Rewatches db id p ls q db') (hnodup : (db.literalsOf id).Nodup)
    (hfound : Found db id v status)
    (hother : ∀ w ∈ db.watchedBy id, w ≠ p.negate → v w ≠ some false)
    (hl : l ∈ db.literalsOf id) (hnone : v l = none)
    (hfalse : ∀ m ∈ db.literalsOf id, m ≠ l → v m = some false) : status = .unit l := by
  have hopen : ∀ m ∈ ls, v m ≠ some false → m = l := fun m hm hvalue =>
    by_contra fun hne => hvalue (hfalse m (hrewatches.perm.mem_iff.mp hm) hne)
  cases status with
  | satisfied =>
      obtain ⟨w, hw, htrue⟩ := hshows.exists_true rfl
      have hwl : w = l := hopen w (List.mem_of_mem_take hw) (by rw [htrue]; decide)
      rw [hwl, hnone] at htrue
      cases htrue
  | violated =>
      rw [hfound l hl] at hnone
      cases hnone
  | unit m =>
      obtain ⟨hm, hmnone, -⟩ := hfound
      by_cases heq : m = l
      · rw [heq]
      · rw [hfalse m hm heq] at hmnone
        cases hmnone
  | undetermined =>
      obtain ⟨htwo, hvalue⟩ := hshows.replaced rfl
      have hq : q.negate = l := hopen _ (List.mem_of_mem_take hrewatches.under) hvalue
      -- the watch besides the replacement is the old one, not false either
      obtain ⟨w, hw, hne⟩ : ∃ w ∈ ls.take 2, w ≠ q.negate := by
        have hdistinct : ls.Nodup := hrewatches.perm.nodup_iff.mpr hnodup
        match ls, htwo with
        | a :: b :: rest, _ =>
            have hab : a ≠ b := fun heq => by simp [heq] at hdistinct
            by_cases ha : a = q.negate
            · exact ⟨b, by simp, fun hb => hab (ha.trans hb.symm)⟩
            · exact ⟨a, by simp, ha⟩
      rcases hrewatches.watched w hw with heq | ⟨hold, hwp⟩
      · exact absurd (by rw [← heq, Literal.negate_negate]) hne
      · have hwp' : w ≠ p.negate := by
          rintro rfl
          exact hwp (Literal.negate_negate p)
        exact absurd ((hopen w (List.mem_of_mem_take hw) (hother w hold hwp')).trans hq.symm) hne

/-- Reading every literal finds no more. -/
theorem Shows.violated_of_forall (hshows : Shows v ls q status)
    (hrewatches : Rewatches db id p ls q db')
    (hfalse : ∀ m ∈ db.literalsOf id, v m = some false) : status = .violated := by
  have hfalse' : ∀ w ∈ ls.take 2, v w = some false := fun w hw =>
    hfalse w (hrewatches.perm.mem_iff.mp (List.mem_of_mem_take hw))
  by_contra hne
  obtain ⟨w, hw, hvalue⟩ := hshows.exists_not_false hne
  exact hvalue (hfalse' w hw)

/-- The watches of a clause that is neither unit nor violated. -/
theorem Shows.rests (hshows : Shows v ls q status) (hrewatches : Rewatches db id p ls q db')
    (hother : ∀ w ∈ db.watchedBy id, w ≠ p.negate → v w ≠ some false)
    (hunit : ∀ l, status ≠ .unit l) (hviolated : status ≠ .violated) :
    (∀ w ∈ ls.take 2, v w ≠ some false) ∨ ∃ w ∈ ls.take 2, v w = some true := by
  cases status with
  | satisfied => exact .inr (hshows.exists_true rfl)
  | unit l => exact absurd rfl (hunit l)
  | violated => exact absurd rfl hviolated
  | undetermined =>
      refine .inl fun w hw => ?_
      rcases hrewatches.watched w hw with hq | ⟨hold, hwp⟩
      · have hw' : w = q.negate := by rw [← hq, Literal.negate_negate]
        rw [hw']
        exact (hshows.replaced rfl).2
      · apply hother w hold
        rintro rfl
        exact hwp (Literal.negate_negate p)

/-- What a status says of the literals of a clause holds. -/
structure Truthful (literals : List Literal) (v : Valuation) (status : ClauseStatus) : Prop where
  satisfied : status = .satisfied → ∃ l ∈ literals, v l = some true
  unit (l : Literal) : status = .unit l → l ∈ literals ∧ v l = none ∧
    ∀ m ∈ literals, m ≠ l → v m = some false
  violated : status = .violated → ∀ l ∈ literals, v l = some false

/-- What a visit shows is true of the clause. -/
theorem Shows.truthful (hshows : Shows v ls q status) (hrewatches : Rewatches db id p ls q db')
    (hfound : Found db id v status) : Truthful (db.literalsOf id) v status := by
  refine ⟨fun heq => ?_, fun l heq => ?_, fun heq => ?_⟩
  · obtain ⟨w, hw, htrue⟩ := hshows.exists_true heq
    exact ⟨w, hrewatches.perm.mem_iff.mp (List.mem_of_mem_take hw), htrue⟩
  · subst heq
    exact hfound
  · subst heq
    exact hfound

/-- The status is unit or violated just when reading all literals of the
clause says so, and if it is neither the watches need no look until one of
them is read as false. -/
structure Agrees (c : Clause) (db' : ClauseDatabase) (id : ClauseId) (v : Valuation)
    (status : ClauseStatus) : Prop where
  unit (l : Literal) : status = .unit l ↔ c.status v = .unit l
  violated : status = .violated ↔ c.status v = .violated
  rests : (∀ l, status ≠ .unit l) → status ≠ .violated →
    (∀ w ∈ db'.watchedBy id, v w ≠ some false) ∨ ∃ w ∈ db'.watchedBy id, v w = some true

/-- A clause that is listed where its watches ask for it but for the list
of `p` is revisited. -/
theorem revisit_of_taken (hid : db.Has id) (hnodup : (db.literalsOf id).Nodup)
    (hlists : ∀ q, id ∈ db.watchersOf q ↔ q ≠ p ∧ q.negate ∈ db.watchedBy id)
    (hwatched : p.negate ∈ db.watchedBy id) (hp : v p.negate = some false) :
    ∃ c db' status, db.clause id = .ok c ∧ db.revisit id p v = .ok (db', status) ∧
      Listed db' id ∧ (ListedOnce db id → ListedOnce db' id) ∧
      (db'.literalsOf id).Perm (db.literalsOf id) ∧ Truthful (db.literalsOf id) v status ∧
      ((∀ w ∈ db.watchedBy id, w ≠ p.negate → v w ≠ some false) →
        Agrees c db' id v status) := by
  obtain ⟨c, hc⟩ := exists_clause hid
  have hliterals : c.literals = db.literalsOf id := (clause_eq_ok hc).2
  obtain ⟨⟨db', status⟩, hrun⟩ := exists_revisit hid hwatched v
  obtain ⟨-, hfound, ls, q, hrewatches, hshows⟩ := revisit_eq_ok (fun _ => hnodup) hp hrun
  refine ⟨c, db', status, hc, hrun, hrewatches.listed hlists, hrewatches.listedOnce hlists,
    (hrewatches.relists.reorders hrewatches.perm).perm id, hshows.truthful hrewatches hfound,
    fun hother => ⟨fun l => ?_, ?_, fun hunit hviolated => ?_⟩⟩
  · rw [Clause.status_eq_unit_iff (hliterals ▸ hnodup), hliterals]
    constructor
    · rintro rfl
      exact hfound
    · rintro ⟨hl, hnone, hfalse⟩
      exact hshows.unit_of_forall hrewatches hnodup hfound hother hl hnone hfalse
  · rw [Clause.status_eq_violated, hliterals]
    constructor
    · rintro rfl
      exact hfound
    · exact hshows.violated_of_forall hrewatches
  · rw [hrewatches.relists.watchedBy_self]
    exact hshows.rests hrewatches hother hunit hviolated

/-- A clause that is listed where its watches ask for it, taken off the
list of `p` and revisited now that `!p` is false, is listed so again with
its literals in some order, and gets a verdict that is true. The verdict
is that of all literals if the other watch, if there is one, was not
false. -/
theorem revisit_of_listed (hid : db.Has id) (hnodup : (db.literalsOf id).Nodup)
    (hlisted : Listed db id) (hwatched : p.negate ∈ db.watchedBy id)
    (hp : v p.negate = some false) :
    ∃ c db' status, db.clause id = .ok c ∧
      (db.takeWatchers p).1.revisit id p v = .ok (db', status) ∧
      Listed db' id ∧ (ListedOnce db id → ListedOnce db' id) ∧
      (db'.literalsOf id).Perm (db.literalsOf id) ∧ Truthful (db.literalsOf id) v status ∧
      ((∀ w ∈ db.watchedBy id, w ≠ p.negate → v w ≠ some false) →
        Agrees c db' id v status) := by
  -- taking the lists leaves the clause as it is
  have hid' : (db.takeWatchers p).1.Has id := hid
  obtain ⟨c, db', status, hc, hrun, hlisted', honce, hrest⟩ :=
    revisit_of_taken hid' hnodup (hlisted.takeWatchers p) hwatched hp
  exact ⟨c, db', status, hc, hrun, hlisted', fun h => honce (h.takeWatchers p), hrest⟩

/-- Of three literals the second watch is read as false, and the third one
takes its place. -/
theorem revisit_of_listed_three :
    ∃ db db' status, Listed db ⟨0⟩ ∧ db.watchedBy ⟨0⟩ = [⟨⟨0⟩, true⟩, ⟨⟨1⟩, true⟩] ∧
      (db.takeWatchers ⟨⟨1⟩, false⟩).1.revisit ⟨0⟩ ⟨⟨1⟩, false⟩
        (fun l => if l.var = ⟨1⟩ then some (!l.positive) else none) = .ok (db', status) ∧
      Listed db' ⟨0⟩ ∧ db'.watchedBy ⟨0⟩ = [⟨⟨0⟩, true⟩, ⟨⟨2⟩, true⟩] ∧
      status = .undetermined := by
  let c : Clause := ⟨[⟨⟨0⟩, true⟩, ⟨⟨1⟩, true⟩, ⟨⟨2⟩, true⟩], false⟩
  let v : Valuation := fun l => if l.var = ⟨1⟩ then some (!l.positive) else none
  have hrun : ((empty.add c).1.watch ⟨0⟩ (fun _ => none)).answers (fun s =>
      decide (s.1.Has ⟨0⟩ ∧ s.1.literalsOf ⟨0⟩ = c.literals) &&
        ((s.1.takeWatchers ⟨⟨1⟩, false⟩).1.revisit ⟨0⟩ ⟨⟨1⟩, false⟩ v).answers fun a =>
          decide (a.1.watchedBy ⟨0⟩ = [⟨⟨0⟩, true⟩, ⟨⟨2⟩, true⟩] ∧ a.2 = .undetermined))
      = true := by decide +kernel
  obtain ⟨⟨db, status₀⟩, hwatch, htest⟩ := Checked.exists_of_answers hrun
  obtain ⟨hdb, hrevisit⟩ := Bool.and_eq_true_iff.mp htest
  obtain ⟨hid, hliterals⟩ := of_decide_eq_true hdb
  obtain ⟨⟨db', status⟩, ha, hanswer⟩ := Checked.exists_of_answers hrevisit
  obtain ⟨hwatched', hstatus⟩ := of_decide_eq_true hanswer
  have hwatched : db.watchedBy ⟨0⟩ = [⟨⟨0⟩, true⟩, ⟨⟨1⟩, true⟩] := by
    unfold watchedBy
    rw [hliterals]
    rfl
  have hlisted : Listed db ⟨0⟩ := listed_of_watch (fun q => List.not_mem_nil) hwatch
  obtain ⟨-, db'', status', -, ha', hlisted', -⟩ := revisit_of_listed (p := ⟨⟨1⟩, false⟩) (v := v)
    hid (by rw [hliterals]; decide) hlisted (by rw [hwatched]; decide) (by decide)
  cases ha.symm.trans ha'
  exact ⟨db, db', status, hlisted, hwatched, ha, hlisted', hwatched', hstatus⟩

end ClauseDatabase

end TemporalNetwork
