/-
A clause is listed where it is watched, and nowhere else.

`Ready` has it that a clause is listed under the negations of the
literals that it watches. The converse is what a revisit checks: the
clause must watch the negation of the literal on whose list it was found,
and it must not be found there twice, as it may have moved its watch in
between. `Indexed` says so of all lists, and that clauses of which the
watches are still to be selected are on none of them. Under this
invariant no operation of the database breaks off.

While the clauses that watch the negation of `p` are revisited those in
the hand are off the list of `p`: `Holding`, beside `Reading`.
-/
import Mathlib.Data.List.Nodup
import TemporalNetwork.Proofs.Clause.Watches

namespace TemporalNetwork

namespace ClauseDatabase

variable {db db' : ClauseDatabase} {id j : ClauseId} {l p q : Literal} {v : Valuation}
  {U U' ids rest : List ClauseId} {ls under : List Literal}

/-- A clause that is stored can be looked up. -/
theorem exists_clause (h : db.Has id) : ∃ c, db.clause id = .ok c := by
  unfold clause HandleVector.read
  rw [HandleVector.get?_eq_some_get h]
  exact ⟨_, rfl⟩

-- ================================================================= indexed

/-- The lists hold each clause under the negations of its watches only,
and once. The clauses in `U` are not listed. -/
structure Indexed (db : ClauseDatabase) (U : List ClauseId) : Prop where
  listed (q : Literal) (id : ClauseId) : id ∈ db.watchersOf q →
    db.Has id ∧ q.negate ∈ db.watchedBy id
  once (q : Literal) : (db.watchersOf q).Nodup
  unlisted (id : ClauseId) : id ∈ U → db.Has id ∧ ∀ q, id ∉ db.watchersOf q
  nodup : U.Nodup

/-- A clause is listed under literals where it was not listed and whose
negations it now watches. It watches still the negations of those under
which it is listed already. -/
theorem Indexed.relists (h : Indexed db U) (hrelists : Relists db id ls under db')
    (hid : db.Has id) (hU : U'.Sublist U) (hout : id ∉ U') (hunder : under.Nodup)
    (hnew : ∀ q ∈ under, q.negate ∈ ls.take 2 ∧ id ∉ db.watchersOf q)
    (hold : ∀ q, id ∈ db.watchersOf q → q.negate ∈ ls.take 2) : Indexed db' U' := by
  refine ⟨fun q j hj => ?_, fun q => ?_, fun j hj => ?_, hU.nodup h.nodup⟩
  · have hwatched : db'.watchedBy id = ls.take 2 := hrelists.watchedBy_self
    rcases (hrelists.listed j q).mp hj with hmem | ⟨rfl, hmem⟩
    · by_cases heq : id = j
      · subst heq
        rw [hwatched]
        exact ⟨hrelists.has.mpr hid, hold q hmem⟩
      · rw [hrelists.of_ne heq]
        exact ⟨hrelists.has.mpr (h.listed q j hmem).1, (h.listed q j hmem).2⟩
    · rw [hwatched]
      exact ⟨hrelists.has.mpr hid, (hnew q hmem).1⟩
  · rw [hrelists.watchers]
    by_cases hmem : q ∈ under
    · rw [List.count_eq_one_of_mem hunder hmem, List.replicate_one, ← List.concat_eq_append]
      exact (h.once q).concat (hnew q hmem).2
    · rw [List.count_eq_zero_of_not_mem hmem, List.replicate_zero, List.append_nil]
      exact h.once q
  · obtain ⟨hhas, hnone⟩ := h.unlisted j (hU.subset hj)
    refine ⟨hrelists.has.mpr hhas, fun q hmem => ?_⟩
    rcases (hrelists.listed j q).mp hmem with hmem | ⟨rfl, -⟩
    · exact hnone q hmem
    · exact hout hj

/-- A clause that is added is not listed. -/
theorem Indexed.add (h : Indexed db U) (c : Clause) :
    Indexed (db.add c).1 ((db.add c).2 :: U) := by
  have hlists : ∀ q, (db.add c).1.watchersOf q = db.watchersOf q := fun _ => rfl
  have hnew : ¬ db.Has (db.add c).2 := by
    unfold Has
    exact Nat.not_lt.mpr (Nat.le_of_eq (HandleVector.index_nextKey db.clauses).symm)
  refine ⟨fun q id hid => ?_, h.once, fun id hid => ?_, ?_⟩
  · obtain ⟨hhas, hmem⟩ := h.listed q id hid
    refine ⟨has_add.mpr (.inr hhas), ?_⟩
    unfold watchedBy
    rw [literalsOf_add_of_has hhas]
    exact hmem
  · rcases List.mem_cons.mp hid with rfl | hid
    · exact ⟨has_add.mpr (.inl rfl), fun q hmem => hnew (h.listed q _ hmem).1⟩
    · exact ⟨has_add.mpr (.inr (h.unlisted id hid).1), (h.unlisted id hid).2⟩
  · exact List.nodup_cons.mpr ⟨fun hid => hnew (h.unlisted _ hid).1, h.nodup⟩

/-- The watches of the next clause can be selected. -/
theorem Indexed.exists_watch (h : Indexed db (id :: U)) (hnodup : (db.literalsOf id).Nodup)
    (v : Valuation) : ∃ db' status, db.watch id v = .ok (db', status) ∧ Indexed db' U := by
  obtain ⟨hid, hnone⟩ := h.unlisted id List.mem_cons_self
  have hrun : ∃ a, db.watch id v = .ok a :=
    Checked.exists_bind (exists_clause hid) fun _ _ => ⟨_, rfl⟩
  obtain ⟨⟨db', status⟩, hrun⟩ := hrun
  obtain ⟨c, -, hliterals, -, hrelists⟩ := watch_eq_ok hrun
  refine ⟨db', status, hrun, h.relists hrelists hid (List.sublist_cons_self id U)
    (List.nodup_cons.mp h.nodup).1 ?_ (fun q hq => ⟨?_, hnone q⟩)
    fun q hq => absurd hq (hnone q)⟩
  · have hwatched : (c.sortByValue v).watched.Nodup := by
      apply List.Nodup.sublist (List.take_sublist 2 _)
      rw [(c.perm_sortByValue v).nodup_iff, hliterals]
      exact hnodup
    exact hwatched.map fun l m hlm => by rw [← Literal.negate_negate l, hlm, Literal.negate_negate]
  · obtain ⟨l, hl, rfl⟩ := List.mem_map.mp hq
    rw [Literal.negate_negate]
    exact hl

/-- A clause is taken off all lists. -/
theorem Indexed.exists_unwatch (h : Indexed db U) (hid : db.Has id) (hout : id ∉ U) :
    ∃ db', db.unwatch id = .ok db' ∧ Indexed db' (id :: U) := by
  have hrun : ∃ a, db.unwatch id = .ok a :=
    Checked.exists_bind (exists_clause hid) fun _ _ => ⟨_, rfl⟩
  obtain ⟨db', hrun⟩ := hrun
  obtain ⟨hclauses, hlists⟩ := unwatch_eq_ok hrun
  have hreorders := reorders_of_clauses_eq hclauses
  have hwatched : ∀ j, db'.watchedBy j = db.watchedBy j := by
    intro j
    unfold watchedBy literalsOf
    rw [hclauses]
  have hsub : ∀ q, (db'.watchersOf q).Sublist (db.watchersOf q) := by
    intro q
    rw [hlists]
    split
    · exact List.filter_sublist
    · exact List.Sublist.refl _
  refine ⟨db', hrun, fun q j hj => ?_, fun q => (hsub q).nodup (h.once q), fun j hj => ?_,
    List.nodup_cons.mpr ⟨hout, h.nodup⟩⟩
  · obtain ⟨hhas, hmem⟩ := h.listed q j ((hsub q).subset hj)
    rw [hwatched]
    exact ⟨hreorders.has.mpr hhas, hmem⟩
  · rcases List.mem_cons.mp hj with rfl | hj
    · refine ⟨hreorders.has.mpr hid, fun q hmem => ?_⟩
      have hwatches := (h.listed q j ((hsub q).subset hmem)).2
      rw [hlists, if_pos hwatches] at hmem
      exact of_decide_eq_true (List.mem_filter.mp hmem).2 rfl
    · obtain ⟨hhas, hnone⟩ := h.unlisted j hj
      exact ⟨hreorders.has.mpr hhas, fun q hmem => hnone q ((hsub q).subset hmem)⟩

/-- Nothing is listed when no watch is selected. -/
theorem indexed_unwatchAll (db : ClauseDatabase) : Indexed db.unwatchAll db.ids.reverse := by
  have hnone : ∀ q, db.unwatchAll.watchersOf q = [] := fun _ => rfl
  refine ⟨fun q id hid => ?_, fun q => ?_, fun id hid => ⟨?_, fun q hmem => ?_⟩, ?_⟩
  · rw [hnone] at hid
    exact absurd hid List.not_mem_nil
  · rw [hnone]
    exact List.nodup_nil
  · exact (HandleVector.mem_keys db.clauses id).mp (List.mem_reverse.mp hid)
  · rw [hnone] at hmem
    exact absurd hmem List.not_mem_nil
  · apply List.nodup_reverse.mpr
    apply List.nodup_range.map
    intro m n hmn
    exact ClauseId.mk.inj hmn

-- ================================================================= holding

/-- The clauses in the hand were taken off the list of `p`, and watch its
negation. -/
structure Holding (db : ClauseDatabase) (U : List ClauseId) (p : Literal)
    (hand : List ClauseId) : Prop where
  indexed : Indexed db U
  nodup : hand.Nodup
  held (id : ClauseId) : id ∈ hand → db.Has id ∧ id ∉ U ∧ p.negate ∈ db.watchedBy id ∧
    id ∉ db.watchersOf p

/-- The clauses on the list of `p` are taken into the hand. -/
theorem Indexed.takeWatchers (h : Indexed db U) (p : Literal) :
    Holding (db.takeWatchers p).1 U p (db.watchersOf p) := by
  have hsub : ∀ q, ((db.takeWatchers p).1.watchersOf q).Sublist (db.watchersOf q) := by
    intro q
    by_cases hq : q = p
    · subst hq
      rw [watchersOf_takeWatchers_self]
      exact List.nil_sublist _
    · rw [watchersOf_takeWatchers hq]
  refine ⟨⟨fun q id hid => h.listed q id ((hsub q).subset hid),
    fun q => (hsub q).nodup (h.once q), fun id hid => ⟨(h.unlisted id hid).1, fun q hmem =>
      (h.unlisted id hid).2 q ((hsub q).subset hmem)⟩, h.nodup⟩, h.once p, fun id hid => ?_⟩
  obtain ⟨hhas, hmem⟩ := h.listed p id hid
  refine ⟨hhas, fun hin => (h.unlisted id hin).2 p hid, hmem, ?_⟩
  rw [watchersOf_takeWatchers_self]
  exact List.not_mem_nil

/-- What is left of the hand is given back. -/
theorem Holding.restoreWatchers (h : Holding db U p ids) :
    Indexed (db.restoreWatchers p ids) U := by
  have hhas : ∀ j, (db.restoreWatchers p ids).Has j ↔ db.Has j :=
    fun j => (reorders_restoreWatchers db p ids).has
  have hwatched : ∀ j, (db.restoreWatchers p ids).watchedBy j = db.watchedBy j := by
    intro j
    unfold watchedBy literalsOf
    rw [clauses_restoreWatchers]
  refine ⟨fun q j hj => ?_, fun q => ?_, fun j hj => ⟨?_, fun q hmem => ?_⟩, h.indexed.nodup⟩
  · rw [hhas, hwatched]
    rcases mem_watchersOf_restoreWatchers.mp hj with hmem | ⟨rfl, hmem⟩
    · exact h.indexed.listed q j hmem
    · exact ⟨(h.held j hmem).1, (h.held j hmem).2.2.1⟩
  · rw [watchersOf_restoreWatchers]
    split
    next heq =>
      subst heq
      apply (h.indexed.once q).append h.nodup
      exact fun j hj hmem => (h.held j hmem).2.2.2 hj
    next => exact h.indexed.once q
  · exact (hhas j).mpr (h.indexed.unlisted j hj).1
  · rcases mem_watchersOf_restoreWatchers.mp hmem with hmem | ⟨-, hmem⟩
    · exact (h.indexed.unlisted j hj).2 q hmem
    · exact (h.held j hmem).2.1 hj

/-- A clause that watches the negation of a literal can be revisited. -/
theorem exists_revisit (hid : db.Has id) (hmem : p.negate ∈ db.watchedBy id) (v : Valuation) :
    ∃ a, db.revisit id p v = .ok a := by
  obtain ⟨c, hc⟩ := exists_clause hid
  unfold watchedBy at hmem
  rw [← (clause_eq_ok hc).2] at hmem
  refine Checked.exists_bind ⟨c, hc⟩ fun c' hc' => ?_
  obtain rfl : c = c' := by
    rw [hc] at hc'
    exact Except.ok.inj hc'
  match hliterals : c.literals with
  | [] =>
      rw [hliterals] at hmem
      exact absurd hmem List.not_mem_nil
  | [m] =>
      rw [hliterals] at hmem
      have hm : m = p.negate := (List.mem_singleton.mp hmem).symm
      exact Checked.exists_bind ⟨(), Checked.require_eq_ok.mpr hm⟩ fun _ _ => ⟨_, rfl⟩
  | first :: second :: rest =>
      rw [hliterals] at hmem
      have hmine :
          (if first = p.negate then (second, first) else (first, second)).2 = p.negate := by
        split
        next heq => exact heq
        next hne =>
          rcases List.mem_cons.mp hmem with heq | hmem
          · exact absurd heq.symm hne
          · exact (List.mem_singleton.mp hmem).symm
      refine Checked.exists_bind ⟨(), Checked.require_eq_ok.mpr hmine⟩ fun _ _ => ?_
      split
      · exact ⟨_, rfl⟩
      · split
        · exact ⟨_, rfl⟩
        · exact ⟨_, rfl⟩

/-- The first clause of the hand can be revisited, now that the negation
of `p` is false. -/
theorem Holding.exists_revisit (h : Holding db U p (id :: rest))
    (hnodup : (db.literalsOf id).Nodup) (hp : v p.negate = some false) :
    ∃ db' status, db.revisit id p v = .ok (db', status) ∧ Holding db' U p rest := by
  obtain ⟨hid, hout, hmem, hnone⟩ := h.held id List.mem_cons_self
  obtain ⟨⟨db', status⟩, hrun⟩ := ClauseDatabase.exists_revisit hid hmem v
  obtain ⟨-, -, ls, q, hrewatches, -⟩ := revisit_eq_ok (fun _ => hnodup) hp hrun
  have hrelists := hrewatches.relists
  have hrest := List.nodup_cons.mp h.nodup
  refine ⟨db', status, hrun, h.indexed.relists hrelists hid (List.Sublist.refl U) hout
    (List.nodup_singleton q) (fun q' hq' => ?_) (fun q' hq' => ?_), hrest.2, fun j hj => ?_⟩
  · rw [List.mem_singleton.mp hq']
    refine ⟨hrewatches.under, fun hlisted => ?_⟩
    by_cases hqp : q = p
    · exact hnone (hqp ▸ hlisted)
    · exact hrewatches.fresh hqp (h.indexed.listed q id hlisted).2
  · apply hrewatches.stays _ (h.indexed.listed q' id hq').2
    rw [Literal.negate_negate]
    rintro rfl
    exact hnone hq'
  · obtain ⟨hhas, hout', hwatched, hnone'⟩ := h.held j (List.mem_cons_of_mem id hj)
    have hne : id ≠ j := fun heq => hrest.1 (heq ▸ hj)
    refine ⟨hrelists.has.mpr hhas, hout', ?_, fun hlisted => ?_⟩
    · rw [hrelists.of_ne hne]
      exact hwatched
    · rcases (hrelists.listed j p).mp hlisted with hmem' | ⟨heq, -⟩
      · exact hnone' hmem'
      · exact hne heq.symm

end ClauseDatabase

end TemporalNetwork
