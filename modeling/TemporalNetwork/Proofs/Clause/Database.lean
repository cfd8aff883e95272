/-
What the operations of a clause database do.

A clause is known by its literals, whose order is that of its watches
and means nothing otherwise, and by whether it was learnt. Hence what an
operation does to clauses is at most to reorder them: `Reorders`. The
lists of watches are described as lists, as a clause is revisited as often
as it is listed.
-/
import Mathlib.Data.List.Basic
import TemporalNetwork.Clause.Database

namespace TemporalNetwork

namespace ClauseDatabase

variable {db db' db'' : ClauseDatabase} {id j : ClauseId} {l m p : Literal} {ls : List Literal}
  {under : List Literal} {ids : List ClauseId} {c : Clause} {v : Valuation}

-- ================================================================= clauses

/-- There is such a clause. -/
def Has (db : ClauseDatabase) (id : ClauseId) : Prop := id.index < db.size

instance : Decidable (db.Has id) := inferInstanceAs (Decidable (_ < _))

/-- The literals of a clause, in their present order. -/
def literalsOf (db : ClauseDatabase) (id : ClauseId) : List Literal := (db.clauses.get id).literals

/-- The clause was derived during search. -/
def isLearnt (db : ClauseDatabase) (id : ClauseId) : Bool := (db.clauses.get id).learnt

/-- The literals that a clause watches. -/
def watchedBy (db : ClauseDatabase) (id : ClauseId) : List Literal := (db.literalsOf id).take 2

/-- Only a clause that is stored can be looked up. -/
theorem clause_eq_ok_get (h : db.clause id = .ok c) : db.Has id ∧ c = db.clauses.get id := by
  unfold clause HandleVector.read at h
  cases hget : db.clauses.get? id with
  | none =>
      rw [hget] at h
      cases h
  | some b =>
      rw [hget] at h
      cases h
      refine ⟨HandleVector.size_of_get? hget, ?_⟩
      unfold HandleVector.get
      rw [hget]
      rfl

/-- The literals that a lookup yields. -/
theorem clause_eq_ok (h : db.clause id = .ok c) : db.Has id ∧ c.literals = db.literalsOf id := by
  obtain ⟨hid, rfl⟩ := clause_eq_ok_get h
  exact ⟨hid, rfl⟩

/-- A lookup tells whether the clause was learnt. -/
theorem learnt_of_clause (h : db.clause id = .ok c) : c.learnt = db.isLearnt id := by
  obtain ⟨-, rfl⟩ := clause_eq_ok_get h
  rfl

/-- The same clauses, each with its literals in some order. -/
structure Reorders (db db' : ClauseDatabase) : Prop where
  size : db'.size = db.size
  perm (id : ClauseId) : (db'.literalsOf id).Perm (db.literalsOf id)
  learnt (id : ClauseId) : db'.isLearnt id = db.isLearnt id

theorem Reorders.refl (db : ClauseDatabase) : Reorders db db :=
  ⟨rfl, fun _ => .refl _, fun _ => rfl⟩

/-- Reorderings compose. -/
theorem Reorders.trans (h : Reorders db db') (h' : Reorders db' db'') : Reorders db db'' :=
  ⟨h'.size.trans h.size, fun id => (h'.perm id).trans (h.perm id),
    fun id => (h'.learnt id).trans (h.learnt id)⟩

/-- A reordering loses no clause and adds none. -/
theorem Reorders.has (h : Reorders db db') : db'.Has id ↔ db.Has id := by
  unfold Has
  rw [h.size]

/-- The literals of a clause stay the same as a set. -/
theorem Reorders.mem (h : Reorders db db') : l ∈ db'.literalsOf id ↔ l ∈ db.literalsOf id :=
  (h.perm id).mem_iff

/-- Clauses may have been added besides. -/
structure Keeps (db db' : ClauseDatabase) : Prop where
  has (id : ClauseId) : db.Has id → db'.Has id
  perm (id : ClauseId) : db.Has id → (db'.literalsOf id).Perm (db.literalsOf id)

/-- A reordering keeps all clauses. -/
theorem Reorders.keeps (h : Reorders db db') : Keeps db db' :=
  ⟨fun _ hid => h.has.mpr hid, fun id _ => h.perm id⟩

/-- What is kept twice is kept. -/
theorem Keeps.trans (h : Keeps db db') (h' : Keeps db' db'') : Keeps db db'' :=
  ⟨fun id hid => h'.has id (h.has id hid),
    fun id hid => (h'.perm id (h.has id hid)).trans (h.perm id hid)⟩

-- ============================================================ one operation

/-- Only the clause that is written to changes, and only if it is stored. -/
theorem literalsOf_setLiterals : (db.setLiterals id ls).literalsOf j
    = if id = j ∧ db.Has id then ls else db.literalsOf j := by
  have hindex : Handle.index id = Handle.index j ↔ id = j := Handle.index_inj
  unfold literalsOf setLiterals
  rw [HandleVector.get_modify]
  by_cases hid : id = j ∧ db.Has id
  · rw [if_pos hid, if_pos ⟨hindex.mpr hid.1, hid.2⟩]
  · rw [if_neg hid, if_neg fun hc => hid ⟨hindex.mp hc.1, hc.2⟩]

@[simp] theorem isLearnt_setLiterals : (db.setLiterals id ls).isLearnt j = db.isLearnt j := by
  unfold isLearnt setLiterals
  rw [HandleVector.get_modify]
  split
  next => rfl
  next => rfl

/-- Writing to a clause makes no room for another one. -/
theorem size_setLiterals : (db.setLiterals id ls).size = db.size :=
  HandleVector.size_modify _ _ _

@[simp] theorem watchersOf_setLiterals : (db.setLiterals id ls).watchersOf l = db.watchersOf l :=
  rfl

@[simp] theorem clauses_addWatcher : (db.addWatcher l id).clauses = db.clauses := rfl

/-- A watcher is appended to the list of its literal. -/
theorem watchersOf_addWatcher (db : ClauseDatabase) (l m : Literal) (id : ClauseId) :
    (db.addWatcher l id).watchersOf m
      = db.watchersOf m ++ List.replicate ([l].count m) id := by
  have hindex : Handle.index l = Handle.index m ↔ l = m := Handle.index_inj
  unfold watchersOf addWatcher
  simp only [HandleVector.get_update, hindex]
  by_cases heq : l = m
  · subst heq
    simp
  · rw [if_neg heq, List.count_eq_zero_of_not_mem (fun hm => heq (List.mem_singleton.mp hm).symm)]
    simp

/-- Listing a clause under the negations of some literals. -/
theorem watchersOf_foldl_addWatcher (ls : List Literal) (db : ClauseDatabase) (m : Literal)
    (id : ClauseId) : (ls.foldl (fun db l => db.addWatcher l.negate id) db).watchersOf m
      = db.watchersOf m ++ List.replicate ((ls.map Literal.negate).count m) id := by
  induction ls generalizing db with
  | nil => exact (List.append_nil _).symm
  | cons l ls ih =>
      rw [List.foldl_cons, ih, watchersOf_addWatcher, List.append_assoc,
        List.replicate_append_replicate, List.map_cons, ← List.count_append]
      rfl

/-- Registering watchers leaves the clauses alone. -/
@[simp] theorem clauses_foldl_addWatcher (ls : List Literal) (db : ClauseDatabase) :
    (ls.foldl (fun db l => db.addWatcher l.negate id) db).clauses = db.clauses := by
  induction ls generalizing db with
  | nil => rfl
  | cons l ls ih => rw [List.foldl_cons, ih, clauses_addWatcher]

/-- Watchers that are put back stand at the end of their list. -/
theorem watchersOf_restoreWatchers (ids : List ClauseId) (db : ClauseDatabase) :
    (db.restoreWatchers l ids).watchersOf m
      = if m = l then db.watchersOf m ++ ids else db.watchersOf m := by
  unfold restoreWatchers
  induction ids generalizing db with
  | nil => simp
  | cons i ids ih =>
      rw [List.foldl_cons, ih, watchersOf_addWatcher]
      by_cases heq : m = l
      · subst heq
        simp
      · rw [if_neg heq, if_neg heq,
          List.count_eq_zero_of_not_mem (fun hm => heq (List.mem_singleton.mp hm))]
        simp

/-- Who is watched for after watchers have been put back. -/
theorem mem_watchersOf_restoreWatchers :
    j ∈ (db.restoreWatchers l ids).watchersOf m ↔ j ∈ db.watchersOf m ∨ m = l ∧ j ∈ ids := by
  rw [watchersOf_restoreWatchers]
  split
  next heq => simp [heq]
  next hne => simp [hne]

@[simp] theorem clauses_restoreWatchers (ids : List ClauseId) (db : ClauseDatabase) :
    (db.restoreWatchers l ids).clauses = db.clauses := by
  unfold restoreWatchers
  induction ids generalizing db with
  | nil => rfl
  | cons i ids ih => rw [List.foldl_cons, ih, clauses_addWatcher]

/-- Nothing but the clauses counts for a reordering. -/
theorem reorders_of_clauses_eq (h : db'.clauses = db.clauses) : Reorders db db' := by
  refine ⟨?_, fun id => ?_, fun id => ?_⟩
  · unfold size
    rw [h]
  · unfold literalsOf
    rw [h]
  · unfold isLearnt
    rw [h]

theorem reorders_restoreWatchers (db : ClauseDatabase) (l : Literal) (ids : List ClauseId) :
    Reorders db (db.restoreWatchers l ids) :=
  reorders_of_clauses_eq (clauses_restoreWatchers ids db)

theorem reorders_takeWatchers (db : ClauseDatabase) (l : Literal) :
    Reorders db (db.takeWatchers l).1 := reorders_of_clauses_eq rfl

/-- The lists of the other literals are left. -/
theorem watchersOf_takeWatchers (h : m ≠ l) :
    (db.takeWatchers l).1.watchersOf m = db.watchersOf m := by
  unfold watchersOf takeWatchers
  simp only [HandleVector.get_set]
  rw [if_neg fun hc => h (Handle.index_inj.mp hc.1).symm]

/-- The list that is taken is left empty. -/
theorem watchersOf_takeWatchers_self : (db.takeWatchers l).1.watchersOf l = [] := by
  unfold watchersOf takeWatchers
  simp only [HandleVector.get_set, true_and]
  split
  next => rfl
  next hle =>
    unfold HandleVector.get
    rw [(HandleVector.get?_eq_none_iff _ _).mpr (Nat.not_lt.mp hle)]
    rfl

/-- Taking a clause off the lists of the negations of some literals. -/
theorem watchersOf_foldl_filter (ls : List Literal) (db : ClauseDatabase) :
    (ls.foldl (fun db l => { db with
        watchers := db.watchers.modify l.negate (·.filter (· ≠ id)) }) db).watchersOf m
      = if m ∈ ls.map Literal.negate then (db.watchersOf m).filter (· ≠ id)
        else db.watchersOf m := by
  induction ls generalizing db with
  | nil => rfl
  | cons l ls ih =>
      have hone : ({ db with watchers := db.watchers.modify l.negate (·.filter (· ≠ id)) } :
          ClauseDatabase).watchersOf m
          = if m = l.negate then (db.watchersOf m).filter (· ≠ id) else db.watchersOf m := by
        unfold watchersOf
        simp only [HandleVector.get_modify]
        by_cases heq : m = l.negate
        · subst heq
          rw [if_pos rfl]
          split
          next => simp
          next hle =>
            unfold HandleVector.get
            rw [(HandleVector.get?_eq_none_iff _ _).mpr (Nat.not_lt.mp fun hlt => hle ⟨rfl, hlt⟩)]
            rfl
        · rw [if_neg heq, if_neg fun hc => heq (Handle.index_inj.mp hc.1).symm]
      rw [List.foldl_cons, ih, hone, List.map_cons]
      simp only [List.mem_cons]
      by_cases heq : m = l.negate
      · simp [heq, List.filter_filter]
      · simp [heq]

/-- The clause is taken off the lists of its watches, and the others are
left. -/
theorem unwatch_eq_ok (h : db.unwatch id = .ok db') : db'.clauses = db.clauses ∧
    ∀ m, db'.watchersOf m = if m.negate ∈ db.watchedBy id then (db.watchersOf m).filter (· ≠ id)
      else db.watchersOf m := by
  have hclauses : ∀ (ls : List Literal) (db : ClauseDatabase), (ls.foldl (fun db l => { db with
      watchers := db.watchers.modify l.negate (·.filter (· ≠ id)) }) db).clauses = db.clauses := by
    intro ls
    induction ls with
    | nil => exact fun db => rfl
    | cons l ls ih => exact fun db => ih _
  unfold unwatch at h
  simp only [Checked.bind_eq_ok, Checked.pure_eq_ok] at h
  obtain ⟨c, hc, rfl⟩ := h
  refine ⟨hclauses c.watched db, fun m => ?_⟩
  have hmem : m ∈ c.watched.map Literal.negate ↔ m.negate ∈ db.watchedBy id := by
    unfold Clause.watched watchedBy
    rw [(clause_eq_ok hc).2]
    constructor
    · intro hm
      obtain ⟨l, hl, rfl⟩ := List.mem_map.mp hm
      rw [Literal.negate_negate]
      exact hl
    · exact fun hm => List.mem_map.mpr ⟨m.negate, hm, Literal.negate_negate m⟩
  rw [watchersOf_foldl_filter]
  simp only [hmem]

/-- Clauses that are not unwatched stay where they are listed. -/
theorem mem_watchersOf_unwatch (h : db.unwatch id = .ok db') (hj : j ≠ id)
    (hm : j ∈ db.watchersOf m) : j ∈ db'.watchersOf m := by
  rw [(unwatch_eq_ok h).2]
  split
  · exact List.mem_filter.mpr ⟨hm, decide_eq_true hj⟩
  · exact hm

/-- A clause was given another order, and listed under the literals. -/
structure Relists (db : ClauseDatabase) (id : ClauseId) (ls under : List Literal)
    (db' : ClauseDatabase) : Prop where
  size : db'.size = db.size
  literals (j : ClauseId) : db'.literalsOf j = if id = j then ls else db.literalsOf j
  learnt (j : ClauseId) : db'.isLearnt j = db.isLearnt j
  watchers (m : Literal) :
    db'.watchersOf m = db.watchersOf m ++ List.replicate (under.count m) id

/-- Relisting adds the clause to the lists of its new watches only. -/
theorem Relists.listed (h : Relists db id ls under db') (j : ClauseId) (m : Literal) :
    j ∈ db'.watchersOf m ↔ j ∈ db.watchersOf m ∨ j = id ∧ m ∈ under := by
  have hcount : under.count m ≠ 0 ↔ m ∈ under :=
    Nat.pos_iff_ne_zero.symm.trans List.count_pos_iff
  rw [h.watchers, List.mem_append, List.mem_replicate, hcount, and_comm (a := m ∈ under)]

/-- Relisting a permutation reorders the database. -/
theorem Relists.reorders (h : Relists db id ls under db')
    (hperm : ls.Perm (db.literalsOf id)) : Reorders db db' := by
  refine ⟨h.size, fun j => ?_, h.learnt⟩
  rw [h.literals]
  split
  next heq => exact heq ▸ hperm
  next => exact .refl _

/-- Only the clause that is written to changes. -/
theorem literalsOf_setLiterals_of_has (hid : db.Has id) :
    (db.setLiterals id ls).literalsOf j = if id = j then ls else db.literalsOf j := by
  rw [literalsOf_setLiterals]
  simp only [hid, and_true]

/-- After the literals were reordered, whether by writing them or not. -/
theorem relists_addWatcher (hsize : db'.size = db.size)
    (hliterals : ∀ j, db'.literalsOf j = if id = j then ls else db.literalsOf j)
    (hlearnt : ∀ j, db'.isLearnt j = db.isLearnt j)
    (hwatchers : db'.watchers = db.watchers) (l : Literal) :
    Relists db id ls [l] (db'.addWatcher l id) := by
  refine ⟨hsize, hliterals, hlearnt, fun m => ?_⟩
  rw [watchersOf_addWatcher]
  unfold watchersOf
  rw [hwatchers]

/-- Selecting the watches of a clause puts its literals in order. -/
theorem watch_eq_ok {status : ClauseStatus} (h : db.watch id v = .ok (db', status)) :
    ∃ c : Clause, db.Has id ∧ c.literals = db.literalsOf id ∧
      status = (c.sortByValue v).status v ∧
      Relists db id (c.sortByValue v).literals ((c.sortByValue v).watched.map Literal.negate)
        db' := by
  unfold watch at h
  simp only [Checked.bind_eq_ok, Checked.pure_eq_ok, Prod.mk.injEq] at h
  obtain ⟨c, hc, rfl, rfl⟩ := h
  obtain ⟨hid, hliterals⟩ := clause_eq_ok hc
  refine ⟨c, hid, hliterals, rfl, ?_, fun j => ?_, fun j => ?_, fun m => ?_⟩
  · unfold size
    rw [clauses_foldl_addWatcher]
    exact size_setLiterals
  · have hset := @literalsOf_setLiterals_of_has db id j (c.sortByValue v).literals hid
    unfold literalsOf at hset ⊢
    rw [clauses_foldl_addWatcher]
    exact hset
  · have hset := @isLearnt_setLiterals db id j (c.sortByValue v).literals
    unfold isLearnt at hset ⊢
    rw [clauses_foldl_addWatcher]
    exact hset
  · rw [watchersOf_foldl_addWatcher, watchersOf_setLiterals]

-- ================================================================ revisits

/-- Nothing is found only where all literals are false. -/
theorem splitAtNonFalse_eq_none (h : splitAtNonFalse v ls = none) :
    ∀ m ∈ ls, v m = some false := by
  induction ls with
  | nil => exact fun m hm => absurd hm List.not_mem_nil
  | cons l ls ih =>
      unfold splitAtNonFalse at h
      split at h
      next => cases h
      next hl =>
        rw [Option.map_eq_none_iff] at h
        intro m hm
        rcases List.mem_cons.mp hm with rfl | hm
        · exact Decidable.not_not.mp hl
        · exact ih h m hm

/-- What is found is not false, and the list is put together again around it.
-/
theorem splitAtNonFalse_eq_some {before after : List Literal}
    (h : splitAtNonFalse v ls = some (before, m, after)) :
    ls = before ++ m :: after ∧ v m ≠ some false := by
  induction ls generalizing before with
  | nil => cases h
  | cons l ls ih =>
      unfold splitAtNonFalse at h
      split at h
      next hl =>
        cases h
        exact ⟨rfl, hl⟩
      next =>
        obtain ⟨⟨before', m', after'⟩, hsplit, heq⟩ := Option.map_eq_some_iff.mp h
        cases heq
        obtain ⟨rfl, hm⟩ := ih hsplit
        exact ⟨rfl, hm⟩

/-- What a status says of a clause. -/
def Found (db : ClauseDatabase) (id : ClauseId) (v : Valuation) : ClauseStatus → Prop
  | .unit l => l ∈ db.literalsOf id ∧ v l = none ∧
      ∀ m ∈ db.literalsOf id, m ≠ l → v m = some false
  | .violated => ∀ m ∈ db.literalsOf id, v m = some false
  | .satisfied | .undetermined => True

/-- A verdict does not depend on the order of the literals. -/
theorem Found.reorders {status : ClauseStatus} (h : db.Found id v status)
    (hdb : db.Reorders db') : db'.Found id v status := by
  cases status with
  | satisfied => trivial
  | undetermined => trivial
  | violated => exact fun m hm => h m (hdb.mem.mp hm)
  | unit l => exact ⟨hdb.mem.mpr h.1, h.2.1, fun m hm => h.2.2 m (hdb.mem.mp hm)⟩

/-- A clause that was taken off the list of `p` is in another order and
listed under `q`. Its other watch is still listed where it was. -/
structure Rewatches (db : ClauseDatabase) (id : ClauseId) (p : Literal) (ls : List Literal)
    (q : Literal) (db' : ClauseDatabase) : Prop where
  relists : Relists db id ls [q] db'
  perm : ls.Perm (db.literalsOf id)
  watched (w : Literal) : w ∈ ls.take 2 → w.negate = q ∨ w ∈ db.watchedBy id ∧ w.negate ≠ p
  stays (w : Literal) : w ∈ db.watchedBy id → w.negate ≠ p → w ∈ ls.take 2
  under : q.negate ∈ ls.take 2
  /-- It is not listed there already. -/
  fresh : q ≠ p → q.negate ∉ db.watchedBy id

/-- The first of two watches stays, and the clause is listed for the
second. -/
theorem rewatches_addWatcher {other m : Literal} {rest : List Literal}
    (hsize : db'.size = db.size)
    (hliterals : ∀ j, db'.literalsOf j
      = if id = j then other :: m :: rest else db.literalsOf j)
    (hlearnt : ∀ j, db'.isLearnt j = db.isLearnt j)
    (hwatchers : db'.watchers = db.watchers)
    (hperm : (other :: m :: rest).Perm (db.literalsOf id))
    (hother : other ∈ db.watchedBy id) (hne : other.negate ≠ p)
    (hothers : ∀ w ∈ db.watchedBy id, w = other ∨ w.negate = p)
    (hfresh : m.negate ≠ p → m ∉ db.watchedBy id) :
    Rewatches db id p (other :: m :: rest) m.negate (db'.addWatcher m.negate id) := by
  refine ⟨relists_addWatcher hsize hliterals hlearnt hwatchers m.negate, hperm, fun w hw => ?_,
    fun w hw hp => ?_, ?_, ?_⟩
  · simp only [List.take_succ_cons, List.take_zero, List.mem_cons, List.not_mem_nil, or_false] at hw
    rcases hw with rfl | rfl
    · exact .inr ⟨hother, hne⟩
    · exact .inl rfl
  · rw [(hothers w hw).resolve_right hp]
    exact List.mem_cons_self
  · rw [Literal.negate_negate]
    exact List.mem_cons_of_mem other List.mem_cons_self
  · rw [Literal.negate_negate]
    exact hfresh

section
variable {first second other mine : Literal} {rest : List Literal}

/-- The two watches change places where that is needed. -/
theorem swap_eq (h : (if first = p.negate then (second, first) else (first, second))
    = (other, mine)) : (other :: mine :: rest).Perm (first :: second :: rest) ∧
      ∀ w, w ∈ (first :: second :: rest).take 2 ↔ w = other ∨ w = mine := by
  split at h
  next =>
    cases h
    refine ⟨List.Perm.swap _ _ _, fun w => ?_⟩
    simp [or_comm]
  next =>
    cases h
    exact ⟨.refl _, fun w => by simp⟩

/-- All literals but one are false. -/
theorem value_of_perm (hperm : (other :: mine :: rest).Perm ls) (hmine : v mine = some false)
    (hrest : ∀ m ∈ rest, v m = some false) : ∀ m ∈ ls, m ≠ other → v m = some false := by
  intro m hm hne
  rcases List.mem_cons.mp (hperm.mem_iff.mpr hm) with rfl | hm
  · exact absurd rfl hne
  · rcases List.mem_cons.mp hm with rfl | hm
    · exact hmine
    · exact hrest m hm

end

/-- A literal takes the place of a watched one. -/
theorem perm_replace {other mine m : Literal} {before after : List Literal} :
    (other :: m :: (before ++ mine :: after)).Perm (other :: mine :: (before ++ m :: after)) := by
  apply List.Perm.cons _
  apply List.Perm.trans (List.Perm.cons _ List.perm_middle)
  exact List.Perm.trans (List.Perm.swap _ _ _) (List.Perm.cons _ List.perm_middle.symm)

/-- The only literal of a clause stays watched. -/
theorem rewatches_single (hone : db.literalsOf id = [p.negate]) :
    Rewatches db id p [p.negate] p (db.addWatcher p id) := by
  refine ⟨?_, ?_, fun w hw => ?_, fun w hw _ => ?_, List.mem_cons_self,
    fun hne => absurd rfl hne⟩
  · refine relists_addWatcher rfl (fun j => ?_) (fun _ => rfl) rfl p
    split
    next heq => rw [← heq, hone]
    next => rfl
  · rw [hone]
  · rw [List.mem_singleton.mp (List.mem_of_mem_take hw), Literal.negate_negate]
    exact .inl rfl
  · unfold watchedBy at hw
    rw [hone] at hw
    exact hw

section
variable {other m : Literal} {rest before after : List Literal}
  (hwatched : ∀ w, w ∈ db.watchedBy id ↔ w = other ∨ w = p.negate)
include hwatched

/-- A watch of the clause is the other one, or the one that has become false.
-/
theorem eq_or_negate_eq : ∀ w ∈ db.watchedBy id, w = other ∨ w.negate = p := by
  intro w hw
  refine ((hwatched w).mp hw).imp_right ?_
  rintro rfl
  exact Literal.negate_negate p

variable (hid : db.Has id) (hnodup : (db.literalsOf id).Nodup)
include hid hnodup

/-- The clause goes back to the list from which it was taken. -/
theorem rewatches_keep (hperm : (other :: p.negate :: rest).Perm (db.literalsOf id)) :
    Rewatches db id p (other :: p.negate :: rest) p
      ((db.setLiterals id (other :: p.negate :: rest)).addWatcher p id) := by
  have hne : other.negate ≠ p := by
    rintro rfl
    rw [Literal.negate_negate] at hperm
    have hsame := hperm.nodup_iff.mpr hnodup
    simp at hsame
  have hlist := rewatches_addWatcher size_setLiterals
    (fun j => literalsOf_setLiterals_of_has hid) (fun j => isLearnt_setLiterals) rfl hperm
    ((hwatched other).mpr (.inl rfl)) hne (eq_or_negate_eq hwatched)
    fun hp => absurd (Literal.negate_negate p) hp
  rw [Literal.negate_negate] at hlist
  exact hlist

/-- Another literal is watched, which comes after the two watches. -/
theorem rewatches_replace
    (hperm : (other :: p.negate :: (before ++ m :: after)).Perm (db.literalsOf id)) :
    Rewatches db id p (other :: m :: (before ++ p.negate :: after)) m.negate
      (((db.setLiterals id (other :: p.negate :: (before ++ m :: after))).setLiterals id
        (other :: m :: (before ++ p.negate :: after))).addWatcher m.negate id) := by
  have hdistinct := hperm.nodup_iff.mpr hnodup
  have hne : other.negate ≠ p := by
    rintro rfl
    rw [Literal.negate_negate] at hdistinct
    simp at hdistinct
  refine rewatches_addWatcher (size_setLiterals.trans size_setLiterals) (fun j => ?_)
    (fun j => isLearnt_setLiterals.trans isLearnt_setLiterals) rfl
    (perm_replace.trans hperm) ((hwatched other).mpr (.inl rfl)) hne (eq_or_negate_eq hwatched)
    fun _ hmem => ?_
  · have hid' : (db.setLiterals id (other :: p.negate :: (before ++ m :: after))).Has id := by
      unfold Has
      rw [size_setLiterals]
      exact hid
    rw [literalsOf_setLiterals_of_has hid', literalsOf_setLiterals_of_has hid]
    split <;> rfl
  · rcases (hwatched m).mp hmem with rfl | rfl
    · simp at hdistinct
    · simp at hdistinct

end

/-- What the watched literals show, when the clause is listed under `q`. -/
structure Shows (v : Valuation) (ls : List Literal) (q : Literal) (status : ClauseStatus) :
    Prop where
  exists_not_false : status ≠ .violated → ∃ w ∈ ls.take 2, v w ≠ some false
  exists_true : status = .satisfied → ∃ w ∈ ls.take 2, v w = some true
  replaced : status = .undetermined → 2 ≤ ls.length ∧ v q.negate ≠ some false

/-- Revisiting a clause leaves it with the literal that is not false, if
there is one, among those it watches. -/
theorem revisit_eq_ok {status : ClauseStatus}
    (hnodup : db.Has id → (db.literalsOf id).Nodup) (hp : v p.negate = some false)
    (h : db.revisit id p v = .ok (db', status)) :
    db.Has id ∧ Found db id v status ∧ ∃ ls q, Rewatches db id p ls q db' ∧
      Shows v ls q status := by
  unfold revisit at h
  rw [Checked.bind_eq_ok] at h
  obtain ⟨c, hc, h⟩ := h
  obtain ⟨hid, hliterals⟩ := clause_eq_ok hc
  have hnodup' := hnodup hid
  refine ⟨hid, ?_⟩
  split at h
  next => cases h
  -- a unit clause keeps its only watch
  next l hsingle =>
    simp only [Checked.bind_eq_ok, Checked.require_eq_ok, Checked.pure_eq_ok,
      Prod.mk.injEq] at h
    obtain ⟨-, rfl, rfl, rfl⟩ := h
    have hone : db.literalsOf id = [p.negate] := hliterals.symm.trans hsingle
    refine ⟨fun m hm => ?_, [p.negate], p, rewatches_single hone,
      fun hne => absurd rfl hne, fun hc => (by cases hc), fun hc => (by cases hc)⟩
    rw [hone, List.mem_singleton] at hm
    rw [hm]
    exact hp
  next first second rest hpair =>
    obtain ⟨other, mine, hswap⟩ : ∃ other mine,
      (if first = p.negate then (second, first) else (first, second)) = (other, mine) := ⟨_, _, rfl⟩
    have htwo : db.literalsOf id = first :: second :: rest := hliterals.symm.trans hpair
    obtain ⟨hperm, htake⟩ := @swap_eq _ _ _ _ _ rest hswap
    rw [← htwo] at hperm
    have hwatched : ∀ w, w ∈ db.watchedBy id ↔ w = other ∨ w = mine := by
      unfold watchedBy
      rw [htwo]
      exact htake
    simp only [hswap, Checked.bind_eq_ok, Checked.require_eq_ok] at h
    obtain ⟨-, rfl, h⟩ := h
    have hkept := rewatches_keep hwatched hid hnodup' hperm
    have hmem : other ∈ (other :: p.negate :: rest).take 2 := List.mem_cons_self
    split at h
    -- the other watch is true: nothing is moved
    next htrue =>
      cases h
      exact ⟨trivial, _, _, hkept, fun _ => ⟨other, hmem, by rw [htrue]; decide⟩,
        fun _ => ⟨other, hmem, htrue⟩, fun hc => (by cases hc)⟩
    next hnottrue =>
      split at h
      -- a literal that is not false takes the place of the one that became so
      next before replacement after hsplit =>
        cases h
        obtain ⟨rfl, hvalue⟩ := splitAtNonFalse_eq_some hsplit
        refine ⟨trivial, _, _, rewatches_replace hwatched hid hnodup' hperm,
          fun _ => ⟨replacement, by simp, hvalue⟩, fun hc => (by cases hc),
          fun _ => ⟨by simp, ?_⟩⟩
        rw [Literal.negate_negate]
        exact hvalue
      next hsplit =>
        cases h
        have hothers := value_of_perm hperm hp (splitAtNonFalse_eq_none hsplit)
        -- all others are false, so that the other watch decides
        cases hvalue : v other with
        | none =>
            exact ⟨⟨hperm.mem_iff.mp List.mem_cons_self, hvalue, hothers⟩, _, _, hkept,
              fun _ => ⟨other, hmem, by rw [hvalue]; decide⟩, fun hc => (by cases hc),
              fun hc => (by cases hc)⟩
        | some b =>
            have hfalse : v other = some false := by
              cases b with
              | true => exact absurd hvalue hnottrue
              | false => exact hvalue
            refine ⟨fun m hm => ?_, _, _, hkept, fun hc => absurd rfl hc, fun hc => (by cases hc),
              fun hc => (by cases hc)⟩
            by_cases hm' : m = other
            · rw [hm']
              exact hfalse
            · exact hothers m hm hm'

-- ============================================================ added clauses

/-- The clauses after an addition are the new one and those before. -/
theorem has_add : (db.add c).1.Has j ↔ j = (db.add c).2 ∨ db.Has j := by
  have hindex : j = db.clauses.nextKey ↔ j.index = db.clauses.size := by
    rw [← Handle.index_inj, HandleVector.index_nextKey]
    rfl
  unfold Has size add
  simp only [HandleVector.size_push, hindex]
  omega

/-- The new clause has the literals it was added with. -/
theorem literalsOf_add_self : (db.add c).1.literalsOf (db.add c).2 = c.literals := by
  unfold literalsOf add
  simp only [HandleVector.get_push, HandleVector.index_nextKey, if_true]

/-- Earlier clauses stay as they are. -/
theorem literalsOf_add_of_has (h : db.Has j) : (db.add c).1.literalsOf j = db.literalsOf j := by
  unfold literalsOf add
  simp only [HandleVector.get_push]
  rw [if_neg]
  exact Nat.ne_of_lt h

/-- The new clause remembers whether it was learnt. -/
theorem isLearnt_add_self : (db.add c).1.isLearnt (db.add c).2 = c.learnt := by
  unfold isLearnt add
  simp only [HandleVector.get_push, HandleVector.index_nextKey, if_true]

/-- Earlier clauses remain learnt or given. -/
theorem isLearnt_add_of_has (h : db.Has j) : (db.add c).1.isLearnt j = db.isLearnt j := by
  unfold isLearnt add
  simp only [HandleVector.get_push]
  rw [if_neg]
  exact Nat.ne_of_lt h

/-- An addition keeps all clauses. -/
theorem keeps_add (db : ClauseDatabase) (c : Clause) : Keeps db (db.add c).1 :=
  ⟨fun _ hj => has_add.mpr (.inr hj), fun j hj => by rw [literalsOf_add_of_has hj]⟩

end ClauseDatabase

end TemporalNetwork
