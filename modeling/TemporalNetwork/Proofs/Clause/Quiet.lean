/-
What it takes for no unit clause to go unnoticed.

A clause is at rest if one of the literals that it watches is true, or if
it watches two of which neither was read as false. A clause that is at
rest is not unit once everything was read, and it stays at rest while
literals are set and read: where a watched literal is read as false the
other one is true, or another literal is watched, or the clause is unit
and the other one is set.

Closing a decision ends this. The true literal of a clause may lose its
value while the other one, which was set below, stays false, and nobody
looks at the clause again before its last literal is set.
-/
import TemporalNetwork.Proofs.Clause.Watches

namespace TemporalNetwork

-- ================================================================== status

namespace Clause

variable {c : Clause} {v : Valuation} {l : Literal}

/-- In order of their values the literals that count come first. -/
theorem watched_sortByValue (c : Clause) (v : Valuation) :
    match (c.sortByValue v).status v with
    | .satisfied => ∃ w ∈ (c.sortByValue v).watched, v w = some true
    | .unit l => l ∈ (c.sortByValue v).watched
    | .undetermined => 2 ≤ (c.sortByValue v).watched.length ∧
        ∀ w ∈ (c.sortByValue v).watched, v w = none
    | .violated => True := by
  have htrues : ∀ w ∈ c.literals.filter (v · == some true), v w = some true :=
    fun w hw => beq_iff_eq.mp (List.mem_filter.mp hw).2
  have hnones : ∀ w ∈ c.literals.filter (v · == none), v w = none :=
    fun w hw => beq_iff_eq.mp (List.mem_filter.mp hw).2
  have hfalses : ∀ w ∈ c.literals.filter (v · == some false), v w = some false :=
    fun w hw => beq_iff_eq.mp (List.mem_filter.mp hw).2
  unfold status watched sortByValue
  simp only
  -- only the values in each part matter from here on
  generalize c.literals.filter (v · == some true) = trues at htrues ⊢
  generalize c.literals.filter (v · == none) = nones at hnones ⊢
  generalize c.literals.filter (v · == some false) = falses at hfalses ⊢
  cases trues with
  | cons w trues =>
      have hw : v w = some true := htrues w List.mem_cons_self
      have hany : ((w :: trues) ++ nones ++ falses).any (v · == some true) = true :=
        List.any_eq_true.mpr ⟨w, by simp, beq_iff_eq.mpr hw⟩
      rw [if_pos hany]
      exact ⟨w, by simp, hw⟩
  | nil =>
      have hany : ¬ ([] ++ nones ++ falses).any (v · == some true) = true := by
        intro hany
        obtain ⟨w, hw, htrue⟩ := List.any_eq_true.mp hany
        rw [List.nil_append, List.mem_append] at hw
        rcases hw with hw | hw
        · rw [hnones w hw] at htrue
          cases htrue
        · rw [hfalses w hw] at htrue
          cases htrue
      have hopen : ([] ++ nones ++ falses).filter (v · == none) = nones := by
        rw [List.nil_append, List.filter_append, List.filter_eq_self.mpr,
          List.filter_eq_nil_iff.mpr, List.append_nil]
        · intro w hw
          rw [hfalses w hw]
          decide
        · exact fun w hw => beq_iff_eq.mpr (hnones w hw)
      rw [if_neg hany, hopen]
      -- with no true literal the clause is judged by those without value
      match nones, hnones with
      | [], _ => trivial
      | [l], _ => exact List.mem_cons_self
      | l :: m :: rest, hnones =>
          refine ⟨Nat.le_refl 2, fun w hw => hnones w ?_⟩
          simp only [List.nil_append, List.cons_append, List.take_succ_cons, List.take_zero] at hw
          exact List.mem_of_mem_take (i := 2) hw

end Clause

namespace ClauseDatabase

variable {db db' : ClauseDatabase} {id : ClauseId} {p : Literal} {v v' : Valuation}
  {U ids rest : List ClauseId} {R R' watched : List Literal} {status : ClauseStatus}

-- ================================================================= at rest

/-- One of the watched literals is true, or there are two of them and
neither was read as false. -/
def Rests (v : Valuation) (R watched : List Literal) : Prop :=
  (∃ w ∈ watched, v w = some true) ∨ 2 ≤ watched.length ∧ ∀ w ∈ watched, w.negate ∉ R

/-- Values are added. -/
theorem Rests.mono (h : Rests v R watched) (hv : ∀ w, v w = some true → v' w = some true)
    (hR : R' ⊆ R) : Rests v' R' watched := by
  rcases h with ⟨w, hw, htrue⟩ | ⟨htwo, hunread⟩
  · exact .inl ⟨w, hw, hv w htrue⟩
  · exact .inr ⟨htwo, fun w hw hin => hunread w hw (hR hin)⟩

/-- Neither watch is what is read next. -/
theorem Rests.read (h : Rests v R watched) (hp : ∀ w ∈ watched, w.negate ≠ p) :
    Rests v (R ++ [p]) watched := by
  rcases h with htrue | ⟨htwo, hunread⟩
  · exact .inl htrue
  · refine .inr ⟨htwo, fun w hw hin => ?_⟩
    rcases List.mem_append.mp hin with hin | hin
    · exact hunread w hw hin
    · exact hp w hw (List.mem_singleton.mp hin)

/-- Once every false literal was read as such. -/
theorem Rests.not_unit (h : Rests v R (db.watchedBy id)) (hnodup : (db.literalsOf id).Nodup)
    (hR : ∀ w, v w = some false → w.negate ∈ R) :
    (∃ l ∈ db.literalsOf id, v l = some true) ∨
      ∃ l ∈ db.literalsOf id, ∃ m ∈ db.literalsOf id, l ≠ m ∧ v l = none ∧ v m = none := by
  by_cases htrue : ∃ l ∈ db.literalsOf id, v l = some true
  · exact .inl htrue
  · have hnone : ∀ w ∈ db.watchedBy id, w.negate ∉ R → v w = none := by
      intro w hw hunread
      cases hvalue : v w with
      | none => rfl
      | some b =>
          cases b with
          | true => exact absurd ⟨w, List.mem_of_mem_take hw, hvalue⟩ htrue
          | false => exact absurd (hR w hvalue) hunread
    rcases h with ⟨w, hw, hvalue⟩ | ⟨htwo, hunread⟩
    · exact absurd ⟨w, List.mem_of_mem_take hw, hvalue⟩ htrue
    · unfold watchedBy at htwo hunread hnone
      match hliterals : db.literalsOf id, hnodup, htwo with
      | l :: m :: rest, hnodup, _ =>
          rw [hliterals] at hunread hnone
          have hl : l ∈ (l :: m :: rest).take 2 := List.mem_cons_self
          have hm : m ∈ (l :: m :: rest).take 2 := List.mem_cons_of_mem l List.mem_cons_self
          refine .inr ⟨l, List.mem_cons_self, m, List.mem_cons_of_mem l List.mem_cons_self, ?_,
            hnone l hl (hunread l hl), hnone m hm (hunread m hm)⟩
          rintro rfl
          exact (List.nodup_cons.mp hnodup).1 List.mem_cons_self

-- =================================================================== quiet

/-- All clauses but those listed are at rest. -/
def Quiet (db : ClauseDatabase) (U : List ClauseId) (v : Valuation) (R : List Literal) : Prop :=
  ∀ id, db.Has id → id ∉ U → Rests v R (db.watchedBy id)

/-- More true literals leave the database quiet. -/
theorem Quiet.mono (h : Quiet db U v R) (hv : ∀ w, v w = some true → v' w = some true) :
    Quiet db U v' R :=
  fun id hid hout => (h id hid hout).mono hv (List.Subset.refl R)

/-- If no watches are selected nothing is claimed. -/
theorem quiet_of_forall_mem (h : ∀ id, db.Has id → id ∈ U) : Quiet db U v R :=
  fun id hid hout => absurd (h id hid) hout

/-- What is done about a clause: a literal that it forces is set. -/
def Settles (v v' : Valuation) (status : ClauseStatus) : Prop :=
  (∀ w, v w = some true → v' w = some true) ∧ status ≠ .violated ∧
    ∀ l, status = .unit l → v' l = some true

/-- Selecting the watches of a clause. -/
theorem Quiet.watch (h : Quiet db (id :: U) v R)
    (hR : ∀ w : Literal, w.negate ∈ R → v w = some false)
    (hrun : db.watch id v = .ok (db', status)) (hsettles : Settles v v' status) :
    Quiet db' U v' R := by
  obtain ⟨hgrows, hok, hunit⟩ := hsettles
  obtain ⟨c, -, -, hstatus, hrelists⟩ := watch_eq_ok hrun
  intro j hj hout
  by_cases heq : id = j
  · subst heq
    have hwatched := c.watched_sortByValue v
    rw [← hstatus] at hwatched
    rw [hrelists.watchedBy_self]
    cases status with
    | satisfied =>
        obtain ⟨w, hw, htrue⟩ := hwatched
        exact .inl ⟨w, hw, hgrows w htrue⟩
    | unit l => exact .inl ⟨l, hwatched, hunit l rfl⟩
    | violated => exact absurd rfl hok
    | undetermined =>
        obtain ⟨htwo, hnone⟩ := hwatched
        refine .inr ⟨htwo, fun w hw hin => ?_⟩
        have hfalse := hR w hin
        rw [hnone w hw] at hfalse
        cases hfalse
  · rw [hrelists.of_ne heq]
    have hout' : j ∉ id :: U := by
      rw [List.mem_cons, not_or]
      exact ⟨fun hc => heq hc.symm, hout⟩
    exact (h j (hrelists.has.mp hj) hout').mono hgrows (List.Subset.refl R)

-- ================================================================= reading

/-- The literal `p` was read, and the clauses in the hand are at rest only
for what was read before. -/
def QuietBut (db : ClauseDatabase) (U : List ClauseId) (p : Literal) (hand : List ClauseId)
    (v : Valuation) (R : List Literal) : Prop :=
  ∀ id, db.Has id → id ∉ U → Rests v R (db.watchedBy id) ∧
    (id ∉ hand → Rests v (R ++ [p]) (db.watchedBy id))

/-- Taking a list makes the clauses on it those to be looked at. -/
theorem Quiet.takeWatchers (h : Quiet db U v R) (hready : Ready db U R) (p : Literal) :
    QuietBut (db.takeWatchers p).1 U p (db.watchersOf p) v R := by
  intro id hid hout
  refine ⟨h id hid hout, fun hhand => (h id hid hout).read fun w hw hp => ?_⟩
  apply hhand
  rw [← hp]
  exact hready.listed id hid hout w hw

/-- Once all watchers on the list have been looked at, the database is quiet
again. -/
theorem QuietBut.quiet (h : QuietBut db U p [] v R) : Quiet db U v (R ++ [p]) :=
  fun id hid hout => (h id hid hout).2 List.not_mem_nil

/-- A clause is at rest again, now that `p` was read. -/
theorem Rests.revisit (h : Rests v R (db.watchedBy id))
    (hR : ∀ w : Literal, w.negate ∈ R ++ [p] → v w = some false)
    (hnodup : db.Has id → (db.literalsOf id).Nodup)
    (hrun : db.revisit id p v = .ok (db', status)) (hsettles : Settles v v' status) :
    Rests v' (R ++ [p]) (db'.watchedBy id) := by
  obtain ⟨hgrows, hok, hunit⟩ := hsettles
  have hp : v p.negate = some false := by
    apply hR
    rw [Literal.negate_negate]
    exact List.mem_append_right R (List.mem_singleton.mpr rfl)
  obtain ⟨-, hfound, ls, q, hrewatches, hshows⟩ := revisit_eq_ok hnodup hp hrun
  rw [hrewatches.relists.watchedBy_self]
  cases status with
  -- a watch is true
  | satisfied =>
      obtain ⟨w, hw, htrue⟩ := hshows.exists_true rfl
      exact .inl ⟨w, hw, hgrows w htrue⟩
  -- a watch is the unit literal, which has been set
  | unit l =>
      obtain ⟨w, hw, hvalue⟩ := hshows.exists_not_false (fun hc => by cases hc)
      have hwl : w = l := by
        by_contra hne
        apply hvalue
        exact hfound.2.2 w (hrewatches.perm.mem_iff.mp (List.mem_of_mem_take hw)) hne
      rw [← hwl] at hunit
      exact .inl ⟨w, hw, hunit w rfl⟩
  | violated => exact absurd rfl hok
  -- the watch that became false has been replaced by one that is not
  | undetermined =>
      obtain ⟨htwo, hq⟩ := hshows.replaced rfl
      rcases h with ⟨w, hw, htrue⟩ | ⟨-, hunread⟩
      · -- it is watched still, as it is not the one that was read as false
        have hne : w.negate ≠ p := by
          rintro rfl
          rw [Literal.negate_negate, htrue] at hp
          cases hp
        exact .inl ⟨w, hrewatches.stays w hw hne, hgrows w htrue⟩
      · refine .inr ⟨by rw [List.length_take]; omega, fun w hw hin => ?_⟩
        rcases hrewatches.watched w hw with hnew | ⟨hold, hne⟩
        · apply hq
          rw [← hnew, Literal.negate_negate]
          exact hR w hin
        · rcases List.mem_append.mp hin with hin | hin
          · exact hunread w hold hin
          · exact hne (List.mem_singleton.mp hin)

/-- Revisiting the first clause of the hand. -/
theorem QuietBut.revisit (h : QuietBut db U p (id :: rest) v R)
    (hR : ∀ w : Literal, w.negate ∈ R ++ [p] → v w = some false) (hout : id ∉ U)
    (hnodup : db.Has id → (db.literalsOf id).Nodup)
    (hrun : db.revisit id p v = .ok (db', status)) (hsettles : Settles v v' status) :
    QuietBut db' U p rest v' R := by
  have hp : v p.negate = some false := by
    apply hR
    rw [Literal.negate_negate]
    exact List.mem_append_right R (List.mem_singleton.mpr rfl)
  obtain ⟨hid, -, ls, q, hrewatches, -⟩ := revisit_eq_ok hnodup hp hrun
  have hrelists := hrewatches.relists
  intro j hj hj'
  by_cases heq : id = j
  · subst heq
    have hrests := (h id hid hout).1.revisit hR hnodup hrun hsettles
    exact ⟨hrests.mono (fun _ hw => hw) (List.subset_append_left R [p]), fun _ => hrests⟩
  · rw [hrelists.of_ne heq]
    obtain ⟨hbefore, hafter⟩ := h j (hrelists.has.mp hj) hj'
    refine ⟨hbefore.mono hsettles.1 (List.Subset.refl R), fun hhand => ?_⟩
    apply (hafter _).mono hsettles.1 (List.Subset.refl _)
    rw [List.mem_cons, not_or]
    exact ⟨fun hc => heq hc.symm, hhand⟩

end ClauseDatabase

end TemporalNetwork
