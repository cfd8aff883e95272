/-
A conflict stays until its level is undone.

When a conflict is recorded, literals are set whose edges were never put
in force. No state that was saved before has the conflict: what was saved
is consistent, so that closing the level of the conflict leads to a
consistent state, and closing less does not.

Levels that are opened on top of the conflict save states that are
inconsistent in the same way. `Latched` keeps the two parts of the stack
apart: the states saved before the conflict, and those saved after it,
which all look like the state in which it was recorded. Setting literals
and propagating change nothing there, and opening and closing levels moves
only within the second part, as long as no level at or below that of the
conflict is left or opened again. At the root there is nothing below the
conflict, whatever is asked.
-/
import TemporalNetwork.Proofs.Theory.Acts
import TemporalNetwork.Proofs.Theory.Answers

namespace TemporalNetwork

namespace Theory

variable {t₀ t t' u : Theory} {ts pre : List Theory} {k : Conflict} {l : Literal}
  {r : Request} {reply : Reply} {c : Config} {rs requests : List Request}

-- ====================================================== before the conflict

/-- A consistent state rests on consistent states. -/
theorem Stack.conflict_eq_none (h : Stack ts t) (hnone : t.conflict = none) :
    ∀ u ∈ ts, u.conflict = none := by
  induction h with
  | root settled level => exact fun u hu => absurd hu List.not_mem_nil
  | @above ts t₁ t settled extended below ih =>
      obtain ⟨cs, -, hundoes⟩ := extended.changes
      have hsaved : t₁.conflict = none := by
        show t₁.saved.conflict = none
        rw [hundoes.conflict, hnone, ite_self]
      exact List.forall_mem_cons.mpr ⟨hsaved, ih hsaved⟩

/-- Opening and closing levels among consistent states. -/
def Tranquil (p q : List Theory × Theory) : Prop :=
  (∀ u ∈ p.2 :: p.1, u.conflict = none) → ∀ u ∈ q.2 :: q.1, u.conflict = none

/-- Closing a level brings no conflict back. -/
theorem tranquil_closed {t₀ t u : Theory} {ts : List Theory} (returns : Returns t₀ t u) :
    Tranquil (t₀ :: ts, t) (ts, u) := by
  intro hall
  obtain ⟨-, hall⟩ := List.forall_mem_cons.mp hall
  obtain ⟨hsaved, hbelow⟩ := List.forall_mem_cons.mp hall
  exact List.forall_mem_cons.mpr ⟨returns.agrees.conflict.trans hsaved, hbelow⟩

/-- Opening a level causes no conflict. -/
theorem tranquil_opened {t : Theory} {ts : List Theory} : Tranquil (ts, t) (t :: ts, t.saved) := by
  intro hall
  exact List.forall_mem_cons.mpr ⟨(List.forall_mem_cons.mp hall).1, hall⟩

/-- A run of tranquil turns is tranquil. -/
theorem tranquil_runs {p q : List Theory × Theory} (h : Relation.ReflTransGen Tranquil p q) :
    Tranquil p q := by
  induction h with
  | refl => exact fun hall => hall
  | tail _ hlast ih => exact fun hall => hlast (ih hall)

/-- Where a conflict is recorded, all states that are saved are
consistent. -/
theorem Stack.records_conflict (hts : Stack ts t₀) (hnone : t₀.conflict = none)
    (h : t₀.perform r = .ok (t, reply)) (hconflict : t.conflict = some k) :
    ∃ ts', Stack ts' t ∧ ∀ u ∈ ts', u.conflict = none := by
  have hbelow := hts.conflict_eq_none hnone
  have hall : ∀ u ∈ t₀ :: ts, u.conflict = none := List.forall_mem_cons.mpr ⟨hnone, hbelow⟩
  -- a request that only opens and closes levels does not record a conflict
  have htranquil : ∀ {ts' : List Theory}, Relation.ReflTransGen Tranquil (ts, t₀) (ts', t) →
      ∃ ts', Stack ts' t ∧ ∀ u ∈ ts', u.conflict = none := by
    intro ts' hrun
    have ht : t.conflict = none := tranquil_runs hrun hall t List.mem_cons_self
    rw [hconflict] at ht
    cases ht
  have hsetup : r.isSetup = true → ∃ ts', Stack ts' t ∧ ∀ u ∈ ts', u.conflict = none := by
    intro hr
    cases setsUp_perform hts.settled hr h with
    | refused same =>
        rw [same, hnone] at hconflict
        cases hconflict
    | declared added =>
        rw [added] at hconflict
        cases hnone.symm.trans hconflict
    | extended root settles =>
        obtain rfl := hts.eq_nil root
        exact ⟨[], hts.settles settles, fun u hu => absurd hu List.not_mem_nil⟩
  cases r with
  | assign l =>
      obtain ⟨a, hrun, -⟩ := replying_eq_ok.mp h
      obtain ⟨hextends, -, hsettled⟩ := extends_assign hts.settled hrun
      exact ⟨ts, hts.extends hextends hsettled, hbelow⟩
  | propagate =>
      obtain ⟨t₁, hrun, heq⟩ := Checked.map_eq_ok.mp h
      cases heq
      exact ⟨ts, (turns_propagate hts.settled hrun).stack hts, hbelow⟩
  | configure c =>
      cases h
      cases hnone.symm.trans hconflict
  | pushCheckpoint =>
      obtain ⟨t₁, hrun, heq⟩ := Checked.map_eq_ok.mp h
      cases heq
      obtain ⟨-, rfl⟩ := pushCheckpoint_eq_ok.mp hrun
      cases hnone.symm.trans hconflict
  | backtrack level =>
      obtain ⟨a, hrun, -⟩ := replying_eq_ok.mp h
      obtain ⟨ts', hruns, -⟩ := runs_backtrack (fun _ hreturns => tranquil_closed hreturns) hts hrun
      exact htranquil hruns
  | popTo level =>
      obtain ⟨a, hrun, -⟩ := replying_eq_ok.mp h
      obtain ⟨ts', hruns⟩ :=
        runs_popTo (fun _ hreturns => tranquil_closed hreturns) tranquil_opened hts hrun
      exact htranquil hruns
  | restoreLast =>
      obtain ⟨t₁, hrun, heq⟩ := Checked.map_eq_ok.mp h
      cases heq
      obtain ⟨t₂, rest, rfl, hreturns, -⟩ := hts.restoreLast hrun
      exact htranquil (.single (tranquil_closed hreturns))
  | reset =>
      obtain ⟨t₁, hrun, heq⟩ := Checked.map_eq_ok.mp h
      cases heq
      exact htranquil (runs_restore (fun _ hreturns => tranquil_closed hreturns) hts hrun).1
  | _ => exact hsetup rfl

-- ======================================================== after the conflict

/-- Nothing that can be asked about has changed. -/
structure Resembles (t u : Theory) : Prop where
  conflict : u.conflict = t.conflict
  size : t.values.size ≤ u.values.size
  known (v : BoolVar) : u.known v = t.known v
  network : u.network = t.network
  potentials (d : Direction) : (u.graph.view d).potentials = (t.graph.view d).potentials
  active : u.graph.active = t.graph.active
  assignments : u.assignments.events = t.assignments.events
  implications : u.implications.events = t.implications.events

theorem Resembles.refl (t : Theory) : Resembles t t :=
  ⟨rfl, Nat.le_refl _, fun _ => rfl, rfl, fun _ => rfl, rfl, rfl, rfl⟩

/-- A theory resembles whatever agrees with what it resembles. -/
theorem Resembles.agrees (h : Resembles t t') (hagrees : Agrees t' u) : Resembles t u where
  conflict := hagrees.conflict.trans h.conflict
  size := Nat.le_trans h.size hagrees.size
  known v := (hagrees.known v).trans (h.known v)
  network := hagrees.network.trans h.network
  potentials d := by
    rw [hagrees.graph]
    exact h.potentials d
  active := by
    rw [hagrees.graph]
    exact h.active
  assignments := hagrees.assignmentEvents.trans h.assignments
  implications := hagrees.implicationEvents.trans h.implications

/-- A level that is opened is like the one below. -/
theorem Resembles.saved (h : Resembles t u) : Resembles t u.saved where
  conflict := h.conflict
  size := h.size
  known := h.known
  network := h.network
  potentials d := by
    cases d with
    | forward => exact h.potentials .forward
    | backward => exact h.potentials .backward
  active := h.active
  assignments := h.assignments
  implications := h.implications

section
variable (h : Resembles t u)
include h

theorem Resembles.hasVariable {v : BoolVar} (hv : t.hasVariable v = true) :
    u.hasVariable v = true := by
  have hlt : Handle.index v < t.values.size := (HandleVector.contains_iff _ _).mp hv
  exact (HandleVector.contains_iff _ _).mpr (Nat.lt_of_lt_of_le hlt h.size)

theorem Resembles.value : u.value = t.value := value_congr h.known

theorem Resembles.isActive (id : EdgeId) : u.isActive id = t.isActive id := by
  show (u.graph.active.get? id).getD false = (t.graph.active.get? id).getD false
  rw [h.active]

theorem Resembles.graph_value (d : Direction) (x : Timepoint) :
    u.graph.value d x = t.graph.value d x := by
  show ((u.graph.view d).potentials.get x).value = ((t.graph.view d).potentials.get x).value
  rw [h.potentials]

/-- Bounds are read off the graph. -/
theorem Resembles.bounds (x : Timepoint) : u.lower x = t.lower x ∧ u.upper x = t.upper x := by
  unfold lower upper requireTimepoint ActiveGraph.lower ActiveGraph.upper
  rw [h.network, h.graph_value, h.graph_value]
  exact ⟨rfl, rfl⟩

end

-- =============================================================== going back

/-- A list can be taken apart at any position from its end. -/
theorem exists_append_cons {α : Type} {xs : List α} {n : Nat} (h : n < xs.length) :
    ∃ front x back, xs = front ++ x :: back ∧ back.length = n := by
  induction xs with
  | nil => exact absurd h (Nat.not_lt_zero n)
  | cons y ys ih =>
      by_cases hlast : n = ys.length
      · exact ⟨[], y, ys, rfl, hlast.symm⟩
      · have hlt : n < ys.length := by
          rw [List.length_cons] at h
          omega
        obtain ⟨front, x, back, rfl, hback⟩ := ih hlt
        exact ⟨y :: front, x, back, rfl, hback⟩

/-- Going back to an open level leads to the state saved above it. -/
theorem Stack.perform_backtrack {n : Nat} (h : Stack ts t) (hn : n < ts.length) :
    ∃ x rest u, x :: rest <:+ ts ∧ rest.length = n ∧
      t.perform (.backtrack ⟨n⟩) = .ok (u, .done) ∧ Agrees x u ∧ Stack rest u := by
  obtain ⟨front, x, rest, rfl, rfl⟩ := exists_append_cons hn
  obtain ⟨u, hrun, hagrees, -, hstack⟩ := h.backtrack
  exact ⟨x, rest, u, List.suffix_append front _, rfl, replying_eq_ok.mpr ⟨_, hrun, rfl⟩, hagrees,
    hstack⟩

/-- An open level is opened again on the state saved below it. -/
theorem Stack.perform_popTo {n : Nat} (h : Stack ts t) (hn : n < ts.length) :
    ∃ x rest u, x :: rest <:+ ts ∧ rest.length = n ∧
      t.perform (.popTo ⟨n + 1⟩) = .ok (u.saved, .done) ∧ Agrees x u ∧ Stack rest u := by
  obtain ⟨front, x, rest, rfl, rfl⟩ := exists_append_cons hn
  obtain ⟨u, hrun, hagrees, -, hstack⟩ := h.popTo
  exact ⟨x, rest, u, List.suffix_append front _, rfl, replying_eq_ok.mpr ⟨_, hrun, rfl⟩, hagrees,
    hstack⟩

-- ================================================================== latched

/-- A theory with a conflict, on the states that were saved before the
conflict and on those that were saved after it. -/
structure Latched (t : Theory) (ts pre : List Theory) (t' : Theory) : Prop where
  stack : Stack (pre ++ ts) t'
  resembles (u : Theory) : u ∈ t' :: pre → Resembles t u

/-- Requests that leave levels up to the `n`-th as they are, and set only
literals that are there. -/
def Request.StaysAbove (t : Theory) (n : Nat) : Request → Prop
  | .assign l => t.hasVariable l.var = true
  | .propagate | .pushCheckpoint => True
  | .backtrack level => n ≤ level.depth
  | .popTo level => n < level.depth
  | _ => False

namespace Latched

/-- The conflict was just recorded. -/
theorem start (hts : Stack ts t) : Latched t ts [] t :=
  ⟨hts, List.forall_mem_singleton.mpr (.refl t)⟩

/-- The latched theory resembles the one that latched. -/
theorem top (h : Latched t ts pre t') : Resembles t t' := h.resembles t' List.mem_cons_self

theorem opened (h : Latched t ts pre t') : Latched t ts (t' :: pre) t'.saved :=
  ⟨h.stack.saved, List.forall_mem_cons.mpr ⟨h.top.saved, h.resembles⟩⟩

/-- A state that was saved after the conflict is gone back to. -/
theorem closed {x : Theory} {rest : List Theory} (h : Latched t ts pre t')
    (hsuffix : x :: rest <:+ pre ++ ts) (hlength : ts.length ≤ rest.length) (hagrees : Agrees x u)
    (hstack : Stack rest u) : ∃ pre', Latched t ts pre' u := by
  have hbelow : ts <:+ rest := List.suffix_of_suffix_length_le (List.suffix_append pre ts)
    ((List.suffix_cons x rest).trans hsuffix) hlength
  obtain ⟨pre', rfl⟩ := hbelow
  obtain ⟨front, hfront⟩ := hsuffix
  have hfront' : (front ++ x :: pre') ++ ts = pre ++ ts := by
    rw [← hfront, List.append_assoc]
    rfl
  have hpre : front ++ x :: pre' = pre := List.append_cancel_right hfront'
  have hmem : ∀ w ∈ x :: pre', Resembles t w := by
    intro w hw
    apply h.resembles
    rw [← hpre]
    exact List.mem_cons_of_mem t' (List.mem_append_right front hw)
  obtain ⟨hx, hpre'⟩ := List.forall_mem_cons.mp hmem
  exact ⟨pre', hstack, List.forall_mem_cons.mpr ⟨hx.agrees hagrees, hpre'⟩⟩

theorem depth_eq (h : Latched t ts pre t') : t'.level.depth = (pre ++ ts).length := by
  rw [h.stack.level_eq]

section
variable (hconflict : t.conflict = some k)
include hconflict

/-- Setting a literal gives the conflict, and does nothing. -/
theorem assign (h : Latched t ts pre t') (hvar : t.hasVariable l.var = true) :
    t'.perform (.assign l) = .ok (t', .conflict k) := by
  have hk : t'.conflict = some k := h.top.conflict.trans hconflict
  have hassign : t'.assign l = .ok (t', .error (.conflict k)) := by
    unfold Theory.assign
    rw [if_pos (h.top.hasVariable hvar), hk]
  exact replying_eq_ok.mpr ⟨_, hassign, rfl⟩

/-- There is nothing to propagate. -/
theorem propagate (h : Latched t ts pre t') :
    t'.perform .propagate = .ok (t', .conflict k) := by
  have hk : t'.conflict = some k := h.top.conflict.trans hconflict
  have hsome : t'.conflict.isSome = true := by
    rw [hk]
    rfl
  have hrun : t'.propagate = .ok t' := by
    unfold Theory.propagate
    rw [if_pos hsome, ← h.stack.settled.rest]
  refine Checked.map_eq_ok.mpr ⟨t', hrun, ?_⟩
  unfold verdict
  rw [hk]
  rfl

/-- What is asked without leaving the level of the conflict is answered,
and leaves all but the levels above it as they are. -/
theorem perform (h : Latched t ts pre t') (hr : r.StaysAbove t ts.length) :
    ∃ u reply pre', t'.perform r = .ok (u, reply) ∧ Latched t ts pre' u := by
  cases r with
  | assign l => exact ⟨t', _, pre, h.assign hconflict hr, h⟩
  | propagate => exact ⟨t', _, pre, h.propagate hconflict, h⟩
  | pushCheckpoint =>
      have hpush : t'.pushCheckpoint = .ok t'.saved :=
        pushCheckpoint_eq_ok.mpr ⟨h.stack.settled.rest, rfl⟩
      exact ⟨_, _, _, Checked.map_eq_ok.mpr ⟨_, hpush, rfl⟩, h.opened⟩
  | backtrack level =>
      obtain ⟨n⟩ := level
      by_cases hopen : t'.level.depth < n
      · exact ⟨t', _, pre, replying_eq_ok.mpr ⟨_, if_pos hopen, rfl⟩, h⟩
      by_cases hsame : t'.level.depth = n
      · -- no level is above this one
        have hrun : t'.backtrack ⟨n⟩ = .ok (t', .ok ()) := by
          unfold Theory.backtrack Theory.restore
          rw [if_neg hopen, hsame]
          show (t'.restoreTimes (n - n)).map _ = _
          rw [Nat.sub_self]
          rfl
        exact ⟨t', _, pre, replying_eq_ok.mpr ⟨_, hrun, rfl⟩, h⟩
      · -- a level above the conflict is closed down to one that resembles the present state
        have hn : n < (pre ++ ts).length := by
          rw [← h.depth_eq]
          omega
        obtain ⟨x, rest, u, hsuffix, rfl, hrun, hagrees, hstack⟩ := h.stack.perform_backtrack hn
        obtain ⟨pre', hu⟩ := h.closed hsuffix hr hagrees hstack
        exact ⟨u, _, pre', hrun, hu⟩
  | popTo level =>
      obtain ⟨depth⟩ := level
      cases depth with
      | zero => exact absurd hr (Nat.not_lt_zero _)
      | succ n =>
          by_cases hopen : t'.level.depth < n + 1
          · exact ⟨t', _, pre, replying_eq_ok.mpr ⟨_, if_pos hopen, rfl⟩, h⟩
          · have hn : n < (pre ++ ts).length := by
              rw [← h.depth_eq]
              omega
            obtain ⟨x, rest, u, hsuffix, rfl, hrun, hagrees, hstack⟩ := h.stack.perform_popTo hn
            obtain ⟨pre', hu⟩ := h.closed hsuffix (Nat.le_of_lt_succ hr) hagrees hstack
            exact ⟨u.saved, _, u :: pre', hrun, hu.opened⟩
  | _ => exact absurd hr id

/-- Requests that stay above the level leave a theory latched. -/
theorem performAll (h : Latched t ts pre t')
    (hrequests : ∀ r ∈ requests, r.StaysAbove t ts.length) :
    ∃ u pre', t'.performAll requests = .ok u ∧ Latched t ts pre' u := by
  induction requests generalizing pre t' with
  | nil => exact ⟨t', pre, rfl, h⟩
  | cons r requests ih =>
      obtain ⟨hr, hrest⟩ := List.forall_mem_cons.mp hrequests
      obtain ⟨w, reply, pre₁, hfirst, hw⟩ := h.perform hconflict hr
      obtain ⟨u, pre₂, hrun, hu⟩ := ih hw hrest
      exact ⟨u, pre₂, Checked.bind_eq_ok.mpr ⟨(w, reply), hfirst, hrun⟩, hu⟩

end

/-- Below the level of the conflict there is none. -/
theorem undone {x : Theory} {rest : List Theory} (hbelow : ∀ u ∈ ts, u.conflict = none)
    (hsuffix : x :: rest <:+ pre ++ ts) (hlength : rest.length < ts.length)
    (hagrees : Agrees x u) : u.conflict = none := by
  have hts : x :: rest <:+ ts :=
    List.suffix_of_suffix_length_le hsuffix (List.suffix_append pre ts) hlength
  exact hagrees.conflict.trans (hbelow x (hts.subset List.mem_cons_self))

/-- Going below the level of the conflict undoes it. -/
theorem backtrack_below {level : DecisionLevel} (h : Latched t ts pre t')
    (hbelow : ∀ u ∈ ts, u.conflict = none) (hlevel : level.depth < ts.length) :
    ∃ u, t'.perform (.backtrack level) = .ok (u, .done) ∧ u.conflict = none := by
  have hlength : (pre ++ ts).length = pre.length + ts.length := List.length_append
  obtain ⟨x, rest, u, hsuffix, hrest, hrun, hagrees, -⟩ :=
    h.stack.perform_backtrack (n := level.depth) (by omega)
  exact ⟨u, hrun, undone hbelow hsuffix (hrest ▸ hlevel) hagrees⟩

/-- So does opening again the level of the conflict, or one below it. -/
theorem popTo_below {level : DecisionLevel} (h : Latched t ts pre t')
    (hbelow : ∀ u ∈ ts, u.conflict = none) (hlevel : level.depth ≤ ts.length)
    (hroot : 0 < ts.length) :
    ∃ u, t'.perform (.popTo level) = .ok (u, .done) ∧ u.conflict = none := by
  obtain ⟨depth⟩ := level
  cases depth with
  | zero => exact h.backtrack_below hbelow hroot
  | succ n =>
      have hlength : (pre ++ ts).length = pre.length + ts.length := List.length_append
      have hn : n < ts.length := hlevel
      obtain ⟨x, rest, u, hsuffix, hrest, hrun, hagrees, -⟩ :=
        h.stack.perform_popTo (n := n) (by omega)
      have hnone : u.conflict = none := undone hbelow hsuffix (hrest ▸ hn) hagrees
      exact ⟨u.saved, hrun, hnone⟩

end Latched

-- ================================================================ at the root

/-- All states have the conflict. -/
def Stuck (k : Conflict) (p : List Theory × Theory) : Prop := ∀ u ∈ p.2 :: p.1, u.conflict = some k

/-- A change leaves a conflict as it is. -/
theorem Change.conflict_eq_some (h : Change t t') (hk : t.conflict = some k) :
    t'.conflict = some k := by
  cases h with
  | extended h => exact h.conflict.trans hk
  | step h =>
      cases h with
      | implied hfree hvar htrue hvalid =>
          rw [imply_of_none hfree, setLiteral_of_none hfree]
          exact hk
      | refuted hfree henabled hvalid => cases hk.symm.trans hfree
      | counted stats => exact hk
      | dropped sub => exact hk
      | activated henabled haccepts hgrounded => exact hk

/-- Changes leave a conflict as it is. -/
theorem Changes.conflict_eq_some (h : Changes t t') (hk : t.conflict = some k) :
    t'.conflict = some k := by
  induction h with
  | refl => exact hk
  | tail _ hchange ih => exact hchange.conflict_eq_some ih

/-- A turn leaves the conflict in all states. -/
theorem Turn.stuck {p q : List Theory × Theory} (h : Turn p q) (hp : Stuck k p) : Stuck k q := by
  obtain ⟨htop, hbelow⟩ := List.forall_mem_cons.mp hp
  cases h with
  | settled settles =>
      exact List.forall_mem_cons.mpr ⟨settles.changes.conflict_eq_some htop, hbelow⟩
  | recorded settles extended =>
      exact List.forall_mem_cons.mpr ⟨settles.changes.conflict_eq_some htop, hbelow⟩
  | opened => exact List.forall_mem_cons.mpr ⟨htop, hp⟩
  | closed returns =>
      obtain ⟨hsaved, hrest⟩ := List.forall_mem_cons.mp hbelow
      exact List.forall_mem_cons.mpr ⟨returns.agrees.conflict.trans hsaved, hrest⟩

/-- Turns leave the conflict in all states. -/
theorem Turns.stuck {p q : List Theory × Theory} (h : Turns p q) (hp : Stuck k p) : Stuck k q := by
  induction h with
  | refl => exact hp
  | tail _ hturn ih => exact hturn.stuck ih

/-- If all states have the conflict, no request gets rid of it. -/
theorem Stack.performAll_stuck (hts : Stack ts t) (hstuck : Stuck k (ts, t))
    (h : t.performAll requests = .ok t') : t'.conflict = some k := by
  induction requests generalizing ts t with
  | nil =>
      cases h
      exact hstuck _ List.mem_cons_self
  | cons r requests ih =>
      obtain ⟨⟨t₁, reply⟩, hfirst, hrest⟩ := Checked.bind_eq_ok.mp h
      by_cases hassign : ∃ l, r = .assign l
      · -- literals are not set under a conflict
        obtain ⟨l, rfl⟩ := hassign
        obtain ⟨a, hrun, -⟩ := replying_eq_ok.mp hfirst
        have hk : t.conflict = some k := hstuck t List.mem_cons_self
        have hsame : t₁ = t := eq_of_assign hrun fun hset => nomatch hk.symm.trans hset.2
        rw [hsame] at hrest
        exact ih hts hstuck hrest
      · obtain ⟨ts₁, hturns, -⟩ := turns_perform hts (fun l hl => hassign ⟨l, hl⟩) hfirst
        exact ih (hturns.stack hts) (hturns.stuck hstuck) hrest

-- ============================================================== the conflict

/-- A conflict is the answer to all that follows until its level is
undone. Whatever is asked without leaving that level, setting literals and
propagating give this conflict and change nothing, and values, queues,
edges in force and bounds are as they were when it was recorded. Going
below its level, or opening it again, makes the theory consistent. At the
root it is there for good. -/
theorem conflict_of_performAll (h : (initial c).performAll rs = .ok t₀)
    (hnone : t₀.conflict = none) (hrun : t₀.perform r = .ok (t, reply))
    (hconflict : t.conflict = some k)
    (hrequests : ∀ r ∈ requests, r.StaysAbove t t.level.depth) :
    (∃ t', t.performAll requests = .ok t' ∧
      (∀ l, t.hasVariable l.var = true → t'.perform (.assign l) = .ok (t', .conflict k)) ∧
      t'.perform .propagate = .ok (t', .conflict k) ∧
      t'.value = t.value ∧ t'.assignments.toList = t.assignments.toList ∧
      t'.implications.toList = t.implications.toList ∧
      (∀ id, t'.isActive id = t.isActive id) ∧
      (∀ x, t'.lower x = t.lower x ∧ t'.upper x = t.upper x) ∧
      (∀ level, level.depth < t.level.depth →
        ∃ u, t'.perform (.backtrack level) = .ok (u, .done) ∧ u.isConsistent = true) ∧
      ∀ level, level.depth ≤ t.level.depth → 1 ≤ t.level.depth →
        ∃ u, t'.perform (.popTo level) = .ok (u, .done) ∧ u.isConsistent = true) ∧
    (t.level = .root → ∀ further t', t.performAll further = .ok t' → t'.conflict = some k) := by
  obtain ⟨ts₀, hts₀⟩ := exists_stack_of_performAll h
  obtain ⟨ts, hts, hbelow⟩ := hts₀.records_conflict hnone hrun hconflict
  have hdepth : t.level.depth = ts.length := by rw [hts.level_eq]
  rw [hdepth] at hrequests ⊢
  have hconsistent : ∀ {u : Theory}, u.conflict = none → u.isConsistent = true :=
    fun hu => Option.isNone_iff_eq_none.mpr hu
  constructor
  · -- above the level all states resemble the one with the conflict
    obtain ⟨t', pre, hall, ht'⟩ := (Latched.start hts).performAll hconflict hrequests
    have htop := ht'.top
    refine ⟨t', hall, fun l hl => ht'.assign hconflict hl, ht'.propagate hconflict, htop.value,
      congrArg Array.toList htop.assignments, congrArg Array.toList htop.implications,
      htop.isActive, htop.bounds, fun level hlevel => ?_, fun level hlevel hroot => ?_⟩
    · obtain ⟨u, hu, hnone⟩ := ht'.backtrack_below hbelow hlevel
      exact ⟨u, hu, hconsistent hnone⟩
    · obtain ⟨u, hu, hnone⟩ := ht'.popTo_below hbelow hlevel hroot
      exact ⟨u, hu, hconsistent hnone⟩
  · -- and at the root no state is left without it
    intro hroot further t' hfurther
    obtain rfl := hts.eq_nil hroot
    exact hts.performAll_stuck (List.forall_mem_singleton.mpr hconflict) hfurther

/-- A conflict at the second level, on which two levels are opened and
taken back. -/
theorem conflict_of_performAll_second :
    ∃ t₀ t k, (initial .standard).performAll
        [.newTimepoint ⟨0, 10⟩, .newVariable, .newVariable,
          .addConditionalEdge .origin ⟨1⟩ 7 ⟨⟨0⟩, true⟩,
          .addConditionalEdge ⟨1⟩ .origin (-8) ⟨⟨0⟩, true⟩, .pushCheckpoint,
          .assign ⟨⟨1⟩, true⟩, .pushCheckpoint] = .ok t₀ ∧
      t₀.perform (.assign ⟨⟨0⟩, true⟩) = .ok (t, .conflict k) ∧ t.level = ⟨2⟩ ∧
      ∃ t', t.performAll [.pushCheckpoint, .assign ⟨⟨1⟩, false⟩, .pushCheckpoint, .propagate,
          .popTo ⟨3⟩, .popTo ⟨9⟩, .backtrack ⟨2⟩] = .ok t' ∧
        t'.perform .propagate = .ok (t', .conflict k) ∧
        ∃ u, t'.perform (.popTo ⟨2⟩) = .ok (u, .done) ∧ u.isConsistent = true := by
  have hrun : ((initial .standard).performAll
      [.newTimepoint ⟨0, 10⟩, .newVariable, .newVariable,
        .addConditionalEdge .origin ⟨1⟩ 7 ⟨⟨0⟩, true⟩,
        .addConditionalEdge ⟨1⟩ .origin (-8) ⟨⟨0⟩, true⟩, .pushCheckpoint,
        .assign ⟨⟨1⟩, true⟩, .pushCheckpoint]).answers (fun t₀ => t₀.conflict.isNone &&
          (t₀.perform (.assign ⟨⟨0⟩, true⟩)).answers fun p => p.1.hasVariable ⟨1⟩ &&
            decide (p.1.level = ⟨2⟩) &&
              p.1.conflict.any fun k => decide (p.2 = .conflict k)) = true := by decide +kernel
  obtain ⟨t₀, h, hstate⟩ := Checked.exists_of_answers hrun
  obtain ⟨hnone, hanswer⟩ := Bool.and_eq_true_iff.mp hstate
  obtain ⟨⟨t, reply⟩, hperform, hstate⟩ := Checked.exists_of_answers hanswer
  simp only [Bool.and_eq_true, decide_eq_true_eq] at hstate
  obtain ⟨⟨hvar, hlevel⟩, hreply⟩ := hstate
  cases hconflict : t.conflict with
  | none =>
      rw [hconflict] at hreply
      cases hreply
  | some k =>
      rw [hconflict] at hreply
      obtain rfl := of_decide_eq_true hreply
      have hrequests : ∀ r ∈ [Request.pushCheckpoint, .assign ⟨⟨1⟩, false⟩, .pushCheckpoint,
          .propagate, .popTo ⟨3⟩, .popTo ⟨9⟩, .backtrack ⟨2⟩], r.StaysAbove t t.level.depth := by
        rw [hlevel]
        simp [Request.StaysAbove, hvar]
      obtain ⟨⟨t', hall, -, hpropagate, -, -, -, -, -, -, hpop⟩, -⟩ :=
        conflict_of_performAll h (Option.isNone_iff_eq_none.mp hnone) hperform hconflict hrequests
      rw [hlevel] at hpop
      exact ⟨t₀, t, k, h, hperform, hlevel, t', hall, hpropagate,
        hpop ⟨2⟩ (Nat.le_refl 2) (Nat.le_succ 1)⟩

end Theory

end TemporalNetwork
