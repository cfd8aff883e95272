/-
Undoing is exact.

A graph extends another if it came from it by recorded changes, and
undoing these changes leads back to the very same graph: potentials,
predecessors, out-lists with their order, flags and log. `Extends` is
that relation. It holds of each single change, and it composes, so that
whatever is built from changes can be taken back as a whole: to a size of
the log after a failed activation, to a mark when a level is closed.

The changes are undone newest first, and an edge is taken from the end of
its out-lists. That the end holds this edge is what `detach` looks at; it
does because later additions were taken off before.
-/
import TemporalNetwork.ActiveGraph

namespace TemporalNetwork

namespace UndoLog

variable {α : Type}

/-- Taking off the changes that were put on an older log. -/
theorem undoTo_append (events changes : List α) (marks : List Nat) {u : UndoLog α × List α} :
    (⟨changes ++ events, marks⟩ : UndoLog α).undoTo events.length = .ok u ↔
      (∀ m ∈ marks.head?, m ≤ events.length) ∧ u = (⟨events, marks⟩, changes) := by
  have hsurplus : (⟨changes ++ events, marks⟩ : UndoLog α).size - events.length
      = changes.length := by
    simp [size]
  unfold undoTo
  simp only [Checked.bind_eq_ok, Checked.require_eq_ok, Checked.pure_eq_ok, hsurplus,
    List.drop_left, List.take_left]
  constructor
  · rintro ⟨-, hmarks, rfl⟩
    exact ⟨hmarks, rfl⟩
  · rintro ⟨hmarks, rfl⟩
    exact ⟨(), hmarks, rfl⟩

/-- Closing the level that was opened on an older log. -/
theorem restoreLast_append (g : UndoLog α) (changes : List α) {u : UndoLog α × List α} :
    (⟨changes ++ g.events, g.save.marks⟩ : UndoLog α).restoreLast = .ok u ↔
      (∀ m ∈ g.marks.head?, m ≤ g.size) ∧ u = (g, changes) :=
  undoTo_append g.events changes g.marks

end UndoLog

namespace ActiveGraph

variable {net : Network} {g g' g'' : ActiveGraph} {d d' : Direction} {id : EdgeId}
  {node x : Timepoint} {p : Potential}

-- ==================================================== reading after writing

theorem view_modifyView (g : ActiveGraph) (d d' : Direction) (f : View → View) :
    (g.modifyView d f).view d' = if d = d' then f (g.view d') else g.view d' := by
  cases d <;> cases d' <;> rfl

@[simp] theorem active_modifyView (g : ActiveGraph) (d : Direction) (f : View → View) :
    (g.modifyView d f).active = g.active := by
  cases d <;> rfl

@[simp] theorem log_modifyView (g : ActiveGraph) (d : Direction) (f : View → View) :
    (g.modifyView d f).log = g.log := by
  cases d <;> rfl

/-- A node of the view is written, and no other. -/
theorem potential_setPotential (g : ActiveGraph) (d d' : Direction) (node x : Timepoint)
    (p : Potential) :
    (g.setPotential d node p).potential d' x
      = if d = d' ∧ node = x ∧ node.index < (g.view d).potentials.size then p
        else g.potential d' x := by
  unfold setPotential potential
  rw [view_modifyView]
  by_cases hd : d = d'
  · subst hd
    have hindex : Handle.index node = Handle.index x ↔ node = x := Handle.index_inj
    simp only [if_true, HandleVector.get_set, hindex, true_and]
    rfl
  · simp [hd]

@[simp] theorem out_setPotential (g : ActiveGraph) (d d' : Direction) (node x : Timepoint)
    (p : Potential) : (g.setPotential d node p).out d' x = g.out d' x := by
  unfold setPotential out
  rw [view_modifyView]
  split <;> rfl

/-- The view with the edge at the end of its out-list, if it has it. -/
def appendOut (net : Network) (id : EdgeId) (d : Direction) (v : View) : View :=
  if (net.edge id).isIn d = true then
    { v with out := v.out.modify ((net.edge id).tail d) (·.push id) }
  else v

/-- The view without the end of the out-list of the edge. -/
def dropOut (net : Network) (id : EdgeId) (d : Direction) (v : View) : View :=
  if (net.edge id).isIn d = true then
    { v with out := v.out.modify ((net.edge id).tail d) (·.pop) }
  else v

/-- Dropping the edge that was appended last undoes it. -/
@[simp] theorem dropOut_appendOut (v : View) :
    dropOut net id d (appendOut net id d v) = v := by
  unfold dropOut appendOut
  split
  · rw [HandleVector.modify_modify_cancel]
    exact fun a => Array.pop_push
  · rfl

theorem potentials_appendOut (v : View) :
    (appendOut net id d v).potentials = v.potentials := by
  unfold appendOut
  split <;> rfl

theorem size_out_appendOut (v : View) : (appendOut net id d v).out.size = v.out.size := by
  unfold appendOut
  split <;> simp

/-- In a view that the edge is in, it is listed last at the node that it
leaves. -/
theorem get_out_appendOut (v : View) (x : Timepoint) :
    ((appendOut net id d v).out.get x).toList
      = if (net.edge id).isIn d = true ∧ (net.edge id).tail d = x ∧ x.index < v.out.size
        then (v.out.get x).toList ++ [id] else (v.out.get x).toList := by
  have hindex : Handle.index ((net.edge id).tail d) = Handle.index x
      ↔ (net.edge id).tail d = x := Handle.index_inj
  unfold appendOut
  by_cases hin : (net.edge id).isIn d = true
  · rw [if_pos hin, HandleVector.get_modify]
    by_cases htail : (net.edge id).tail d = x
    · subst htail
      by_cases hlt : ((net.edge id).tail d).index < v.out.size
      · rw [if_pos ⟨rfl, hlt⟩, if_pos ⟨hin, rfl, hlt⟩, Array.toList_push]
      · rw [if_neg (fun h => hlt h.2), if_neg (fun h => hlt h.2.2)]
    · rw [if_neg (fun h => htail (hindex.mp h.1)), if_neg (fun h => htail h.2.1)]
  · rw [if_neg hin, if_neg (fun h => hin h.1)]

/-- Attaching an edge is a change of one view. -/
theorem attach_eq (g : ActiveGraph) (d : Direction) :
    attach net id d g = g.modifyView d (appendOut net id d) := by
  by_cases hin : (net.edge id).isIn d = true
  · cases d <;> simp [attach, modifyView, appendOut, hin]
  · cases d <;> simp [attach, modifyView, appendOut, hin]

/-- Either view has the edge appended. -/
theorem view_insertEdge (g : ActiveGraph) (d : Direction) :
    (g.insertEdge net id).view d = appendOut net id d (g.view d) := by
  unfold insertEdge
  rw [attach_eq, attach_eq]
  cases d <;> rfl

theorem active_insertEdge (g : ActiveGraph) :
    (g.insertEdge net id).active = g.active.set id true := by
  unfold insertEdge
  rw [attach_eq, attach_eq]
  rfl

theorem log_insertEdge (g : ActiveGraph) :
    (g.insertEdge net id).log = g.log.record (.activated id) := by
  unfold insertEdge
  rw [attach_eq, attach_eq]
  rfl

/-- The edge is listed last at its tail, and nowhere else. -/
theorem out_insertEdge (g : ActiveGraph) (d : Direction) (x : Timepoint) :
    (g.insertEdge net id).out d x
      = if (net.edge id).isIn d = true ∧ (net.edge id).tail d = x ∧ x.index < (g.view d).out.size
        then g.out d x ++ [id] else g.out d x := by
  unfold out
  rw [view_insertEdge, get_out_appendOut]

@[simp] theorem potential_insertEdge (g : ActiveGraph) (d : Direction) (x : Timepoint) :
    (g.insertEdge net id).potential d x = g.potential d x := by
  unfold potential
  rw [view_insertEdge, potentials_appendOut]

theorem potentials_size_setPotential (g : ActiveGraph) (d d' : Direction) (node : Timepoint)
    (p : Potential) :
    ((g.setPotential d node p).view d').potentials.size = (g.view d').potentials.size := by
  unfold setPotential
  rw [view_modifyView]
  split <;> simp

theorem out_view_setPotential (g : ActiveGraph) (d d' : Direction) (node : Timepoint)
    (p : Potential) : ((g.setPotential d node p).view d').out = (g.view d').out := by
  unfold setPotential
  rw [view_modifyView]
  split <;> rfl

-- ====================================================== one change undone

/-- The edge is taken from the end of the list, where it must be. -/
theorem detach_eq_ok {u : ActiveGraph} :
    detach net id d g = .ok u ↔
      ((net.edge id).isIn d = true →
        (g.out d ((net.edge id).tail d)).getLast? = some id) ∧
      u = g.modifyView d (dropOut net id d) := by
  unfold detach
  by_cases hin : (net.edge id).isIn d = true
  · simp only [hin, if_true, Checked.bind_eq_ok, Checked.require_eq_ok, Checked.pure_eq_ok,
      true_implies]
    cases d <;> simp [dropOut, hin, modifyView, eq_comm]
  · have hsame : g.modifyView d (dropOut net id d) = g := by
      cases d <;> simp [modifyView, dropOut, hin]
    rw [if_neg hin, hsame, Except.ok.injEq]
    exact ⟨fun h => ⟨fun hc => absurd hc hin, h.symm⟩, fun h => h.2.symm⟩

/-- An activation is undone exactly, if the edge was not in force and
its ends are nodes. -/
theorem undo_insertEdge (hid : g.isActive id = false)
    (hnodes : ∀ d, ((net.edge id).tail d).index < (g.view d).out.size) :
    ({ g.insertEdge net id with log := g.log } : ActiveGraph).undo net (.activated id)
      = .ok g := by
  have hactive : (g.active.set id true).set id false = g.active := by
    rw [HandleVector.set_set]
    cases hget : g.active.get? id with
    | none => exact HandleVector.set_of_size_le _ ((HandleVector.get?_eq_none_iff _ _).mp hget)
    | some b =>
        have hb : b = false := by simpa [isActive, hget] using hid
        exact HandleVector.set_of_get? (hb ▸ hget)
  have hlast : ∀ d, (net.edge id).isIn d = true →
      ((g.insertEdge net id).out d ((net.edge id).tail d)).getLast? = some id := by
    intro d hin
    rw [out_insertEdge, if_pos ⟨hin, rfl, hnodes d⟩, List.getLast?_concat]
  simp only [undo, Checked.bind_eq_ok, detach_eq_ok]
  refine ⟨_, ⟨hlast .forward, rfl⟩, hlast .backward, ?_⟩
  have hf : dropOut net id .forward (g.insertEdge net id).forward = g.forward := by
    rw [show (g.insertEdge net id).forward = appendOut net id .forward g.forward from
      view_insertEdge g .forward, dropOut_appendOut]
  have hb : dropOut net id .backward (g.insertEdge net id).backward = g.backward := by
    rw [show (g.insertEdge net id).backward = appendOut net id .backward g.backward from
      view_insertEdge g .backward, dropOut_appendOut]
  simp only [modifyView, active_insertEdge, hactive, hf, hb]

/-- Potentials are written back as they were. -/
theorem undo_lowerPotential (g : ActiveGraph) (d : Direction) (node : Timepoint) (value : Int)
    (e : EdgeId) :
    ({ g.lowerPotential d node value e with log := g.log } : ActiveGraph).undo net
        (.lowered d node (g.potential d node)) = .ok g := by
  have hview : ∀ p : Potential,
      ((g.view d).potentials.set node p).set node (g.potential d node)
        = (g.view d).potentials := by
    intro p
    rw [HandleVector.set_set]
    exact HandleVector.set_get _ _
  cases d with
  | forward =>
      have := hview ⟨value, some e⟩
      simp only [view] at this
      simp only [undo, lowerPotential, setPotential, modifyView, this]
  | backward =>
      have := hview ⟨value, some e⟩
      simp only [view] at this
      simp only [undo, lowerPotential, setPotential, modifyView, this]

-- =========================================================== many changes

/-- Detaching an edge does not look at the log. -/
theorem detach_withLog (g : ActiveGraph) (log : UndoLog GraphChange) (d : Direction) :
    detach net id d { g with log } = (detach net id d g).map fun g => { g with log } := by
  unfold detach
  by_cases hin : (net.edge id).isIn d = true
  · simp only [hin, if_true]
    have hout : out { g with log } d ((net.edge id).tail d) = g.out d ((net.edge id).tail d) := by
      cases d <;> rfl
    rw [hout]
    by_cases hlast : (g.out d ((net.edge id).tail d)).getLast? = some id
    · rw [Checked.require_of hlast]
      cases d <;> rfl
    · rw [Checked.require, if_neg hlast]
      rfl
  · simp only [hin]
    rfl

/-- Undoing looks at the graph and not at its log. -/
theorem undo_withLog (g : ActiveGraph) (log : UndoLog GraphChange) (c : GraphChange) :
    ({ g with log } : ActiveGraph).undo net c
      = (g.undo net c).map fun g => { g with log } := by
  cases c with
  | activated id =>
      simp only [undo]
      have hfirst : detach net id .forward { g with active := g.active.set id false, log }
          = (detach net id .forward { g with active := g.active.set id false }).map
              fun g => { g with log } :=
        detach_withLog { g with active := g.active.set id false } log .forward
      rw [hfirst]
      cases detach net id .forward { g with active := g.active.set id false } with
      | error f => rfl
      | ok u => exact detach_withLog u log .backward
  | lowered d node p => cases d <;> rfl

/-- Nor does undoing changes. -/
theorem undoAll_withLog (g : ActiveGraph) (log : UndoLog GraphChange) (cs : List GraphChange) :
    undoAll net { g with log } cs = (undoAll net g cs).map fun g => { g with log } := by
  induction cs generalizing g with
  | nil => rfl
  | cons c cs ih =>
      simp only [undoAll, undo_withLog]
      cases g.undo net c with
      | error f => rfl
      | ok u => exact ih u

/-- Changes are undone one after the other. -/
theorem undoAll_append (g : ActiveGraph) (cs cs' : List GraphChange) :
    undoAll net g (cs ++ cs') = undoAll net g cs >>= fun g => undoAll net g cs' := by
  induction cs generalizing g with
  | nil => rfl
  | cons c cs ih =>
      simp only [undoAll, List.cons_append]
      cases g.undo net c with
      | error f => rfl
      | ok u => exact ih u

/-- The second graph came from the first by recorded changes, and they
can be undone. -/
def Extends (net : Network) (g g' : ActiveGraph) : Prop :=
  ∃ cs, g'.log = { g.log with events := cs ++ g.log.events } ∧
    undoAll net { g' with log := g.log } cs = .ok g

theorem Extends.refl (g : ActiveGraph) : Extends net g g := ⟨[], rfl, rfl⟩

/-- No level is opened or closed. -/
theorem Extends.marks (h : Extends net g g') : g'.log.marks = g.log.marks := by
  obtain ⟨cs, hlog, -⟩ := h
  rw [hlog]

/-- Changes that are recorded in turn can be undone in turn. -/
theorem Extends.trans (h : Extends net g g') (h' : Extends net g' g'') : Extends net g g'' := by
  obtain ⟨cs, hlog, hundo⟩ := h
  obtain ⟨cs', hlog', hundo'⟩ := h'
  refine ⟨cs' ++ cs, ?_, ?_⟩
  · rw [hlog', hlog, List.append_assoc]
  · -- the later changes are undone under the older log as under their own
    have hfirst : undoAll net { g'' with log := g.log } cs' = .ok { g' with log := g.log } := by
      have := @undoAll_withLog net { g'' with log := g'.log } g.log cs'
      rw [hundo'] at this
      exact this
    rw [undoAll_append, hfirst]
    exact hundo

/-- An edge that is inserted is recorded, and detached when that is undone. -/
theorem extends_insertEdge (hid : g.isActive id = false)
    (hnodes : ∀ d, ((net.edge id).tail d).index < (g.view d).out.size) :
    Extends net g (g.insertEdge net id) := by
  refine ⟨[.activated id], log_insertEdge g, ?_⟩
  simp only [undoAll, undo_insertEdge hid hnodes]
  rfl

/-- A potential that is lowered is recorded with what it was. -/
theorem extends_lowerPotential (g : ActiveGraph) (d : Direction) (node : Timepoint)
    (value : Int) (e : EdgeId) : Extends net g (g.lowerPotential d node value e) := by
  refine ⟨[.lowered d node (g.potential d node)], ?_, ?_⟩
  · simp [lowerPotential, setPotential, UndoLog.record]
  · simp only [undoAll, undo_lowerPotential]
    rfl

/-- Undoing down to the size of the older log leads to the older graph. -/
theorem Extends.undoTo_eq_ok (h : Extends net g g') {u : ActiveGraph} :
    g'.undoTo net g.log.size = .ok u ↔ (∀ m ∈ g.log.marks.head?, m ≤ g.log.size) ∧ u = g := by
  obtain ⟨cs, hlog, hundo⟩ := h
  unfold undoTo
  simp only [Checked.bind_eq_ok, hlog, UndoLog.size, UndoLog.undoTo_append]
  constructor
  · rintro ⟨-, ⟨hmarks, rfl⟩, hu⟩
    exact ⟨hmarks, Except.ok.inj (hu.symm.trans hundo)⟩
  · rintro ⟨hmarks, rfl⟩
    exact ⟨_, ⟨hmarks, rfl⟩, hundo⟩

/-- Closing the level leads to the graph on which it was opened. -/
theorem Extends.restoreLast_eq_ok (h : Extends net g.save g') {u : ActiveGraph} :
    g'.restoreLast net = .ok u ↔ (∀ m ∈ g.log.marks.head?, m ≤ g.log.size) ∧ u = g := by
  obtain ⟨cs, hlog, hundo⟩ := h
  have hundo' : undoAll net { g' with log := g.log } cs = .ok g := by
    have := @undoAll_withLog net { g' with log := g.save.log } g.log cs
    rw [hundo] at this
    exact this
  unfold restoreLast
  have hlog' : g'.log = ⟨cs ++ g.log.events, g.log.save.marks⟩ := hlog
  simp only [Checked.bind_eq_ok, hlog', UndoLog.restoreLast_append]
  constructor
  · rintro ⟨-, ⟨hmarks, rfl⟩, hu⟩
    exact ⟨hmarks, Except.ok.inj (hu.symm.trans hundo')⟩
  · rintro ⟨hmarks, rfl⟩
    exact ⟨_, ⟨hmarks, rfl⟩, hundo'⟩

end ActiveGraph

end TemporalNetwork
