/-
Levels of a theory, and going back over them.

A state extends an older one if the problem is the same and the rest of
it came about by recorded changes: undoing the changes gives back what
was known, whether there was a conflict, and the graph, and the queues
begin with what they held. `Extends` holds of each step and composes, so
that it holds between a checkpoint and every later state of its level.

A theory rests on the states that were saved below it: `Stack` lists
them, newest first, each settled and each extended by the next. Closing a
level leads back to the state on top of the list, but for what no
checkpoint covers: variables added meanwhile, the options, the counts,
and the record that the queues keep of having gone back.
-/
import TemporalNetwork.Proofs.Theory.Extension
import TemporalNetwork.Theory.Checkpoint

namespace TemporalNetwork

/-- Taking back what was appended since the queue was saved. -/
theorem EventQueue.restoreLast_eq_ok {α : Type} {q q' u : EventQueue α}
    (hnew : ∃ new, q'.events = q.events ++ new) (hmarks : q'.marks = q.save.marks) :
    q'.restoreLast = .ok u ↔ u = { q with backtracks := q'.backtracks.push q.size } := by
  obtain ⟨new, hnew⟩ := hnew
  have htake : q'.events.take q.events.size = q.events := by
    rw [hnew, Array.take_eq_extract, Array.extract_append_left, Array.extract_size]
  unfold restoreLast
  rw [hmarks]
  simp only [save, size, htake, Except.ok.injEq]
  exact eq_comm

namespace Theory

variable {t t' t'' u : Theory} {l : Literal} {v : BoolVar} {cs cs' : List TheoryChange}
  {ts : List Theory}

-- =============================================================== extension

/-- Undoing the changes gives back what was known, and the conflict. -/
structure Undoes (cs : List TheoryChange) (t t' : Theory) : Prop where
  known (v : BoolVar) : t.known v = if .literalSet v ∈ cs then none else t'.known v
  conflict : t.conflict = if .conflictRecorded ∈ cs then none else t'.conflict

/-- Changes are undone in reverse, the later ones first. -/
theorem Undoes.append (h : Undoes cs t t') (h' : Undoes cs' t' t'') :
    Undoes (cs' ++ cs) t t'' := by
  refine ⟨fun v => ?_, ?_⟩
  · rw [h.known, h'.known]
    by_cases hv : .literalSet v ∈ cs
    · simp [hv]
    · simp [hv]
  · rw [h.conflict, h'.conflict]
    by_cases hc : .conflictRecorded ∈ cs
    · simp [hc]
    · simp [hc]

/-- The second state came from the first by recorded changes. -/
structure Extends (t t' : Theory) : Prop where
  network : t'.network = t.network
  bindings : t'.bindings = t.bindings
  graph : ActiveGraph.Extends t.network t.graph t'.graph
  size : t.values.size ≤ t'.values.size
  changes : ∃ cs, t'.log = { t.log with events := cs ++ t.log.events } ∧ Undoes cs t t'
  assignments : ∃ new, t'.assignments.events = t.assignments.events ++ new
  assignmentMarks : t'.assignments.marks = t.assignments.marks
  implications : ∃ new, t'.implications.events = t.implications.events ++ new
  implicationMarks : t'.implications.marks = t.implications.marks

/-- What is recorded in turn is recorded on the level. -/
theorem Extends.trans (h : Extends t t') (h' : Extends t' t'') : Extends t t'' where
  network := h'.network.trans h.network
  bindings := h'.bindings.trans h.bindings
  graph := by
    have hgraph := h'.graph
    rw [h.network] at hgraph
    exact h.graph.trans hgraph
  size := Nat.le_trans h.size h'.size
  changes := by
    obtain ⟨cs, hlog, hundoes⟩ := h.changes
    obtain ⟨cs', hlog', hundoes'⟩ := h'.changes
    refine ⟨cs' ++ cs, ?_, hundoes.append hundoes'⟩
    rw [hlog', hlog, List.append_assoc]
  assignments := by
    obtain ⟨new, hnew⟩ := h.assignments
    obtain ⟨new', hnew'⟩ := h'.assignments
    exact ⟨new ++ new', by rw [hnew', hnew, Array.append_assoc]⟩
  assignmentMarks := h'.assignmentMarks.trans h.assignmentMarks
  implications := by
    obtain ⟨new, hnew⟩ := h.implications
    obtain ⟨new', hnew'⟩ := h'.implications
    exact ⟨new ++ new', by rw [hnew', hnew, Array.append_assoc]⟩
  implicationMarks := h'.implicationMarks.trans h.implicationMarks

/-- Nothing that is recorded has changed. -/
structure Agrees (t t' : Theory) : Prop where
  network : t'.network = t.network
  bindings : t'.bindings = t.bindings
  graph : t'.graph = t.graph
  size : t.values.size ≤ t'.values.size
  known (v : BoolVar) : t'.known v = t.known v
  log : t'.log = t.log
  conflict : t'.conflict = t.conflict
  assignmentEvents : t'.assignments.events = t.assignments.events
  assignmentMarks : t'.assignments.marks = t.assignments.marks
  implicationEvents : t'.implications.events = t.implications.events
  implicationMarks : t'.implications.marks = t.implications.marks

theorem Agrees.refl (t : Theory) : Agrees t t :=
  ⟨rfl, rfl, rfl, Nat.le_refl _, fun _ => rfl, rfl, rfl, rfl, rfl, rfl, rfl⟩

/-- Where nothing was recorded there is nothing to be undone. -/
theorem Agrees.extends (h : Agrees t t') : Extends t t' where
  network := h.network
  bindings := h.bindings
  graph := by
    rw [h.graph]
    exact .refl _
  size := h.size
  changes := by
    refine ⟨[], h.log, fun v => ?_, ?_⟩
    · rw [if_neg List.not_mem_nil]
      exact (h.known v).symm
    · rw [if_neg List.not_mem_nil]
      exact h.conflict.symm
  assignments := ⟨#[], by rw [h.assignmentEvents, Array.append_empty]⟩
  assignmentMarks := h.assignmentMarks
  implications := ⟨#[], by rw [h.implicationEvents, Array.append_empty]⟩
  implicationMarks := h.implicationMarks

theorem Extends.refl (t : Theory) : Extends t t := (Agrees.refl t).extends

theorem Agrees.trueLiterals (h : Agrees t t') : t'.trueLiterals = t.trueLiterals := by
  unfold Theory.trueLiterals
  rw [value_congr h.known]

/-- A state that agrees with a settled one, and has nothing pending. -/
theorem Agrees.settled (h : Agrees t t') (ht : t.Settled) (hrest : t'.pending = []) :
    t'.Settled := by
  have hvar : ∀ v, t.hasVariable v = true → t'.hasVariable v = true := by
    intro v hv
    have hlt : Handle.index v < t.values.size := (HandleVector.contains_iff _ _).mp hv
    exact (HandleVector.contains_iff _ _).mpr (Nat.lt_of_lt_of_le hlt h.size)
  have hcoh := ht.coherent
  -- each field speaks of parts in which the two agree
  refine ⟨⟨?_, ?_, ?_, ?_, ?_, ?_, ?_, ?_, ?_, ?_, ?_, ?_, ?_⟩, hrest, ?_,
    ht.fired.congr h.bindings h.graph h.known⟩
  · rw [h.network]
    exact hcoh.network
  · rw [h.network]
    exact hcoh.enforced
  · rw [h.network]
    exact hcoh.limited
  · rw [h.network, h.graph]
    exact hcoh.graph
  · intro id l hid hl
    rw [h.network] at hid hl
    exact hvar _ (hcoh.guard id l hid hl)
  · intro l id
    rw [h.network, h.bindings]
    exact hcoh.bound l id
  · intro d tp w hw
    rw [h.bindings] at hw
    rw [h.network]
    obtain ⟨hv, hedge⟩ := hcoh.watched d tp w hw
    exact ⟨hvar _ hv, hedge⟩
  · intro l
    rw [EventQueue.toList, h.assignmentEvents, h.trueLiterals]
    exact hcoh.assigned l
  · rw [EventQueue.toList, h.assignmentEvents]
    exact hcoh.once
  · intro id hid
    rw [h.graph] at hid
    rw [h.network, h.trueLiterals]
    exact hcoh.active id hid
  · intro id hid
    rw [hrest] at hid
    exact absurd hid List.not_mem_nil
  · intro c hc
    rw [h.conflict] at hc
    rw [h.network, h.trueLiterals]
    exact hcoh.conflict c hc
  · intro i hi
    rw [EventQueue.toList, h.implicationEvents] at hi
    rw [h.network]
    exact hcoh.implied i hi
  · intro hnone id hid
    rw [h.conflict] at hnone
    rw [h.network, h.trueLiterals] at hid
    rw [h.graph]
    exact .inl (ht.enabledBy_active hnone hid)

-- ================================================= what is recorded of steps

/-- A literal that is set is recorded on the level, with its variable. -/
theorem extends_setLiteral (t : Theory) (l : Literal) : Extends t (t.setLiteral l) := by
  cases h : t.value l with
  | some b =>
      rw [setLiteral_of_some h]
      exact .refl t
  | none =>
      have hsize : (t.values.set l.var (some l.positive)).size = t.values.size :=
        HandleVector.size_set _ _ _
      have hknown : t.known l.var = none := value_eq_none_iff.mp h
      rw [setLiteral_of_none h]
      refine ⟨rfl, rfl, .refl _, Nat.le_of_eq hsize.symm, ⟨[.literalSet l.var], rfl, ?_, ?_⟩,
        ⟨#[l], rfl⟩, rfl, ⟨#[], (Array.append_empty).symm⟩, rfl⟩
      · intro v
        by_cases hv : v = l.var
        · subst hv
          rw [if_pos List.mem_cons_self]
          exact hknown
        · rw [if_neg]
          · unfold Theory.known
            rw [HandleVector.get?_set, if_neg fun hc => hv (Handle.index_inj.mp hc).symm]
          · intro hmem
            cases List.mem_singleton.mp hmem
            exact hv rfl
      · rw [if_neg]
        intro hmem
        cases List.mem_singleton.mp hmem

/-- Each step of propagation records what it changes: literals that it sets, a
conflict that it finds, and the edges that it puts in force in the log of the
graph. -/
theorem Step.extends (h : Step t t') : Extends t t' := by
  cases h with
  | counted stats =>
      exact Agrees.extends
        ⟨rfl, rfl, rfl, Nat.le_refl _, fun _ => rfl, rfl, rfl, rfl, rfl, rfl, rfl⟩
  | dropped sub =>
      exact Agrees.extends
        ⟨rfl, rfl, rfl, Nat.le_refl _, fun _ => rfl, rfl, rfl, rfl, rfl, rfl, rfl⟩
  -- the literal is logged and appended to both queues
  | implied hnone hvar htrue hvalid =>
      rename_i l x
      have hset := extends_setLiteral t l
      obtain ⟨cs, hlog, hundoes⟩ := hset.changes
      obtain ⟨new, hnew⟩ := hset.implications
      rw [imply_of_none hnone]
      refine ⟨hset.network, hset.bindings, hset.graph, hset.size,
        ⟨cs, hlog, hundoes.known, hundoes.conflict⟩, hset.assignments, hset.assignmentMarks, ?_,
        hset.implicationMarks⟩
      refine ⟨new.push ⟨l, x.sorted⟩, ?_⟩
      show (t.setLiteral l).implications.events.push _ = _
      rw [hnew, Array.push_append]
  -- the graph keeps its own log
  | activated henabled haccepts hgrounded =>
      have hrefl := Extends.refl t
      obtain ⟨cs, hlog, hundoes⟩ := hrefl.changes
      exact ⟨rfl, rfl, haccepts.extended, Nat.le_refl _,
        ⟨cs, hlog, hundoes.known, hundoes.conflict⟩, hrefl.assignments, rfl,
        hrefl.implications, rfl⟩
  | refuted hnone henabled hvalid =>
      have hrefl := Extends.refl t
      refine ⟨rfl, rfl, .refl _, Nat.le_refl _, ⟨[.conflictRecorded], rfl, fun v => ?_, ?_⟩,
        hrefl.assignments, rfl, hrefl.implications, rfl⟩
      · rw [if_neg]
        · rfl
        · intro hmem
          cases List.mem_singleton.mp hmem
      · rw [if_pos List.mem_cons_self]
        exact hnone

theorem Steps.extends (h : Steps t t') : Extends t t' := by
  induction h with
  | refl => exact .refl t
  | tail _ hstep ih => exact ih.trans hstep.extends

-- ==================================================== saving and restoring

/-- The state that is marked when a checkpoint is opened. -/
def saved (t : Theory) : Theory :=
  { t with
    log := t.log.save
    graph := t.graph.save
    assignments := t.assignments.save
    implications := t.implications.save }

/-- A level is opened when nothing is pending, and only then. -/
theorem pushCheckpoint_eq_ok : t.pushCheckpoint = .ok u ↔ t.pending = [] ∧ u = t.saved := by
  unfold pushCheckpoint
  simp only [Checked.bind_eq_ok, Checked.require_eq_ok, Checked.pure_eq_ok]
  constructor
  · rintro ⟨-, hrest, rfl⟩
    exact ⟨hrest, rfl⟩
  · rintro ⟨hrest, rfl⟩
    exact ⟨(), hrest, rfl⟩

/-- A level that is opened changes nothing that matters to propagation. -/
theorem settled_saved (ht : t.Settled) : t.saved.Settled := by
  have hgraph : t.graph.save.Grounded t.network := ht.coherent.graph.save
  have hcoh := ht.coherent
  refine ⟨⟨hcoh.network, hcoh.enforced, hcoh.limited, hgraph, hcoh.guard, hcoh.bound, hcoh.watched,
    hcoh.assigned, hcoh.once, hcoh.active, hcoh.pending, hcoh.conflict, hcoh.implied⟩, ht.rest,
    ht.covered, fun d x w hw hle => ht.fired d x w hw ?_⟩
  have hvalue : t.saved.graph.value = t.graph.value :=
    ActiveGraph.value_withLog t.graph t.graph.log.save
  rwa [hvalue] at hle

/-- A change to a literal is undone by forgetting its variable. -/
theorem known_undo (t : Theory) (c : TheoryChange) (v : BoolVar) :
    (t.undo c).known v = if c = .literalSet v then none else t.known v := by
  cases c with
  | literalSet w =>
      unfold undo Theory.known
      simp only [HandleVector.get?_set, TheoryChange.literalSet.injEq]
      by_cases hw : w = v
      · subst hw
        rw [if_pos rfl, if_pos rfl]
        split <;> rfl
      · rw [if_neg fun hc => hw (Handle.index_inj.mp hc), if_neg hw]
  | conflictRecorded => rfl

/-- What undoing changes, and that it changes nothing else. -/
theorem foldl_undo (cs : List TheoryChange) (t : Theory) :
    ∃ values conflict, cs.foldl undo t = { t with values, conflict } ∧
      values.size = t.values.size ∧
      (∀ v, (values.get? v).getD none = if .literalSet v ∈ cs then none else t.known v) ∧
      conflict = if .conflictRecorded ∈ cs then none else t.conflict := by
  induction cs generalizing t with
  | nil =>
      refine ⟨t.values, t.conflict, rfl, rfl, fun v => ?_, ?_⟩
      · rw [if_neg List.not_mem_nil]
        rfl
      · rw [if_neg List.not_mem_nil]
  | cons c cs ih =>
      obtain ⟨values, conflict, heq, hsize, hknown, hconflict⟩ := ih (t.undo c)
      refine ⟨values, conflict, ?_, ?_, fun v => ?_, ?_⟩
      · rw [List.foldl_cons, heq]
        cases c <;> rfl
      · rw [hsize]
        cases c with
        | literalSet w => exact HandleVector.size_set _ _ _
        | conflictRecorded => rfl
      · rw [hknown, known_undo]
        simp only [List.mem_cons]
        by_cases hc : c = .literalSet v
        · simp [hc]
        · have hc' : ¬ .literalSet v = c := fun h => hc h.symm
          simp [hc, hc']
      · rw [hconflict]
        cases c with
        | literalSet w => simp [undo]
        | conflictRecorded => simp [undo]

/-- How a level is closed: the state is what was saved, and the queue of
true literals has noted its size. -/
structure Returns (t t' u : Theory) : Prop where
  agrees : Agrees t u
  rest : u.pending = []
  size : u.values.size = t'.values.size
  backtracks : u.assignments.backtracks = t'.assignments.backtracks.push t.assignments.size

/-- Closing a level leads back to the state that was saved. -/
theorem returns_of_restoreLast (h : Extends t.saved t') (hrun : t'.restoreLast = .ok u) :
    Returns t t' u := by
  obtain ⟨cs, hlog, hundoes⟩ := h.changes
  have hlog' : t'.log = ⟨cs ++ t.log.events, t.log.save.marks⟩ := hlog
  have hnetwork : t'.network = t.network := h.network
  unfold restoreLast at hrun
  simp only [Checked.bind_eq_ok, hlog', UndoLog.restoreLast_append] at hrun
  obtain ⟨-, ⟨-, rfl⟩, hrun⟩ := hrun
  obtain ⟨values, conflict, heq, hsize, hknown, hconflict⟩ :=
    foldl_undo cs { t' with log := t.log, pending := [] }
  rw [heq] at hrun
  obtain ⟨g, hgraph, a, hassignments, i, himplications, hu⟩ := hrun
  simp only at hgraph hassignments himplications hu
  have hgraph' : ActiveGraph.Extends t.network t.graph.save t'.graph := h.graph
  rw [hnetwork, ActiveGraph.Extends.restoreLast_eq_ok hgraph'] at hgraph
  obtain ⟨-, rfl⟩ := hgraph
  have hassignments' := EventQueue.restoreLast_eq_ok (q := t.assignments) (u := a)
    h.assignments h.assignmentMarks
  have himplications' := EventQueue.restoreLast_eq_ok (q := t.implications) (u := i)
    h.implications h.implicationMarks
  obtain rfl := hassignments'.mp hassignments
  obtain rfl := himplications'.mp himplications
  cases hu
  refine ⟨⟨hnetwork, h.bindings, rfl, ?_, fun v => ?_, rfl, ?_, rfl, rfl, rfl, rfl⟩, rfl,
    hsize, rfl⟩
  · rw [hsize]
    exact h.size
  · exact (hknown v).trans (hundoes.known v).symm
  · exact hconflict.trans hundoes.conflict.symm

-- ==================================================================== stack

/-- No state is saved. -/
structure AtRoot (t : Theory) : Prop where
  log : t.log.marks = []
  graph : t.graph.log.marks = []
  assignments : t.assignments.marks = []
  implications : t.implications.marks = []

theorem atRoot_initial (c : Config) : (initial c).AtRoot := ⟨rfl, rfl, rfl, rfl⟩

theorem AtRoot.sameLevels (h : t.AtRoot) (h' : SameLevels t t') : t'.AtRoot :=
  ⟨h'.log.trans h.log, h'.graph.trans h.graph, h'.assignments.trans h.assignments,
    h'.implications.trans h.implications⟩

/-- Recording on a level opens and closes none. -/
theorem Extends.sameLevels (h : Extends t t') : SameLevels t t' := by
  obtain ⟨cs, hlog, -⟩ := h.changes
  refine ⟨?_, h.graph.marks, h.assignmentMarks, h.implicationMarks⟩
  rw [hlog]

/-- The theory rests on the states saved below it, newest first. -/
inductive Stack : List Theory → Theory → Prop where
  | root {t : Theory} (settled : t.Settled) (level : t.AtRoot) : Stack [] t
  | above {ts : List Theory} {t₀ t : Theory} (settled : t.Settled)
      (extended : Extends t₀.saved t) (below : Stack ts t₀) : Stack (t₀ :: ts) t

theorem Stack.settled (h : Stack ts t) : t.Settled := by
  cases h with
  | root settled level => exact settled
  | above settled extended below => exact settled

/-- The level is the number of saved states. -/
theorem Stack.depth (h : Stack ts t) : t.log.marks.length = ts.length := by
  induction h with
  | root settled level =>
      rw [level.log]
      rfl
  | above settled extended below ih =>
      have hmarks := extended.sameLevels.log
      rw [hmarks, List.length_cons, ← ih]
      rfl

/-- The last level begins where the queue of true literals stood. -/
theorem Stack.mark_le (h : Stack ts t) :
    t.assignments.marks.headD 0 ≤ t.assignments.size := by
  cases h with
  | root settled level =>
      rw [level.assignments]
      exact Nat.zero_le _
  | above settled extended below =>
      obtain ⟨new, hnew⟩ := extended.assignments
      rw [extended.assignmentMarks, EventQueue.size, hnew, Array.size_append]
      exact Nat.le_add_right _ _

/-- Whatever is recorded happens above the saved states. -/
theorem Stack.extends (h : Stack ts t) (hextends : Extends t t') (ht' : t'.Settled) :
    Stack ts t' := by
  cases h with
  | root settled level => exact .root ht' (level.sameLevels hextends.sameLevels)
  | above settled extended below => exact .above ht' (extended.trans hextends) below

/-- The problem can be set up at the root, where nothing is saved. -/
theorem Stack.settles (h : Stack [] t) (hsettles : Settles t t') : Stack [] t' := by
  cases h with
  | root settled level =>
      exact .root hsettles.settled (level.sameLevels hsettles.changes.sameLevels)

theorem Stack.saved (h : Stack ts t) : Stack (t :: ts) t.saved :=
  .above (settled_saved h.settled) (.refl _) h

/-- The last level is closed. -/
theorem Stack.restoreLast (h : Stack ts t) (hrun : t.restoreLast = .ok u) :
    ∃ t₀ rest, ts = t₀ :: rest ∧ Returns t₀ t u ∧ Stack rest u := by
  cases h with
  | root settled level =>
      unfold Theory.restoreLast UndoLog.restoreLast at hrun
      rw [level.log] at hrun
      cases hrun
  | above settled extended below =>
      have hreturns := returns_of_restoreLast extended hrun
      exact ⟨_, _, rfl, hreturns, below.extends hreturns.agrees.extends
        (hreturns.agrees.settled below.settled hreturns.rest)⟩

end Theory

end TemporalNetwork
