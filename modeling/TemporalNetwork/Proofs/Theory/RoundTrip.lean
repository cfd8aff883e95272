/-
Checkpoints as round trips.

Whatever is done above a checkpoint, going back to it gives the state
that was there. The states saved below a theory are its stack, and each
level is closed onto the state on top of it: closing levels down to a
saved state therefore always succeeds, and agrees with that state in all
that a checkpoint covers. What is asked of a theory closes levels, opens
one, or reopens one, so that as long as the level is not left the state
saved below it stays in the stack, up to agreement.

# What is not covered

Options, counts and variables without a value belong to no level.
-/
import Mathlib.Data.List.Infix
import TemporalNetwork.Proofs.Theory.History

namespace TemporalNetwork

namespace Theory

variable {t t' t'' t₁ u : Theory} {ts ts' pre : List Theory} {c : Config} {rs : List Request}

/-- Agreement is transitive. -/
theorem Agrees.trans (h : Agrees t t') (h' : Agrees t' t'') : Agrees t t'' where
  network := h'.network.trans h.network
  bindings := h'.bindings.trans h.bindings
  graph := h'.graph.trans h.graph
  size := Nat.le_trans h.size h'.size
  known v := (h'.known v).trans (h.known v)
  log := h'.log.trans h.log
  conflict := h'.conflict.trans h.conflict
  assignmentEvents := h'.assignmentEvents.trans h.assignmentEvents
  assignmentMarks := h'.assignmentMarks.trans h.assignmentMarks
  implicationEvents := h'.implicationEvents.trans h.implicationEvents
  implicationMarks := h'.implicationMarks.trans h.implicationMarks

/-- Checkpoints on states that agree are the same checkpoint. -/
theorem Agrees.saved (h : Agrees t t') : Agrees t.saved t'.saved where
  network := h.network
  bindings := h.bindings
  graph := congrArg ActiveGraph.save h.graph
  size := h.size
  known := h.known
  log := congrArg UndoLog.save h.log
  conflict := h.conflict
  assignmentEvents := h.assignmentEvents
  assignmentMarks := by
    show t'.assignments.events.size :: _ = t.assignments.events.size :: _
    rw [h.assignmentEvents, h.assignmentMarks]
  implicationEvents := h.implicationEvents
  implicationMarks := by
    show t'.implications.events.size :: _ = t.implications.events.size :: _
    rw [h.implicationEvents, h.implicationMarks]

-- =========================================================== closing levels

/-- The marks of both logs point to events that are there. -/
theorem Stack.marks (h : Stack ts t) : (∀ m ∈ t.log.marks.head?, m ≤ t.log.size) ∧
    ∀ m ∈ t.graph.log.marks.head?, m ≤ t.graph.log.size := by
  cases h with
  | root settled level =>
      rw [level.log, level.graph]
      exact ⟨fun m hm => absurd hm (Option.not_mem_none m),
        fun m hm => absurd hm (Option.not_mem_none m)⟩
  | @above _ t₀ _ settled extended below =>
      obtain ⟨cs, hlog, -⟩ := extended.changes
      obtain ⟨gs, hgraph, -⟩ := extended.graph
      constructor
      · intro m hm
        rw [hlog] at hm ⊢
        obtain rfl : t₀.log.size = m := Option.some.inj hm
        show _ ≤ (cs ++ t₀.log.events).length
        rw [List.length_append]
        exact Nat.le_add_left _ _
      · intro m hm
        rw [hgraph] at hm ⊢
        obtain rfl : t₀.graph.log.size = m := Option.some.inj hm
        show _ ≤ (gs ++ t₀.graph.log.events).length
        rw [List.length_append]
        exact Nat.le_add_left _ _

/-- A level that is open can be closed. -/
theorem Stack.exists_restoreLast (h : Stack (t₁ :: ts) t) : ∃ u, t.restoreLast = .ok u := by
  cases h with
  | above settled extended below =>
      obtain ⟨hmark, hgraphMark⟩ := below.marks
      obtain ⟨cs, hlog, -⟩ := extended.changes
      have hlog' : t.log = ⟨cs ++ t₁.log.events, t₁.log.save.marks⟩ := hlog
      have hnetwork : t.network = t₁.network := extended.network
      obtain ⟨values, conflict, hundo, -⟩ := foldl_undo cs { t with log := t₁.log, pending := [] }
      have hgraph : ActiveGraph.Extends t₁.network t₁.graph.save t.graph := extended.graph
      unfold Theory.restoreLast
      refine Checked.exists_bind ⟨(t₁.log, cs), ?_⟩ fun a ha => ?_
      · rw [hlog', UndoLog.restoreLast_append]
        exact ⟨hmark, rfl⟩
      rw [hlog', UndoLog.restoreLast_append] at ha
      obtain ⟨-, rfl⟩ := ha
      simp only [hundo]
      simp only [hnetwork]
      refine Checked.exists_bind ⟨_, hgraph.restoreLast_eq_ok.mpr ⟨hgraphMark, rfl⟩⟩ fun g _ => ?_
      refine Checked.exists_bind ⟨_, (EventQueue.restoreLast_eq_ok (q := t₁.assignments)
        extended.assignments extended.assignmentMarks).mpr rfl⟩ fun a _ => ?_
      refine Checked.exists_bind ⟨_, (EventQueue.restoreLast_eq_ok (q := t₁.implications)
        extended.implications extended.implicationMarks).mpr rfl⟩ fun i _ => ?_
      exact ⟨_, rfl⟩

/-- Closing levels down to a saved state gives that state back. -/
theorem Stack.restoreTimes (h : Stack (pre ++ t₁ :: ts) t) :
    ∃ u, t.restoreTimes (pre.length + 1) = .ok u ∧ Agrees t₁ u ∧ u.pending = [] ∧ Stack ts u := by
  induction pre generalizing t with
  | nil =>
      obtain ⟨u, hlast⟩ := h.exists_restoreLast
      obtain ⟨_, _, heq, hreturns, hstack⟩ := h.restoreLast hlast
      cases heq
      refine ⟨u, ?_, hreturns.agrees, hreturns.rest, hstack⟩
      show t.restoreLast >>= _ = _
      rw [hlast]
      rfl
  | cons t₀ pre ih =>
      obtain ⟨u, hlast⟩ := h.exists_restoreLast
      obtain ⟨_, _, heq, -, hstack⟩ := h.restoreLast hlast
      cases heq
      obtain ⟨w, hrest, hw⟩ := ih hstack
      refine ⟨w, ?_, hw⟩
      show t.restoreLast >>= _ = _
      rw [hlast]
      exact hrest

/-- Levels can be closed in two goes. -/
theorem restoreTimes_add (t : Theory) (m n : Nat) :
    t.restoreTimes (m + n) = t.restoreTimes m >>= fun t => t.restoreTimes n := by
  induction m generalizing t with
  | zero => rw [Nat.zero_add]; rfl
  | succ m ih =>
      rw [Nat.succ_add]
      show t.restoreLast >>= _ = (t.restoreLast >>= _) >>= _
      cases t.restoreLast with
      | error f => rfl
      | ok u => exact ih u

theorem Stack.level_eq (h : Stack ts t) : t.level = ⟨ts.length⟩ := congrArg _ h.depth

/-- Going down to the level below a saved state. -/
theorem Stack.backtrack (h : Stack (pre ++ t₁ :: ts) t) :
    ∃ u, t.backtrack ⟨ts.length⟩ = .ok (u, .ok ()) ∧ Agrees t₁ u ∧ u.pending = [] ∧
      Stack ts u := by
  obtain ⟨u, hrun, hu⟩ := h.restoreTimes
  have hcount : t.level.depth - ts.length = pre.length + 1 := by
    rw [h.level_eq, List.length_append, List.length_cons]
    show pre.length + (ts.length + 1) - ts.length = _
    omega
  have hrestore : t.restore ⟨ts.length⟩ = .ok u := by
    unfold restore
    rw [hcount]
    exact hrun
  have hnot : ¬ t.level.depth < (⟨ts.length⟩ : DecisionLevel).depth := by
    show ¬ _ < ts.length
    omega
  refine ⟨u, ?_, hu⟩
  unfold Theory.backtrack
  rw [if_neg hnot, hrestore]
  rfl

/-- Going back to the level above a saved state, and opening it again. -/
theorem Stack.popTo (h : Stack (pre ++ t₁ :: ts) t) :
    ∃ u, t.popTo ⟨ts.length + 1⟩ = .ok (u.saved, .ok ()) ∧ Agrees t₁ u ∧ u.pending = [] ∧
      Stack ts u := by
  obtain ⟨u, hrun, hagrees, hrest, hstack⟩ := h.restoreTimes
  have hlevel : t.level.depth = pre.length + (ts.length + 1) := by
    rw [h.level_eq, List.length_append, List.length_cons]
  rw [restoreTimes_add, Checked.bind_eq_ok] at hrun
  obtain ⟨w, hfirst, hlast⟩ := hrun
  have hw : w.level = ⟨ts.length + 1⟩ := by
    have := (turns_restoreTimes h hfirst).stack h
    rw [this.level_eq, List.drop_left]
    rfl
  have hrestore : t.restore ⟨ts.length + 1⟩ = .ok w := by
    unfold restore
    rw [show t.level.depth - (⟨ts.length + 1⟩ : DecisionLevel).depth = pre.length by
      show _ - (ts.length + 1) = _; omega]
    exact hfirst
  have hparent : w.restore ⟨ts.length⟩ = .ok u := by
    unfold restore
    rw [hw, show (⟨ts.length + 1⟩ : DecisionLevel).depth - (⟨ts.length⟩ : DecisionLevel).depth = 1
      from Nat.add_sub_cancel_left _ _]
    exact hlast
  refine ⟨u, ?_, hagrees, hrest, hstack⟩
  have hnot : ¬ t.level.depth < (⟨ts.length + 1⟩ : DecisionLevel).depth := by
    show ¬ _ < ts.length + 1
    omega
  have hpush : u.pushCheckpoint = .ok u.saved := pushCheckpoint_eq_ok.mpr ⟨hrest, rfl⟩
  have hreopened : u.saved.level = ⟨ts.length + 1⟩ := hstack.saved.level_eq
  unfold Theory.popTo
  simp only [DecisionLevel.parent?, if_neg hnot, Checked.bind_eq_ok, hrestore, hparent, hpush,
    Except.ok.injEq, exists_eq_left', Checked.require_of hreopened]
  exact ⟨(), trivial, rfl⟩

-- ======================================================= staying on a level

/-- What `popTo` is asked for: a level that is not open, the root, or a
level that is opened again on the state saved below it. -/
theorem Stack.popTo_cases {level : DecisionLevel} {r : Except Misuse Unit} (h : Stack ts t)
    (hrun : t.popTo level = .ok (t', r)) :
    (∃ ts', ts' <:+ ts ∧ Stack ts' t') ∨
      ∃ t₀ rest w, t₀ :: rest <:+ ts ∧ Agrees t₀ w ∧ Stack (w :: rest) t' := by
  obtain ⟨depth⟩ := level
  cases depth with
  | zero =>
      obtain ⟨ts', hturns, hsuffix⟩ := turns_backtrack h hrun
      exact .inl ⟨ts', hsuffix, hturns.stack h⟩
  | succ k =>
      by_cases hopen : t.level.depth < k + 1
      · have hsame : t.popTo ⟨k + 1⟩ = .ok (t, .error (.unknownLevel ⟨k + 1⟩ t.level)) :=
          if_pos hopen
        cases hsame.symm.trans hrun
        exact .inl ⟨ts, List.suffix_refl ts, h⟩
      · have hlength : k + 1 ≤ ts.length := by
          rw [h.level_eq] at hopen
          exact Nat.not_lt.mp hopen
        have hdrop : (ts.drop (ts.length - (k + 1))).length = k + 1 := by
          rw [List.length_drop]
          omega
        cases hsplit : ts.drop (ts.length - (k + 1)) with
        | nil =>
            rw [hsplit] at hdrop
            cases hdrop
        | cons t₀ rest =>
            have hrest : rest.length = k := by
              rw [hsplit] at hdrop
              exact Nat.succ.inj hdrop
            -- the level is the one that was saved on the suffix of its depth
            have hts : ts = ts.take (ts.length - (k + 1)) ++ t₀ :: rest := by
              rw [← hsplit, List.take_append_drop]
            have hstack := h
            rw [hts] at hstack
            obtain ⟨w, hpop, hagrees, -, hbelow⟩ := hstack.popTo
            rw [hrest] at hpop
            cases hpop.symm.trans hrun
            exact .inr ⟨t₀, rest, w, hsplit ▸ List.drop_suffix _ _, hagrees, hbelow.saved⟩

/-- A level that a request does not leave rests on the state that it
rested on before, up to agreement. -/
theorem Stack.perform_above {r : Request} {reply : Reply} (h : Stack (pre ++ t₁ :: ts) t)
    (hrun : t.perform r = .ok (t', reply)) (hlevel : ts.length < t'.level.depth) :
    ∃ pre' t₁', Stack (pre' ++ t₁' :: ts) t' ∧ Agrees t₁ t₁' := by
  have hbelow : t₁ :: ts <:+ pre ++ t₁ :: ts := List.suffix_append _ _
  have hlength : ∀ ts', Stack ts' t' → (t₁ :: ts).length ≤ ts'.length := by
    intro ts' hstack
    rw [hstack.level_eq] at hlevel
    exact hlevel
  -- a part of the stack that is long enough reaches down to the state
  have hsuffix : ∀ ts', ts' <:+ pre ++ t₁ :: ts → Stack ts' t' →
      ∃ pre' t₁', Stack (pre' ++ t₁' :: ts) t' ∧ Agrees t₁ t₁' := by
    intro ts' hts' hstack
    obtain ⟨pre', rfl⟩ := List.suffix_of_suffix_length_le hbelow hts' (hlength ts' hstack)
    exact ⟨pre', t₁, hstack, .refl t₁⟩
  by_cases hassign : ∃ l, r = .assign l
  · obtain ⟨l, rfl⟩ := hassign
    obtain ⟨a, hset, -⟩ := replying_eq_ok.mp hrun
    obtain ⟨hextends, -, hsettled⟩ := extends_assign h.settled hset
    exact hsuffix _ (List.suffix_refl _) (h.extends hextends hsettled)
  by_cases hpop : ∃ level, r = .popTo level
  · obtain ⟨level, rfl⟩ := hpop
    obtain ⟨a, hpopped, -⟩ := replying_eq_ok.mp hrun
    rcases h.popTo_cases hpopped with ⟨ts', hts', hstack⟩ | ⟨t₀, rest, w, hrest, hagrees, hstack⟩
    · exact hsuffix ts' hts' hstack
    · -- the level was opened again on `w`, which takes the place of `t₀`
      obtain ⟨pre', hpre⟩ := List.suffix_of_suffix_length_le hbelow hrest (hlength _ hstack :)
      cases pre' with
      | nil =>
          cases hpre
          exact ⟨[], w, hstack, hagrees⟩
      | cons t₂ pre' =>
          cases hpre
          exact ⟨w :: pre', t₁, hstack, .refl t₁⟩
  · obtain ⟨ts', hturns, hts'⟩ := turns_perform h (fun l hl => hassign ⟨l, hl⟩) hrun
    rcases hts' (fun level hl => hpop ⟨level, hl⟩) with hts' | rfl
    · exact hsuffix ts' hts' (hturns.stack h)
    · exact ⟨t :: pre, t₁, hturns.stack h, .refl t₁⟩

/-- Requests can be made in two goes. -/
theorem performAll_append (t : Theory) (rs rs' : List Request) :
    t.performAll (rs ++ rs') = t.performAll rs >>= fun t => t.performAll rs' := by
  induction rs generalizing t with
  | nil => rfl
  | cons r rs ih =>
      show t.perform r >>= _ = (t.perform r >>= _) >>= _
      cases t.perform r with
      | error f => rfl
      | ok a => exact ih a.1

/-- Requests that do not leave a level, one after the other. -/
theorem Stack.performAll_above (h : Stack (pre ++ t₁ :: ts) t) (hrun : t.performAll rs = .ok t')
    (hlevel : ∀ first, first <+: rs → ∀ u, t.performAll first = .ok u →
      ts.length < u.level.depth) :
    ∃ pre' t₁', Stack (pre' ++ t₁' :: ts) t' ∧ Agrees t₁ t₁' := by
  induction rs generalizing pre t₁ t with
  | nil =>
      cases hrun
      exact ⟨pre, t₁, h, .refl t₁⟩
  | cons r rs ih =>
      unfold Theory.performAll at hrun
      rw [Checked.bind_eq_ok] at hrun
      obtain ⟨⟨u, reply⟩, hfirst, hrest⟩ := hrun
      have hstep : ∀ first w, u.performAll first = .ok w →
          t.performAll (r :: first) = .ok w := by
        intro first w hw
        unfold Theory.performAll
        rw [hfirst]
        exact hw
      have hu : ts.length < u.level.depth :=
        hlevel [r] ⟨rs, rfl⟩ u (hstep [] u rfl)
      obtain ⟨pre', t₁', hstack, hagrees⟩ := h.perform_above hfirst hu
      obtain ⟨pre'', t₁'', hstack', hagrees'⟩ := ih hstack hrest fun first hprefix w hw =>
        hlevel (r :: first) (List.cons_prefix_cons.mpr ⟨rfl, hprefix⟩) w (hstep first w hw)
      exact ⟨pre'', t₁'', hstack', hagrees.trans hagrees'⟩

-- ============================================================ the round trip

/-- A checkpoint is a round trip: after requests that do not go below it,
going back to its level gives the state right after it was opened, and
going back to the level below gives the state right before. -/
theorem agrees_of_popTo {l : DecisionLevel} {t₀ : Theory} {requests : List Request}
    (h : (initial c).performAll rs = .ok t)
    (hpush : t.perform .pushCheckpoint = .ok (t₀, .level l))
    (hrun : t₀.performAll requests = .ok t')
    (hlevel : ∀ first, first <+: requests → ∀ u, t₀.performAll first = .ok u →
      l.depth ≤ u.level.depth) :
    (∃ u, t'.perform (.popTo l) = .ok (u, .done) ∧ Agrees t₀ u ∧ u.pending = t₀.pending) ∧
      ∃ parent u, l.parent? = some parent ∧ t'.perform (.backtrack parent) = .ok (u, .done) ∧
        Agrees t u ∧ u.pending = t.pending := by
  have hinitial : Stack [] (initial c) := .root (settled_initial c) (atRoot_initial c)
  obtain ⟨ts, hts⟩ := hinitial.performAll h
  obtain ⟨t₁, hsave, heq⟩ := Checked.map_eq_ok.mp hpush
  obtain ⟨hrest, rfl⟩ := pushCheckpoint_eq_ok.mp hsave
  cases heq
  have hdepth : t.saved.level = ⟨ts.length + 1⟩ := hts.saved.level_eq
  rw [hdepth] at hlevel ⊢
  have habove : Stack ([] ++ t :: ts) t.saved := hts.saved
  obtain ⟨pre, t₁, hstack, hagrees⟩ := habove.performAll_above hrun hlevel
  constructor
  · obtain ⟨u, hpop, hu, hpending, -⟩ := hstack.popTo
    refine ⟨u.saved, replying_eq_ok.mpr ⟨_, hpop, rfl⟩, (hagrees.trans hu).saved, ?_⟩
    exact hpending.trans hrest.symm
  · obtain ⟨u, hback, hu, hpending, -⟩ := hstack.backtrack
    refine ⟨⟨ts.length⟩, u, rfl, replying_eq_ok.mpr ⟨_, hback, rfl⟩, hagrees.trans hu, ?_⟩
    exact hpending.trans hrest.symm

/-- Above the checkpoint a second level ends in a conflict and is taken
back, the problem cannot be extended, the level is reopened, and a last
conflict arises. -/
theorem agrees_of_popTo_conflict :
    ∃ t t₀ t', (initial .standard).performAll
        [.newTimepoint ⟨0, 10⟩, .newVariable, .newVariable,
          .addConditionalEdge .origin ⟨1⟩ 7 ⟨⟨0⟩, true⟩,
          .addConditionalEdge ⟨1⟩ .origin (-8) ⟨⟨1⟩, true⟩] = .ok t ∧
      t.perform .pushCheckpoint = .ok (t₀, .level ⟨1⟩) ∧
      t₀.performAll
        [.configure ⟨.off, true⟩, .assign ⟨⟨0⟩, true⟩, .pushCheckpoint, .assign ⟨⟨1⟩, true⟩,
          .backtrack ⟨1⟩, .addPermanentEdge .origin ⟨1⟩ 3, .popTo ⟨1⟩, .assign ⟨⟨1⟩, true⟩,
          .assign ⟨⟨0⟩, true⟩] = .ok t' ∧
      (∃ u, t'.perform (.popTo ⟨1⟩) = .ok (u, .done) ∧ Agrees t₀ u ∧ u.pending = t₀.pending) ∧
      ∃ parent u, DecisionLevel.parent? ⟨1⟩ = some parent ∧
        t'.perform (.backtrack parent) = .ok (u, .done) ∧ Agrees t u ∧ u.pending = t.pending := by
  have hstays : ∀ first ∈ List.inits
      [Request.configure ⟨.off, true⟩, .assign ⟨⟨0⟩, true⟩, .pushCheckpoint, .assign ⟨⟨1⟩, true⟩,
        .backtrack ⟨1⟩, .addPermanentEdge .origin ⟨1⟩ 3, .popTo ⟨1⟩, .assign ⟨⟨1⟩, true⟩,
        .assign ⟨⟨0⟩, true⟩],
      ((initial .standard).performAll
        ([.newTimepoint ⟨0, 10⟩, .newVariable, .newVariable,
          .addConditionalEdge .origin ⟨1⟩ 7 ⟨⟨0⟩, true⟩,
          .addConditionalEdge ⟨1⟩ .origin (-8) ⟨⟨1⟩, true⟩] ++ .pushCheckpoint :: first)).answers
        (fun u => if first = [] then u.level == ⟨1⟩ else decide (1 ≤ u.level.depth)) = true := by
    decide +kernel
  -- the state before the checkpoint and the one right after it
  obtain ⟨t₀, hopen, hlevel⟩ := Checked.exists_of_answers
    (hstays [] ((List.mem_inits _ _).mpr List.nil_prefix))
  rw [performAll_append, Checked.bind_eq_ok] at hopen
  obtain ⟨t, ht, hopen⟩ := hopen
  have hpush : t.perform .pushCheckpoint = .ok (t₀, .level ⟨1⟩) := by
    unfold Theory.performAll at hopen
    rw [Checked.bind_eq_ok] at hopen
    obtain ⟨⟨u, reply⟩, hfirst, hdone⟩ := hopen
    cases hdone
    obtain ⟨w, -, heq⟩ := Checked.map_eq_ok.mp hfirst
    cases heq
    rw [hfirst, beq_iff_eq.mp hlevel]
  have hruns : ∀ first, (initial .standard).performAll
      ([.newTimepoint ⟨0, 10⟩, .newVariable, .newVariable,
          .addConditionalEdge .origin ⟨1⟩ 7 ⟨⟨0⟩, true⟩,
          .addConditionalEdge ⟨1⟩ .origin (-8) ⟨⟨1⟩, true⟩] ++ .pushCheckpoint :: first)
      = t₀.performAll first := by
    intro first
    rw [performAll_append, ht]
    show t.perform .pushCheckpoint >>= _ = _
    rw [hpush]
    rfl
  simp only [hruns] at hstays
  obtain ⟨t', hrun, -⟩ := Checked.exists_of_answers
    (hstays _ ((List.mem_inits _ _).mpr (List.prefix_refl _)))
  refine ⟨t, t₀, t', ht, hpush, hrun, agrees_of_popTo ht hpush hrun fun first hfirst u hu => ?_⟩
  have hstay := hstays first ((List.mem_inits _ _).mpr hfirst)
  rw [hu] at hstay
  simp only [Checked.answers] at hstay
  split at hstay
  next =>
    rw [beq_iff_eq.mp hstay]
  next => exact decide_eq_true_eq.mp hstay

end Theory

end TemporalNetwork
