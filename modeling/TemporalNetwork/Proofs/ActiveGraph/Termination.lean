/-
The loop of a relaxation comes to an end.

`drain` takes nodes from the queue with a bound on their number. Here the
loop is taken without it: a turn takes the first node out and looks at the
edges that leave it, and turns follow each other as long as a node is
queued. A turn leads to one state only, so that there is one run of turns,
which either goes on for ever or is the longest of all its beginnings.

It does not go on. That it might is what a negative cycle would do, along
which nodes are lowered again and again; but the new edge is on each
negative cycle, and the loop ends where its tail would be lowered. Nodes
then have a floor, which no run of turns falls through, and each turn
takes a node from the queue that had to be lowered to be queued: `drain`
runs within its bound (`Relaxation.exists_relax`), and the turns that it
takes are the run (`drain_eq_ok`).
-/
import TemporalNetwork.Proofs.ActiveGraph.Rollback

namespace TemporalNetwork

namespace Relaxation

variable {net : Network} {d : Direction} {start : Timepoint} {id : EdgeId} {g : ActiveGraph}
  {r r' r'' s : Relaxation} {m n : Nat}

-- =================================================================== turns

/-- The first node of the queue is taken out, and the edges that leave it
are looked at with the value that it has then. -/
inductive Turn (net : Network) (d : Direction) (start : Timepoint) :
    Relaxation → Relaxation → Prop where
  | mk {r r' : Relaxation} {node : Timepoint} {rest : List Timepoint}
      (queue : r.queue = node :: rest)
      (run : visitEdges net d start (r.graph.value d node) { r with queue := rest }
        (r.graph.out d node) = .ok r') : Turn net d start r r'

/-- So many turns, one after the other. -/
inductive Turns (net : Network) (d : Direction) (start : Timepoint) :
    Nat → Relaxation → Relaxation → Prop where
  | none (r : Relaxation) : Turns net d start 0 r r
  | next {n : Nat} {r r' r'' : Relaxation} (first : Turn net d start r r')
      (others : Turns net d start n r' r'') : Turns net d start (n + 1) r r''

/-- A turn has one outcome. -/
theorem Turn.unique (h : Turn net d start r r') (h' : Turn net d start r r'') : r' = r'' := by
  cases h with
  | mk queue run =>
      cases h' with
      | mk queue' run' =>
          cases queue.symm.trans queue'
          cases run.symm.trans run'
          rfl

/-- The loop ends with the queue. -/
theorem not_turn (hqueue : r.queue = []) : ¬ Turn net d start r r' := by
  rintro ⟨hnode, -⟩
  rw [hqueue] at hnode
  cases hnode

/-- A run up to an empty queue is the longest. -/
theorem Turns.le (h : Turns net d start n r r') (hqueue : r'.queue = [])
    (h' : Turns net d start m r s) : m ≤ n := by
  induction h generalizing m with
  | none r =>
      cases h' with
      | none => exact Nat.le_refl 0
      | next first others => exact absurd first (not_turn hqueue)
  | next first others ih =>
      cases h' with
      | none => exact Nat.zero_le _
      | next first' others' =>
          cases first.unique first'
          exact Nat.succ_le_succ (ih hqueue others')

/-- What is drained within a bound takes that many turns at most, the last
of which leaves no node queued. -/
theorem drain_eq_ok (h : drain net d start n r = .ok r') :
    ∃ k, k < n ∧ Turns net d start k r r' ∧ r'.queue = [] := by
  induction n generalizing r with
  | zero => cases h
  | succ n ih =>
      unfold drain at h
      split at h
      next hqueue =>
        cases h
        exact ⟨0, Nat.succ_pos n, .none _, hqueue⟩
      next node rest hqueue =>
        simp only [Checked.bind_eq_ok] at h
        obtain ⟨r₁, hvisits, hdrain⟩ := h
        obtain ⟨k, hk, hturns, hempty⟩ := ih hdrain
        exact ⟨k + 1, Nat.succ_lt_succ hk, .next (.mk hqueue hvisits) hturns, hempty⟩

-- ==================================================================== loops

/-- The new edge can lower its head, which is not the origin: the loop
begins with the head as the only node queued. -/
structure Begins (net : Network) (id : EdgeId) (d : Direction) (r s : Relaxation) : Prop where
  unclosed : r.cycle = none
  isIn : (net.edge id).isIn d = true
  lowers : r.graph.value d ((net.edge id).tail d) + (net.edge id).weight
    < r.graph.value d ((net.edge id).head d)
  moves : (net.edge id).head d ≠ .origin
  state : s = r.lower d ((net.edge id).head d)
    (r.graph.value d ((net.edge id).tail d) + (net.edge id).weight) id

/-- Carrying an edge through a view is to run the loop, where it begins. -/
theorem Begins.exists_turns (h : Begins net id d r s) (hrun : relax net id d r = .ok r') :
    ∃ n, n < s.bound d ∧ Turns net d ((net.edge id).tail d) n s r' ∧ r'.queue = [] := by
  obtain ⟨hopen, hin, hlowers, hmoves, rfl⟩ := h
  unfold relax at hrun
  simp only [hopen, hin, Option.isSome_none, Bool.not_true, Bool.or_self, Bool.false_eq_true,
    if_false, Checked.bind_eq_ok, int32_eq_ok] at hrun
  obtain ⟨candidate, ⟨-, rfl⟩, hrun⟩ := hrun
  rw [if_neg (Int.not_le.mpr hlowers), if_neg hmoves] at hrun
  exact drain_eq_ok hrun

/-- The states in which a new edge is carried through a view: first
through the forward one, unless the edge is a loop that closes a negative
cycle by itself, and then through the backward one. -/
inductive Enters (net : Network) (g : ActiveGraph) (id : EdgeId) : Direction → Relaxation → Prop
  where
  | forward (new : g.isActive id = false)
      (loop : ¬ ((net.edge id).isLoop = true ∧ (net.edge id).weight < 0)) :
      Enters net g id .forward ⟨g.insertEdge net id, [], #[], none⟩
  | backward {r r' : Relaxation} (first : Enters net g id .forward r)
      (run : relax net id .forward r = .ok r') : Enters net g id .backward r'

/-- How a view is left: with nothing queued, and either all edges in force
respected or a negative cycle. -/
structure Leaves (net : Network) (d : Direction) (r : Relaxation) : Prop where
  queue : r.queue = []
  respected : r.cycle = none → ∀ i, r.graph.isActive i = true → (net.edge i).isIn d = true →
    Respected net d r.graph i
  closed (es : List EdgeId) : r.cycle = some es → net.isCycle es = true ∧ net.weight es < 0

/-- From whatever state a view is entered, it is left. -/
theorem exists_relax_of_enters (hg : g.Grounded net) (hnet : net.WellFormed)
    (hlimited : net.Limited) (hid : net.hasEdge id = true) (h : Enters net g id d r) :
    ∃ r', relax net id d r = .ok r' ∧ Leaves net d r' := by
  cases h with
  | forward new loop =>
      obtain ⟨r₁, r₂, hrelaxed⟩ := ActiveGraph.exists_relaxed hg hnet hlimited hid new loop
      obtain ⟨-, hqueue, hrespected⟩ :=
        ActiveGraph.carries_forward hg.toSound hnet hid new loop hrelaxed.forward
      exact ⟨r₁, hrelaxed.forward, hqueue, hrespected, hrelaxed.tracksForward.closed⟩
  | backward first run =>
      cases first with
      | forward new loop =>
          obtain ⟨r₁, r₂, hrelaxed⟩ := ActiveGraph.exists_relaxed hg hnet hlimited hid new loop
          cases run.symm.trans hrelaxed.forward
          obtain ⟨hcarries, hqueue, -⟩ :=
            ActiveGraph.carries_forward hg.toSound hnet hid new loop hrelaxed.forward
          have hactive : r.graph.isActive id = true :=
            (hcarries.isActive id).trans (ActiveGraph.isActive_insertEdge_self hg.toSound hid)
          obtain ⟨-, hqueue', hrespected⟩ := carries_relax hnet hcarries.labelled hcarries.refuted
            hqueue hactive loop (ActiveGraph.respected_of_carries hg.toSound hid hcarries)
            hrelaxed.backward
          exact ⟨r₂, hrelaxed.backward, hqueue', hrespected, hrelaxed.tracksBackward.closed⟩

end Relaxation

end TemporalNetwork
