/-
The graph of a theory arises by operations on graphs.

A theory works on its graph by the operations that `operate` lists, and by
no others: so its graph, with the network, is one that arises by them
(`Stack.arisen`). What holds of graphs that arise therefore holds of the
graph of a theory after any requests, and after any operations from then
on: between two requests, and in the middle of a propagation.
-/
import TemporalNetwork.Proofs.ActiveGraph.Predecessors
import TemporalNetwork.Proofs.ActiveGraph.Queue
import TemporalNetwork.Proofs.ActiveGraph.Termination
import TemporalNetwork.Proofs.Theory.History

namespace TemporalNetwork

namespace Theory

open ActiveGraph

variable {t : Theory} {ts : List Theory} {c : Config} {rs : List Request} {net : Network}
  {g : ActiveGraph} {ops : List ActiveGraph.Operation} {id : EdgeId} {d : Direction}
  {r : Relaxation} {start : Timepoint}

/-- The graphs of the states that were saved are the layers of the graph. -/
theorem Stack.layers (h : Stack ts t) : Layers t.network (ts.map (·.graph)) t.graph := by
  induction h with
  | root settled level => exact .root settled.coherent.graph level.graph
  | above settled extended below ih =>
      have hnetwork := extended.network
      rw [hnetwork]
      exact .level ih (hnetwork ▸ settled.coherent.graph) extended.graph

/-- The graph of a theory arises by operations on graphs. -/
theorem Stack.arisen (h : Stack ts t) : Arisen t.network t.graph :=
  ⟨h.settled.coherent.network, h.settled.coherent.limited, _, h.layers⟩

-- =================================================================== trees

/-- After any requests, and any operations on the graph from then on, all
nodes descend to the origin in both views; and so they do at the end of
every activation that succeeds. -/
theorem treed_of_performAll (h : (initial c).performAll rs = .ok t)
    (hops : ops.foldlM operate (t.network, t.graph) = .ok (net, g)) :
    Treed net g ∧ ∀ id, net.hasEdge id = true → ∃ a, g.activate net id = .ok a ∧
      ∀ lowered, a.verdict = .ok lowered → Treed net a.graph := by
  obtain ⟨ts, hts⟩ := exists_stack_of_performAll h
  have harisen := hts.arisen.operateAll hops
  refine ⟨harisen.treed, fun id hid => ?_⟩
  obtain ⟨a, hrun, hgrounded, -⟩ :=
    harisen.grounded.exists_activate harisen.network harisen.limited hid
  exact ⟨a, hrun, fun _ _ => hgrounded.treed harisen.network⟩

/-- A literal is set and taken back, and its edge put in force anew. Of the
two edges that lead to the node, from the origin and by way of another
node, the predecessor is the tighter one. -/
theorem treed_of_performAll_anew :
    ∃ t net g, (initial .standard).performAll
        [.newTimepoint ⟨0, 10⟩, .newTimepoint ⟨0, 10⟩, .newVariable,
          .addPermanentEdge .origin ⟨1⟩ 4, .addConditionalEdge ⟨1⟩ ⟨2⟩ 3 ⟨⟨0⟩, true⟩,
          .pushCheckpoint, .assign ⟨⟨0⟩, true⟩, .restoreLast] = .ok t ∧
      [.save, .activate ⟨5⟩].foldlM operate (t.network, t.graph) = .ok (net, g) ∧
      Descends net g .forward ⟨2⟩ [⟨5⟩, ⟨4⟩] ∧ g.value .forward ⟨2⟩ = 7 := by
  have hrun : ((initial .standard).performAll
      [.newTimepoint ⟨0, 10⟩, .newTimepoint ⟨0, 10⟩, .newVariable,
        .addPermanentEdge .origin ⟨1⟩ 4, .addConditionalEdge ⟨1⟩ ⟨2⟩ 3 ⟨⟨0⟩, true⟩,
        .pushCheckpoint, .assign ⟨⟨0⟩, true⟩, .restoreLast]).answers (fun t =>
          ([.save, .activate ⟨5⟩].foldlM operate (t.network, t.graph)).answers fun p =>
            p.1.hasTimepoint ⟨2⟩ && decide (p.2.value .forward ⟨2⟩ = 7 ∧
              p.2.predecessorChain p.1 .forward ⟨2⟩ = .ok [⟨5⟩, ⟨4⟩])) = true := by
    decide +kernel
  obtain ⟨t, ht, htest⟩ := Checked.exists_of_answers hrun
  obtain ⟨⟨net, g⟩, hops, hanswer⟩ := Checked.exists_of_answers htest
  obtain ⟨hx, hstate⟩ := Bool.and_eq_true_iff.mp hanswer
  obtain ⟨hvalue, hchain⟩ := of_decide_eq_true hstate
  obtain ⟨htreed, -⟩ := treed_of_performAll ht hops
  obtain ⟨es, hes⟩ := htreed .forward ⟨2⟩ hx (by decide)
  cases hes.followed.symm.trans hchain
  exact ⟨t, net, g, ht, hops, hes, hvalue⟩

-- =================================================================== loops

/-- After any requests, and any operations on the graph from then on, a new
edge can be carried through each view that it enters: the view is left
with nothing queued, and where the loop begins it has a last turn, within
its bound, which is that of every run of turns. -/
theorem leaves_of_performAll (h : (initial c).performAll rs = .ok t)
    (hops : ops.foldlM operate (t.network, t.graph) = .ok (net, g))
    (hid : net.hasEdge id = true) (henters : Relaxation.Enters net g id d r) :
    ∃ r', r.relax net id d = .ok r' ∧ Relaxation.Leaves net d r' ∧
      ∀ s, Relaxation.Begins net id d r s → ∃ n, n < s.bound d ∧
        Relaxation.Turns net d ((net.edge id).tail d) n s r' ∧
        ∀ m s', Relaxation.Turns net d ((net.edge id).tail d) m s s' → m ≤ n := by
  obtain ⟨ts, hts⟩ := exists_stack_of_performAll h
  have harisen := hts.arisen.operateAll hops
  obtain ⟨r', hrun, hleaves⟩ := Relaxation.exists_relax_of_enters harisen.grounded
    harisen.network harisen.limited hid henters
  refine ⟨r', hrun, hleaves, fun s hbegins => ?_⟩
  obtain ⟨n, hn, hturns, hqueue⟩ := hbegins.exists_turns hrun
  exact ⟨n, hn, hturns, fun m s' hrun' => hturns.le hqueue hrun'⟩

/-- Three nodes would be lowered round after round, but the loop ends where
the first round comes to the tail of the edge that closes the cycle. -/
theorem leaves_of_performAll_round :
    ∃ t net g s r' n, (initial .standard).performAll
        [.newTimepoint ⟨0, 10⟩, .newTimepoint ⟨0, 10⟩, .newTimepoint ⟨0, 10⟩, .newVariable,
          .addPermanentEdge ⟨1⟩ ⟨2⟩ (-1), .addPermanentEdge ⟨2⟩ ⟨3⟩ (-1),
          .addConditionalEdge ⟨3⟩ ⟨1⟩ (-1) ⟨⟨0⟩, true⟩] = .ok t ∧
      [.save].foldlM operate (t.network, t.graph) = .ok (net, g) ∧
      Relaxation.Begins net ⟨8⟩ .forward ⟨g.insertEdge net ⟨8⟩, [], #[], none⟩ s ∧
      Relaxation.Turns net .forward ((net.edge ⟨8⟩).tail .forward) n s r' ∧ r'.queue = [] ∧
      r'.cycle = some [⟨8⟩, ⟨6⟩, ⟨7⟩] := by
  have hrun : ((initial .standard).performAll
      [.newTimepoint ⟨0, 10⟩, .newTimepoint ⟨0, 10⟩, .newTimepoint ⟨0, 10⟩, .newVariable,
        .addPermanentEdge ⟨1⟩ ⟨2⟩ (-1), .addPermanentEdge ⟨2⟩ ⟨3⟩ (-1),
        .addConditionalEdge ⟨3⟩ ⟨1⟩ (-1) ⟨⟨0⟩, true⟩]).answers (fun t =>
          ([.save].foldlM operate (t.network, t.graph)).answers fun p =>
            let e := p.1.edge ⟨8⟩
            let r : Relaxation := ⟨p.2.insertEdge p.1 ⟨8⟩, [], #[], none⟩
            decide (p.1.hasEdge ⟨8⟩ = true ∧ p.2.isActive ⟨8⟩ = false ∧
              ¬ (e.isLoop = true ∧ e.weight < 0) ∧ e.isIn .forward = true ∧
              r.graph.value .forward (e.tail .forward) + e.weight
                < r.graph.value .forward (e.head .forward) ∧ e.head .forward ≠ .origin) &&
            (r.relax p.1 ⟨8⟩ .forward).answers fun r =>
              decide (r.cycle = some [⟨8⟩, ⟨6⟩, ⟨7⟩])) = true := by
    decide +kernel
  obtain ⟨t, ht, htest⟩ := Checked.exists_of_answers hrun
  obtain ⟨⟨net, g⟩, hops, hanswer⟩ := Checked.exists_of_answers htest
  obtain ⟨hstate, hrelax⟩ := Bool.and_eq_true_iff.mp hanswer
  obtain ⟨hid, hnew, hloop, hin, hlowers, hmoves⟩ := of_decide_eq_true hstate
  obtain ⟨r', hr', hcycle⟩ := Checked.exists_of_answers hrelax
  obtain ⟨r'', hr'', hleaves, hturns⟩ := leaves_of_performAll ht hops hid (.forward hnew hloop)
  cases hr'.symm.trans hr''
  have hbegins : Relaxation.Begins net ⟨8⟩ .forward ⟨g.insertEdge net ⟨8⟩, [], #[], none⟩ _ :=
    ⟨rfl, hin, hlowers, hmoves, rfl⟩
  obtain ⟨n, -, hrun', -⟩ := hturns _ hbegins
  exact ⟨t, net, g, _, r', n, ht, hops, hbegins, hrun', hleaves.queue, of_decide_eq_true hcycle⟩

-- =================================================================== paths

/-- After any requests, and any operations on the graph from then on, a
search from any timepoint, in either view, along all edges or the shared
ones only, attains the distance of each timepoint. So does every search
that takes its nodes from a queue, whichever of its least entries comes out
each time: what comes out can be dealt with, there is no more than one turn
for each edge and one for the start, and when nothing is queued all
distances are attained. The search that is run is one of these. -/
theorem justifies_of_performAll (h : (initial c).performAll rs = .ok t)
    (hops : ops.foldlM operate (t.network, t.graph) = .ok (net, g))
    (hstart : net.hasTimepoint start = true) (d : Direction) (sharedOnly : Bool) :
    (∃ s, PathSearch.run net g d start sharedOnly none = .ok s ∧
      PathSearch.Justifies net g sharedOnly d start s ∧
      ∃ n q, QueuedSearch.Turns net g sharedOnly n (.initial d start) q ∧ q.queue = 0 ∧
        q.search = s) ∧
    ∀ n q, QueuedSearch.Turns net g sharedOnly n (.initial d start) q →
      n ≤ 1 + (net.timepoints.flatMap (g.out d)).length ∧
      (∀ e, q.IsNext e → q.latest ≤ e.2 ∧ ∃ q', q.take net g sharedOnly e = .ok q') ∧
      (q.queue = 0 → PathSearch.Justifies net g sharedOnly d start q.search) := by
  obtain ⟨ts, hts⟩ := exists_stack_of_performAll h
  obtain ⟨hnet, hlimited, gs, hlayers⟩ := hts.arisen.operateAll hops
  have hg := hlayers.grounded
  constructor
  · obtain ⟨s, hrun, hcovers, hview, hsame⟩ :=
      PathSearch.exists_run hnet hlimited hg d hstart sharedOnly
    exact ⟨s, hrun, hcovers.justifies hnet hlimited hg hview hsame,
      QueuedSearch.exists_turns_of_run hnet hlimited hg hstart hrun⟩
  · intro n q hturns
    obtain ⟨hruns, hview, hsame, hle⟩ :=
      (QueuedSearch.runs_initial hstart d).turns hnet hlimited hg hstart hturns
    rw [QueuedSearch.remaining_initial] at hle
    refine ⟨by omega, fun e hnext => ⟨hruns.queues.ahead e hnext.1, ?_⟩, fun hempty => ?_⟩
    · obtain ⟨q', htake, -⟩ :=
        hruns.exists_take hnet hlimited hg (hsame.symm ▸ hstart) hnext
      exact ⟨q', htake⟩
    · exact (hruns.covers hempty).justifies hnet hlimited hg hview hsame

/-- Along shared edges, with a directed edge in force that is shorter. A
node is labelled through a single edge at first, and then at no more than
the distance of the node that is being settled. -/
theorem justifies_of_performAll_shared :
    ∃ t net g s, (initial .standard).performAll
        [.newTimepoint ⟨0, 100⟩, .newTimepoint ⟨0, 100⟩, .newTimepoint ⟨0, 100⟩,
          .newTimepoint ⟨0, 100⟩, .newVariable, .addPermanentEdge ⟨1⟩ ⟨2⟩ 3,
          .addPermanentEdge ⟨2⟩ ⟨3⟩ (-2), .addPermanentEdge ⟨1⟩ ⟨3⟩ 5,
          .addPermanentEdge ⟨3⟩ ⟨4⟩ 4, .addDirectedEdge ⟨1⟩ ⟨4⟩ 1 ⟨⟨0⟩, true⟩ .forward] = .ok t ∧
      [.save, .activate ⟨12⟩].foldlM operate (t.network, t.graph) = .ok (net, g) ∧
      g.isActive ⟨12⟩ = true ∧ PathSearch.run net g .forward ⟨1⟩ true none = .ok s ∧
      PathSearch.Attains net g true s ⟨4⟩ 5 [⟨11⟩, ⟨9⟩, ⟨8⟩] := by
  have hrun : ((initial .standard).performAll
      [.newTimepoint ⟨0, 100⟩, .newTimepoint ⟨0, 100⟩, .newTimepoint ⟨0, 100⟩,
        .newTimepoint ⟨0, 100⟩, .newVariable, .addPermanentEdge ⟨1⟩ ⟨2⟩ 3,
        .addPermanentEdge ⟨2⟩ ⟨3⟩ (-2), .addPermanentEdge ⟨1⟩ ⟨3⟩ 5,
        .addPermanentEdge ⟨3⟩ ⟨4⟩ 4,
        .addDirectedEdge ⟨1⟩ ⟨4⟩ 1 ⟨⟨0⟩, true⟩ .forward]).answers (fun t =>
          ([.save, .activate ⟨12⟩].foldlM operate (t.network, t.graph)).answers fun p =>
            p.1.hasTimepoint ⟨1⟩ && p.1.hasTimepoint ⟨4⟩ && p.2.isActive ⟨12⟩ &&
            (PathSearch.run p.1 p.2 .forward ⟨1⟩ true none).answers fun s =>
              decide (s.distance? p.2 ⟨4⟩ = .ok (some 5) ∧
                s.pathTo p.1 p.2 ⟨4⟩ = .ok [⟨11⟩, ⟨9⟩, ⟨8⟩])) = true := by
    decide +kernel
  obtain ⟨t, ht, htest⟩ := Checked.exists_of_answers hrun
  obtain ⟨⟨net, g⟩, hops, hanswer⟩ := Checked.exists_of_answers htest
  simp only [Bool.and_eq_true] at hanswer
  obtain ⟨⟨⟨hstart, hx⟩, hactive⟩, hsearch⟩ := hanswer
  obtain ⟨s, hs, hfound⟩ := Checked.exists_of_answers hsearch
  obtain ⟨hdistance, hpath⟩ := of_decide_eq_true hfound
  obtain ⟨⟨s', hs', hjustifies, -⟩, -⟩ := justifies_of_performAll ht hops hstart .forward true
  cases hs.symm.trans hs'
  obtain ⟨v, es, hattains⟩ := hjustifies.attains ⟨4⟩ hx
  cases hdistance.symm.trans hattains.distance
  cases hpath.symm.trans hattains.path
  exact ⟨t, net, g, s, ht, hops, hactive, hs, hattains⟩

end Theory

end TemporalNetwork
