/-
Events are delivered once.

What a solver does is operations on the queues of its theory, and each of
them is known: the deeds of the solver are calls of a listener, and the calls
are pushes, marks and backtracks of the one queue and of the other, and
readings by the one reader of each (`Informed`). What the ledgers of these
operations deliver are the implications that the solver counts and the
literals on which it revisits its clauses. At a fixed point of a search
nothing is left to be delivered.
-/
import TemporalNetwork.Proofs.Solver.Deeds

namespace TemporalNetwork

namespace Solver

variable {s s' : Solver} {c : Config} {todo todo' : List Deed}

/-- By what it did, a solver was told the implications that the ledger of the
one queue delivers, and has counted them, and it visited the assignments that
the ledger of the other queue delivers. -/
def Informed (c : Config) (todo : List Deed) (s : Solver) : Prop :=
  ∃ heards,
    (Listener.initial c).performAll (todo.map Deed.call) = .ok (s.listener, heards) ∧
      Accounts ((Listener.initial c).implicationOps (todo.map Deed.call)) s.theory.implications
        s.notifier.reader (heards.flatMap Heard.implications) ∧
      Accounts ((Listener.initial c).assignmentOps (todo.map Deed.call)) s.theory.assignments
        s.reader (todo.flatMap Deed.visited) ∧
      s.stats.theoryPropagations = (heards.flatMap Heard.implications).length

/-- A solver is informed by all that it did from the start. -/
theorem Heeds.informed {polarity : Bool} (h : Heeds todo (ofTheory (.initial c) polarity) s) :
    Informed c todo s := by
  obtain ⟨heards, hrun, hvisited, hcount⟩ := h
  obtain ⟨himplications, hassignments⟩ := Listener.accounts_performAll hrun
  rw [hvisited] at hassignments
  exact ⟨heards, hrun, himplications, hassignments, hcount.trans (Nat.zero_add _)⟩

/-- At a fixed point of a search every assignment was read. -/
theorem pending_propagate {config : Config} {polarity : Bool} {rs : List Request}
    {history : List (Request × Reply)} {s₀ s₁ s₂ : Solver}
    (h : (ofTheory (.initial config) polarity).performAll rs = .ok (s, history))
    (hstart : s.start = .ok s₀) (hsearches : Searches s₀ s₁)
    (hpropagate : s₁.propagate = .ok (s₂, none)) :
    (s₂.reader.pending s₂.theory.assignments).2 = 0 := by
  obtain ⟨hexploring, -⟩ := exploring_start h hstart
  obtain ⟨ts, R, h₁⟩ := hsearches.exploring hexploring
  obtain ⟨R₂, hprop⟩ := propagates h₁.searching h₁.ready hpropagate
  obtain ⟨hall, -⟩ := hprop.finished rfl
  have hnext := hprop.searching.read.next
  rw [hall] at hnext
  show s₂.theory.assignments.size - (s₂.reader.sync s₂.theory.assignments).next = 0
  rw [hnext]
  exact Nat.sub_self _

end Solver

-- ================================================================== delivery

/-- Events are delivered once. Any readers of a queue are answered as the
ledger says, in which each push is an event of its own, the next event of a
reader is the earliest one in the queue that it was not given and has not
skipped, and none is given to it twice. What a notifier passes on and what
is read of the assignments, in whatever order a theory and they are called,
is what the ledgers of the two queues deliver, for the pushes, marks and
backtracks that the calls are to them, and after each accepted assignment
nothing is left to be passed on. A solver is one who listens in this way,
by the deeds that it does: it counts the implications that are delivered to
it, and revisits clauses on the assignments that are. From the start of a
search it skips no assignment, and at a fixed point it has none left to
visit. -/
theorem events_delivered_once :
    (∀ (α : Type) (ops : List (QueueOp α)),
      (SharedQueue.initial.performAll ops).map Prod.snd
          = ((Ledger.initial.performAll ops).map fun p => p.2.map (.map Entry.value)) ∧
        ∀ L answers, Ledger.initial.performAll ops = .ok (L, answers) →
          L.Sound ∧ ∀ i, (L.delivered i).Nodup) ∧
    (∀ (config : Config) (calls : List Call) (x : Listener) (heards : List Heard),
      (Listener.initial config).performAll calls = .ok (x, heards) →
        Accounts ((Listener.initial config).implicationOps calls) x.theory.implications
            x.notifier.reader (heards.flatMap Heard.implications) ∧
          Accounts ((Listener.initial config).assignmentOps calls) x.theory.assignments
            x.reader (heards.flatMap Heard.assignments) ∧
          ∀ l a, x.notifier.assign x.theory l = .ok a → a.accepted = .ok true →
            (a.notifier.reader.pending a.theory.implications).2 = 0) ∧
    ∀ (config : Config) (polarity : Bool) (rs : List Solver.Request) (s : Solver)
        (history : List (Solver.Request × Solver.Reply)),
      (Solver.ofTheory (.initial config) polarity).performAll rs = .ok (s, history) →
        Solver.Informed config (Solver.deeds rs (.ofTheory (.initial config) polarity)) s ∧
        ∀ s₀ s₁ s₂, s.start = .ok s₀ → s₀.Searches s₁ → s₁.propagate = .ok (s₂, none) →
          (s₂.reader.pending s₂.theory.assignments).2 = 0 ∧
            ∃ todo, s₀.Does todo s₁ ∧ .skip ∉ todo ++ s₁.propagateDeeds ∧
              Solver.Informed config
                (Solver.deeds rs (.ofTheory (.initial config) polarity) ++ Solver.startDeeds
                  ++ (todo ++ s₁.propagateDeeds)) s₂ := by
  refine ⟨fun α ops => ⟨SharedQueue.performAll_initial ops, fun L answers hrun => ?_⟩,
    fun config calls x heards hrun => ?_, fun config polarity rs s history hrun => ?_⟩
  · have hsound := Ledger.sound_performAll hrun
    exact ⟨hsound, hsound.once⟩
  · obtain ⟨himplications, hassignments⟩ := Listener.accounts_performAll hrun
    exact ⟨himplications, hassignments, fun l a => Notifier.pending_assign⟩
  · have hheeds := Solver.heeds_performAll hrun
    refine ⟨hheeds.informed, fun s₀ s₁ s₂ hstart hsearches hpropagate =>
      ⟨Solver.pending_propagate hrun hstart hsearches hpropagate, ?_⟩⟩
    obtain ⟨todo, hdoes⟩ := Solver.exists_does_of_searches hsearches
    have hsearch := hdoes.heeds.trans (Solver.heeds_propagate hpropagate)
    refine ⟨todo, hdoes, ?_, ((hheeds.trans (Solver.heeds_start hstart)).trans hsearch).informed⟩
    exact List.not_mem_append hdoes.skip_notMem (Solver.skip_notMem_propagateDeeds s₁)

/-- The first reader is at work between the backtracks, and the second one
only looks up after both, when other events stand where those it was about
to read had been. And a solver that searches twice has each variable decided
or implied twice, and visits what there is anew. -/
theorem events_delivered_once_late :
    ((SharedQueue.initial : SharedQueue Nat).performAll
      [.push 5, .save, .push 6, .pop 0, .pop 0, .pop 1, .pop 1, .save, .push 7, .pending 1,
        .restoreLast, .restoreLast, .pending 0, .push 6, .push 8, .pop 0, .pop 1, .popAll 1,
        .toEnd 0, .pop 0, .pop 2]).map Prod.snd
      = .ok [.done, .done, .done, .event (some 5), .event (some 6), .event (some 5),
        .event (some 6), .done, .done, .count 1, .done, .done, .count 0, .done, .done,
        .event (some 6), .event (some 6), .events [8], .done, .event none, .event (some 5)] ∧
    ∃ s history, (Solver.ofTheory (.initial ⟨.full, false⟩) true).performAll
        [.theory (.newTimepoint ⟨0, 10⟩), .theory (.newTimepoint ⟨0, 10⟩), .theory .newVariable,
          .theory .newVariable, .theory (.addConditionalEdge ⟨1⟩ ⟨2⟩ (-1) ⟨⟨0⟩, true⟩),
          .theory (.addConditionalEdge ⟨2⟩ ⟨1⟩ (-1) ⟨⟨1⟩, true⟩), .solve .never, .solve .never]
        = .ok (s, history) ∧
      s.stats.theoryPropagations = 2 ∧ ∃ todo, Solver.Informed ⟨.full, false⟩ todo s ∧
        todo.flatMap Deed.visited
          = [⟨⟨0⟩, true⟩, ⟨⟨1⟩, false⟩, ⟨⟨0⟩, true⟩, ⟨⟨1⟩, false⟩] := by
  refine ⟨?_, ?_⟩
  · rw [(events_delivered_once.1 Nat _).1]
    rfl
  · have hrun : ((Solver.ofTheory (.initial ⟨.full, false⟩) true).performAll
        [.theory (.newTimepoint ⟨0, 10⟩), .theory (.newTimepoint ⟨0, 10⟩), .theory .newVariable,
          .theory .newVariable, .theory (.addConditionalEdge ⟨1⟩ ⟨2⟩ (-1) ⟨⟨0⟩, true⟩),
          .theory (.addConditionalEdge ⟨2⟩ ⟨1⟩ (-1) ⟨⟨1⟩, true⟩), .solve .never,
          .solve .never]).answers (fun p => p.1.stats.theoryPropagations == 2) = true := by
      decide +kernel
    obtain ⟨⟨s, history⟩, h, hcount⟩ := Checked.exists_of_answers hrun
    refine ⟨s, history, h, beq_iff_eq.mp hcount, _, (events_delivered_once.2.2 _ _ _ _ _ h).1, ?_⟩
    decide +kernel

end TemporalNetwork
