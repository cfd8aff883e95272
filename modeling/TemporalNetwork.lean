import TemporalNetwork.Main
import TemporalNetwork.Solver.Request
import TemporalNetwork.Text.Character
import TemporalNetwork.Proofs.Network.Growth
import TemporalNetwork.Proofs.Network.Chain
import TemporalNetwork.Proofs.ActiveGraph.Undo
import TemporalNetwork.Proofs.ActiveGraph.Sound
import TemporalNetwork.Proofs.ActiveGraph.Activation
import TemporalNetwork.Proofs.ActiveGraph.Grounded
import TemporalNetwork.Proofs.ActiveGraph.Traces
import TemporalNetwork.Proofs.ActiveGraph.Progress
import TemporalNetwork.Proofs.ActiveGraph.ShortestPath
import TemporalNetwork.Proofs.ActiveGraph.Reach
import TemporalNetwork.Proofs.Theory.Coherent
import TemporalNetwork.Proofs.Theory.Propagation
import TemporalNetwork.Proofs.Theory.Progress
import TemporalNetwork.Proofs.Theory.Setup
import TemporalNetwork.Proofs.Theory.Equivalence
import TemporalNetwork.Proofs.Theory.Checkpoint
import TemporalNetwork.Proofs.Theory.History
import TemporalNetwork.Proofs.Theory.Inference
import TemporalNetwork.Proofs.Theory.RoundTrip
import TemporalNetwork.Proofs.Theory.Answers
import TemporalNetwork.Proofs.Clause.Database
import TemporalNetwork.Proofs.Clause.Index
import TemporalNetwork.Proofs.Clause.Watches
import TemporalNetwork.Proofs.History.Reader
import TemporalNetwork.Proofs.Solver.Progress
import TemporalNetwork.Proofs.Solver.Propagation
import TemporalNetwork.Proofs.Solver.Search
import TemporalNetwork.Proofs.Solver.Solution
import TemporalNetwork.Proofs.Solver.History
import TemporalNetwork.Proofs.Solver.Models
import TemporalNetwork.Proofs.Text.Integer
import TemporalNetwork.Proofs.Text.Words
import TemporalNetwork.Proofs.Problem.Denotation
import TemporalNetwork.Proofs.Problem.Parsing
import TemporalNetwork.Proofs.Problem.Solving
import TemporalNetwork.Proofs.ActiveGraph.Distance
import TemporalNetwork.Proofs.Solver.Termination
import TemporalNetwork.Proofs.Theory.BoundLiterals
import TemporalNetwork.Proofs.Theory.Containment
import TemporalNetwork.Proofs.Theory.Confluence
import TemporalNetwork.Proofs.Theory.Acceleration
import TemporalNetwork.Proofs.Theory.Schedules
import TemporalNetwork.Proofs.Theory.Limits
import TemporalNetwork.Proofs.Theory.Checks
import TemporalNetwork.Proofs.Solver.Learning
import TemporalNetwork.Proofs.Theory.Precedence
import TemporalNetwork.Proofs.Theory.Acts
import TemporalNetwork.Proofs.Theory.Room
import TemporalNetwork.Proofs.History.Delivery
import TemporalNetwork.Proofs.Theory.Publication
import TemporalNetwork.Proofs.Clause.Quiet
import TemporalNetwork.Proofs.Clause.Revisit
import TemporalNetwork.Proofs.Solver.Fixpoint
import TemporalNetwork.Proofs.Solver.Delivery
import TemporalNetwork.Proofs.ActiveGraph.Rollback
import TemporalNetwork.Proofs.ActiveGraph.Predecessors
import TemporalNetwork.Proofs.ActiveGraph.Termination
import TemporalNetwork.Proofs.Theory.Operations
import TemporalNetwork.Proofs.Theory.Distances
import TemporalNetwork.Proofs.Theory.Cycles
import TemporalNetwork.Proofs.Solver.Filing
import TemporalNetwork.Proofs.Theory.Stages
import TemporalNetwork.Proofs.Theory.Validation
import TemporalNetwork.Proofs.Theory.Latch
import TemporalNetwork.Proofs.Solver.Refusal
import TemporalNetwork.Proofs.Solver.Alignment
import TemporalNetwork.Proofs.Problem.Format
import TemporalNetwork.Proofs.Problem.Acceptance
import TemporalNetwork.Proofs.ActiveGraph.Paths
import TemporalNetwork.Proofs.ActiveGraph.Queue
import TemporalNetwork.Proofs.Solver.Deeds
import TemporalNetwork.Proofs.Theory.Ties
import TemporalNetwork.Proofs.Theory.Capacity
