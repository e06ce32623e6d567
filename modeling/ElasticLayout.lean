import ElasticLayout.EquationSystem.Listing
import ElasticLayout.Linear.Grid
import ElasticLayout.Main
import ElasticLayout.Proofs.Feasibility
import ElasticLayout.Proofs.Monotonicity
import ElasticLayout.Proofs.Standing
import ElasticLayout.Proofs.PlainModel
import ElasticLayout.Proofs.PlainChanges
import ElasticLayout.Proofs.InternalParts
import ElasticLayout.Proofs.References
import ElasticLayout.Proofs.Cascade
import ElasticLayout.Proofs.Renaming
import ElasticLayout.Proofs.MirroredQueries
import ElasticLayout.Proofs.MirroredCalls
import ElasticLayout.Proofs.Relisting
import ElasticLayout.Proofs.QueryTrace
import ElasticLayout.Proofs.PlainHistory
import ElasticLayout.Proofs.Imprint
import ElasticLayout.Proofs.HandleQueue
import ElasticLayout.Proofs.Readdition
import ElasticLayout.Proofs.ProblemRows
import ElasticLayout.Proofs.RowLayout
import ElasticLayout.Proofs.SquareSystems
import ElasticLayout.Proofs.Multipliers
import ElasticLayout.Proofs.Optimality
import ElasticLayout.Proofs.CheckedSpec
import ElasticLayout.Proofs.Ranges
import ElasticLayout.Proofs.QueryProblem
import ElasticLayout.Proofs.Values
import ElasticLayout.Proofs.LowerBound
import ElasticLayout.Proofs.SizeWithinRange
import ElasticLayout.Proofs.HandleMap
import ElasticLayout.Proofs.RoundTrip
import ElasticLayout.Proofs.StrictConvexity
import ElasticLayout.Proofs.UniquePoint
import ElasticLayout.Proofs.SimplexDecision
import ElasticLayout.Proofs.InPlaceCalls
import ElasticLayout.Proofs.FiniteSides
import ElasticLayout.Proofs.Charges
import ElasticLayout.Proofs.FileRanges
import ElasticLayout.Proofs.Descent
import ElasticLayout.Proofs.RankDetection
import ElasticLayout.Proofs.Nonsingular
import ElasticLayout.Proofs.OrthogonalFactors
import ElasticLayout.Proofs.RowOperations
import ElasticLayout.Proofs.GaussJordan
import ElasticLayout.Proofs.ReducedSystems
import ElasticLayout.Proofs.EliminatedPoint
import ElasticLayout.Proofs.PivotRuns
import ElasticLayout.Proofs.Deviations
import ElasticLayout.Proofs.StepLength
import ElasticLayout.Proofs.SolveFrame
import ElasticLayout.Proofs.Compaction
import ElasticLayout.Proofs.SystemLayout
import ElasticLayout.Proofs.LeftSides
