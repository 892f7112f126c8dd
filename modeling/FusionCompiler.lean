import FusionCompiler.Fusion.Print
import FusionCompiler.Host.Workspace
import FusionCompiler.Kernel.Print
import FusionCompiler.Proofs.Outcome
import FusionCompiler.Proofs.DisjointSets
import FusionCompiler.Proofs.Fusion.Building
import FusionCompiler.Proofs.Fusion.Operations
import FusionCompiler.Proofs.Kernel.Folding
import FusionCompiler.Proofs.Lower.Carrying
import FusionCompiler.Proofs.Lower.Extents
import FusionCompiler.Proofs.Lower.IndexSpace
import FusionCompiler.Proofs.Lower.Counterparts
import FusionCompiler.Proofs.Lower.SharedLoops
import FusionCompiler.Proofs.Kernel.Runs
import FusionCompiler.Proofs.Lower.Barriers
import FusionCompiler.Proofs.Segment.Execution
import FusionCompiler.Proofs.Schedule.RepeatedReplays
import FusionCompiler.Proofs.Lower.ValidThreads
import FusionCompiler.Proofs.Lower.Unswitching
import FusionCompiler.Proofs.Lower.KernelStores
import FusionCompiler.Proofs.Lower.SharedLayout
import FusionCompiler.Proofs.Lower.VectorAccesses
import FusionCompiler.Proofs.Lower.TwoStages
import FusionCompiler.Proofs.Kernel.Resizing
import FusionCompiler.Proofs.Schedule.FactoredShapes
import FusionCompiler.Proofs.Kernel.Cooperation
import FusionCompiler.Proofs.Segment.Reusing
import FusionCompiler.Proofs.Schedule.ReducedAxes
import FusionCompiler.Proofs.Heuristic.MappedExtents
import FusionCompiler.Proofs.Lower.Visibility
import FusionCompiler.Proofs.Kernel.Kinds
import FusionCompiler.Proofs.Lower.HostExtents
import FusionCompiler.Proofs.Schedule.FailedCalls
import FusionCompiler.Proofs.Host.CachedVersions
import FusionCompiler.Proofs.Kernel.OneByOne
import FusionCompiler.Proofs.Schedule.ConsistentGraphs
import FusionCompiler.Proofs.Schedule.AlignedStages
import FusionCompiler.Proofs.Kernel.Counters
import FusionCompiler.Proofs.Lower.OwnLoops
import FusionCompiler.Proofs.Lower.Addresses
import FusionCompiler.Proofs.Lower.BranchBarriers
import FusionCompiler.Proofs.Segment.OwnSizes
import FusionCompiler.Proofs.Heuristic.Tilings
import FusionCompiler.Proofs.Heuristic.VectorTilings
import FusionCompiler.Proofs.Fusion.NeededExpressions
import FusionCompiler.Proofs.Segment.Exhaustion
import FusionCompiler.Proofs.Lower.ReadCells
import FusionCompiler.Proofs.Lower.LaunchWidths
import FusionCompiler.Proofs.Host.Admission
import FusionCompiler.Proofs.Fusion.FoldedOperators
import FusionCompiler.Proofs.EquivalenceClosure
import FusionCompiler.Proofs.Fusion.EqualScalars
import FusionCompiler.Proofs.Lower.ExactRoots
import FusionCompiler.Proofs.Schedule.Correspondence
import FusionCompiler.Proofs.Fusion.LaterBindings
import FusionCompiler.Proofs.Kernel.ComparedIntegers
import FusionCompiler.Proofs.Host.RowMajor
import FusionCompiler.Proofs.Schedule.Reordering
