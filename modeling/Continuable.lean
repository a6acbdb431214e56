import Continuable.Effect
import Continuable.Primitives
import Continuable.ChainFold
import Continuable.AsyncTraversalVisits
import Continuable.SeqSettling
import Continuable.AllBehaviour
import Continuable.OnceReentry
import Continuable.FrozenPaths
import Continuable.HandleRuns
import Continuable.MapPackCoverage
import Continuable.AggregatedCoverage
import Continuable.AnyRuns
import Continuable.Activation
import Continuable.SeqOperator
import Continuable.OperatorTrees
import Continuable.OperatorRuns
import Continuable.OperatorMerging
import Continuable.OperatorBehaviour
import Continuable.Awaitable
import Continuable.AwaitableRuns
import Continuable.Coroutine
import Continuable.Monitor
import Continuable.WaitUnsafe
import Continuable.WaitRelaxed
import Continuable.WaitRelaxedRuns
import Continuable.LoopFrame
import Continuable.RangeLoop
import Continuable.ResultVariant
import Continuable.ResultVariantRuns
import Continuable.SplitReentry
import Continuable.SplitPromise
import Continuable.SplitFanOut
import Continuable.ChainDestruction
import Continuable.SubmitterOwners
import Continuable.Endings
import Continuable.StdPromise
import Continuable.ToFuture
import Continuable.WaitAndUnpack
import Continuable.WaitProgress
import Continuable.Transforms
import Continuable.Runtime
import Continuable.Waiting
import Continuable.RuntimeMeaning
import Continuable.RuntimeLaws
import Continuable.RuntimeConnections
import Continuable.RuntimeChains
import Continuable.CoroutineChains
import Continuable.TraversalAgreement
import Continuable.WaitUnsafeResults
import Continuable.WaitingLoops
import Continuable.RuntimeCoroutines
import Continuable.RuntimeFrames
import Continuable.RuntimeLoops
import Continuable.RuntimeSequences
import Continuable.SubmitterEndings
import Continuable.RuntimeHints
import Continuable.RuntimeNormalForm
import Continuable.MapPackComposition
import Continuable.RuntimeInterleavings
import Continuable.SubmitterRefinement
import Continuable.RuntimeTraversal
