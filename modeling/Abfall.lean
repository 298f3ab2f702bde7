import Abfall.Transition
import Abfall.Chain
import Abfall.Worklist
import Abfall.Basic
import Abfall.Mark
import Abfall.Closure
import Abfall.Sweep
import Abfall.Collect
import Abfall.Wellformed
import Abfall.StopTheWorld
import Abfall.Pacing
import Abfall.Footprint
import Abfall.Tricolor
import Abfall.Budget
import Abfall.Assist
import Abfall.TraceImpls
import Abfall.Panics
import Abfall.Incremental
import Abfall.Abort
import Abfall.MarkLog
import Abfall.MarkCall
import Abfall.Cycles
import Abfall.Stuck
import Abfall.Reclaim
import Abfall.Destroy
import Abfall.Contexts
import Abfall.CurrentCtx
import Abfall.Conc.Push
import Abfall.Conc.Traverse
import Abfall.Conc.Bytes
import Abfall.Conc.Phase
import Abfall.Conc.Worker
import Abfall.Conc.Workers
import Abfall.Conc.Termination
import Abfall.Conc.Barrier
import Abfall.Conc.BarrierAtomic
import Abfall.Conc.StartStop
import Abfall.Conc.Background
import Abfall.Conc.Sweeping
import Abfall.Conc.SweepCycles
import Abfall.Handles
import Abfall.Lifetimes
import Abfall.Mutator
import Abfall.Transparent
