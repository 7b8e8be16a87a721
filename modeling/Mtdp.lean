import Mtdp.Lib.Critical
import Mtdp.Lib.Fair
import Mtdp.Lib.Ledger
import Mtdp.Lib.Move
import Mtdp.Lib.Queue
import Mtdp.Lib.Transition
import Mtdp.Fifo.Accesses
import Mtdp.Fifo.ShiftInPlace
import Mtdp.Fifo.Storage
import Mtdp.Pipe.Calls
import Mtdp.Pipe.Channel
import Mtdp.Pipe.FailedResize
import Mtdp.Pipe.Lock
import Mtdp.Pool.Stack
import Mtdp.StaticInstances
import Mtdp.Worker.Quiet
import Mtdp.Pipeline.Gate
import Mtdp.Pipeline.Tokens
import Mtdp.Pipeline.Disable
import Mtdp.Pipeline.Lifecycle
import Mtdp.Pipeline.Finish
import Mtdp.Pipeline.Ownership
import Mtdp.Pipeline.Wait
import Mtdp.Pipeline.Determinism
import Mtdp.Pipeline.Activity
import Mtdp.Pipeline.Enable
import Mtdp.Pipeline.Teardown
import Mtdp.Pipeline.Waiters
import Mtdp.Pipeline.Modes
import Mtdp.Pipeline.Quiet
import Mtdp.Pipeline.Progress
import Mtdp.Pipeline.Termination
import Mtdp.Pipeline.Drain
import Mtdp.Pipeline.Rounds
import Mtdp.Pipeline.Assertions
import Mtdp.Pipeline.LockedStreams
import Mtdp.Pipeline.ConcreteRefinement
