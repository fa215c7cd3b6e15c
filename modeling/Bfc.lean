import Bfc.PollReactor.Dispatch
import Bfc.WakeUp.NoLostWakeUp
import Bfc.LossyQueue.Refinement
import Bfc.SharedBuffer.Exact
import Bfc.Timers.Runs
import Bfc.Removals.NotStranded
import Bfc.EpollReactor.Stale
import Bfc.Function.Sound
import Bfc.Metric.Metric
import Bfc.ThreadPool.Tasks
import Bfc.ThreadPool.Leaks
import Bfc.ThreadPool.Shutdown
import Bfc.CvReactor.NoLostPush
import Bfc.RunLoop.WakeUps
import Bfc.RunLoop.Stop
import Bfc.PollReactor.Running
import Bfc.EpollReactor.Running
import Bfc.WriteReady.OneShot
import Bfc.Timers.Cancellation
import Bfc.Timers.NeverEarly
import Bfc.SharedBuffer.Isolation
import Bfc.MemoryPool.NotTwice
import Bfc.MemoryPool.KeptBlocks
import Bfc.Buffers.WithinStorage
import Bfc.EventQueue.Delivery
import Bfc.Registration.Failures
import Bfc.Function.Balanced
import Bfc.ReadHandler.Reentrant
import Bfc.Configuration.Files
import Bfc.Commands.Rendered
import Bfc.Timeouts.Bounded
import Bfc.EpollReactor.NoLostWakeUp
import Bfc.EventQueue.Bindings
import Bfc.ObjectRegistry.Registry
import Bfc.LossyQueue.Elements
import Bfc.Timeouts.Punctual
import Bfc.ThreadPool.Progress
import Bfc.Sockets.Descriptors
import Bfc.Registration.Refinement
import Bfc.Registration.Closing
import Bfc.ReactorQueues.Passes
