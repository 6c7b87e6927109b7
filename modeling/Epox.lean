import Epox.Foundation.Ring
import Epox.Foundation.Family
import Epox.Queue.Pointer
import Epox.Queue.Refinement
import Epox.Foundation.Transition
import Epox.Executor.Machine
import Epox.Executor.WellFormed
import Epox.Executor.Lifecycle
import Epox.Executor.Wakes
import Epox.Executor.Events
import Epox.Executor.Completion
import Epox.Executor.Parking
import Epox.Executor.Delivery
import Epox.Process.Model
import Epox.Process.Names
import Epox.Process.Confinement
import Epox.Process.Backlog
import Epox.Foundation.Agenda
import Epox.Scheduler.Order
import Epox.Queue.Ownership
import Epox.Executor.Waiting
import Epox.Executor.Readiness
import Epox.Executor.Shutdown
import Epox.Executor.Queueing
import Epox.Executor.Teardown
import Epox.Executor.Nesting
import Epox.Executor.Overtaking
import Epox.Executor.Exit
import Epox.Executor.Residence
import Epox.Executor.Checked
import Epox.Executor.Closures
import Epox.Executor.Result
import Epox.Executor.Yielding
import Epox.Foundation.Recurrence
import Epox.Executor.Bursts
import Epox.Foundation.Descriptors
import Epox.Foundation.Accounts
import Epox.Fd.Registration
import Epox.Fd.Refinement
import Epox.Fd.Signal
import Epox.Join.Protocol
import Epox.Fd.Flush
import Epox.Waker.References
import Epox.Waker.InFlight
import Epox.Foundation.Progress
import Epox.Fd.Transfer
import Epox.Fd.Reception
import Epox.Timer.Clock
import Epox.Timer.Timeout
import Epox.Timer.Ticks
import Epox.Executor.Turns
import Epox.Executor.Liveness
import Epox.Executor.Awaiting
import Epox.Foundation.Part
import Epox.Join.Await
