import Tagaspi.Environment
import Tagaspi.Gaspi
import Tagaspi.HardwareInfo
import Tagaspi.Lib.Containers
import Tagaspi.Lib.Ledger
import Tagaspi.Lib.Liveness
import Tagaspi.Lib.Lock
import Tagaspi.Lib.Loops
import Tagaspi.Lib.Lts
import Tagaspi.MPSCLockFreeQueue
import Tagaspi.MPSCLockFreeQueue.Progress
import Tagaspi.Notifications.Accounting
import Tagaspi.Notifications.Arrivals
import Tagaspi.Notifications.Buffer
import Tagaspi.Notifications.Completion
import Tagaspi.Notifications.EnqueueProgress
import Tagaspi.Notifications.Events
import Tagaspi.Notifications.Liveness
import Tagaspi.Notifications.Model
import Tagaspi.Notifications.OnePass
import Tagaspi.Notifications.Ownership
import Tagaspi.Notifications.Progress
import Tagaspi.Notifications.Recycling
import Tagaspi.Notifications.Rounds
import Tagaspi.Notifications.Schedules
import Tagaspi.Notifications.WaitingRangeQueue
import Tagaspi.Polling.Lifecycle
import Tagaspi.Polling.Pass
import Tagaspi.Polling.PassRun
import Tagaspi.Polling.Queues
import Tagaspi.Polling.Shutdown
import Tagaspi.QueueGroups.Balance
import Tagaspi.QueueGroups.Calls
import Tagaspi.QueueGroups.Distribution
import Tagaspi.QueueGroups.Locked
import Tagaspi.QueueGroups.OwnQueues
import Tagaspi.QueueGroups.QueueGroup
import Tagaspi.QueueGroups.RoundRobin
import Tagaspi.QueueGroups.Spread
import Tagaspi.QueueGroups.Table
import Tagaspi.Runtime.Drain
import Tagaspi.Runtime.Events
import Tagaspi.Runtime.Model
import Tagaspi.Runtime.Release
import Tagaspi.SpinLock
import Tagaspi.SpinLock.Progress
import Tagaspi.TaskingModel
import Tagaspi.WaitingRange
