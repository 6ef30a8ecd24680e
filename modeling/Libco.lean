import Libco.Lib.Runs
import Libco.Lib.History
import Libco.Lib.MinHeap
import Libco.Lib.Segment
import Libco.Basic
import Libco.Queue
import Libco.Links
import Libco.Timer
import Libco.TimerHeap
import Libco.Routine
import Libco.Sync.Mutex
import Libco.Sync.Cond
import Libco.Sync.Channel
import Libco.Platform.Epoll
import Libco.Platform.Iocp
import Libco.Scheduler
import Libco.Lib.Count
import Libco.Placement
import Libco.Transfer
import Libco.Moves
import Libco.Invariant
import Libco.Steps.Calls
import Libco.Steps.Io
import Libco.Steps
import Libco.Records
import Libco.StaleTimers
import Libco.Footprint
import Libco.Plain
import Libco.Exclusion
import Libco.OnePlace
import Libco.Dispatch
import Libco.Deadlines
import Libco.Layout
import Libco.TimerPhase
import Libco.FailedCalls
import Libco.Clock
import Libco.Punctual
import Libco.Registrations
import Libco.Holdings
import Libco.Stacks
import Libco.Teardown
import Libco.PollTimeout
import Libco.Kernel
import Libco.Waits
import Libco.Readiness
import Libco.Descriptors
import Libco.Retry
import Libco.Association
import Libco.RunReturn
import Libco.CallNumbers
import Libco.Completions
import Libco.Channels
import Libco.Delivery
import Libco.Messages
import Libco.Rings
import Libco.Holders
import Libco.Conditions
import Libco.Coxx.Mutex
import Libco.Coxx.Monitor
import Libco.Coxx.WaitGroup
import Libco.Coxx.Task
import Libco.Coxx.CondVar
import Libco.Lib.Budget
import Libco.Lib.Account
import Libco.Progress
import Libco.Deadlock
import Libco.Resumption
import Libco.Lifetime
import Libco.Lib.Forest
import Libco.ChannelTrees
import Libco.Lib.Dataflow
import Libco.Told
import Libco.Dataflow
import Libco.DataflowCalls
import Libco.Determinacy
