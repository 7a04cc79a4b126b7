import Fncs.Lib.OrdMap
import Fncs.Lib.Trace
import Fncs.Broker.State
import Fncs.Broker.Handlers
import Fncs.Broker.Cases
import Fncs.Broker.Session
import Fncs.Broker.Wakeup
import Fncs.Broker.Formation
import Fncs.Lib.Pending
import Fncs.Broker.Agreement
import Fncs.Broker.Collect
import Fncs.Broker.ActiveSet
import Fncs.Broker.Fork
import Fncs.Broker.Registration
import Fncs.Broker.Finalize
import Fncs.Broker.Routing
import Fncs.Sync.Time
import Fncs.Sync.Clock
import Fncs.Sync.GracePeriod
import Fncs.Sync.Rounds
import Fncs.Sync.Reactive
import Fncs.Lib.NextEvent
import Fncs.Sync.Client
import Fncs.Sync.ActiveSet
import Fncs.Sync.Scenario
import Fncs.Sync.Lockstep
import Fncs.Sync.Units
import Fncs.Sync.Refinement
import Fncs.Sync.Traffic
import Fncs.Sync.Reporting
import Fncs.Sync.Difference
import Fncs.Sync.Conservation
import Fncs.Lib.Tally
import Fncs.Sync.Ledger
import Fncs.Sync.Broadcast
import Fncs.Sync.Copies
import Fncs.Sync.Sleeping
import Fncs.Sync.Grants
import Fncs.Sync.Entries
import Fncs.Sync.Sleepers
import Fncs.Sync.Moves
import Fncs.Sync.Awake
import Fncs.Sync.Dormancy
import Fncs.Sync.Phases
import Fncs.Sync.Calm
import Fncs.Sync.Table
import Fncs.Sync.Order
import Fncs.Sync.Exchange
import Fncs.Sync.Turns
import Fncs.Sync.Consistency
import Fncs.Sync.Accounting
import Fncs.Lib.Positions
import Fncs.Inbox.Interface
import Fncs.Inbox.Iteration
import Fncs.Inbox.Drain
import Fncs.Inbox.Buffering
import Fncs.Inbox.Loss
import Fncs.Inbox.Keeping
import Fncs.Lib.Codec
import Fncs.Wire.Header
import Fncs.Lib.Scanner
import Fncs.Wire.Scan
import Fncs.Wire.Zmq
import Fncs.Wire.Routes
import Fncs.Wire.Delay
import Fncs.Wire.Memory
import Fncs.Wire.Stamps
import Fncs.Wire.Publications
import Fncs.Lib.Channel
import Fncs.Wire.Mpi
import Fncs.Optimistic.Context
import Fncs.Optimistic.Speculation
import Fncs.Optimistic.Granted
import Fncs.Optimistic.LookAhead
import Fncs.Optimistic.Finish
import Fncs.Broker.BackEnds
import Fncs.Broker.Groups
import Fncs.Broker.Indices
import Fncs.Broker.Underway
import Fncs.Broker.Acceptance
import Fncs.Sync.Quiescence
