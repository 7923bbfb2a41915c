import SgMuni.Transition.System
import SgMuni.Transition.History
import SgMuni.Transition.Mapping
import SgMuni.Queue.Bounded
import SgMuni.Queue.Circular
import SgMuni.RingBuffer.Basic
import SgMuni.RingBuffer.Threads
import SgMuni.RingBuffer.Refinement
import SgMuni.RingBuffer.Wakeups
import SgMuni.RingBuffer.Timeouts
import SgMuni.C.Text
import SgMuni.C.Bytes
import SgMuni.C.Lines
import SgMuni.C.Stdio
import SgMuni.C.Outcome
import SgMuni.C.Strtod
import SgMuni.C.Blocks
import SgMuni.Cache.Latest
import SgMuni.Heap.Chain
import SgMuni.Heap.Owners
import SgMuni.Request.Parser
import SgMuni.Json.Print
import SgMuni.Json.Strings
import SgMuni.Json.Literals
import SgMuni.Json.Parser
import SgMuni.Json.Grammar
import SgMuni.Json.Acceptance
import SgMuni.Json.RoundTrip
import SgMuni.Json.Unicode
import SgMuni.Json.PrintBuffer
import SgMuni.Json.PrintRefinement
import SgMuni.Json.Nodes
import SgMuni.Json.Trees
import SgMuni.Json.PrintNodes
import SgMuni.Json.Building
import SgMuni.Lift.Message
import SgMuni.Gpio.Monitor
import SgMuni.Gpio.Reverse
import SgMuni.Gpio.Reports
import SgMuni.Gpio.Status
import SgMuni.Gpio.Outputs
import SgMuni.Gpio.Samples
import SgMuni.Config.Boot
import SgMuni.Config.Settings
import SgMuni.Config.DefaultItems
import SgMuni.Config.SerialNumber
import SgMuni.Stream.Segments
import SgMuni.Stream.PrefixCode
import SgMuni.Lift.Downstream
import SgMuni.Lift.MessageItems
import SgMuni.Stream.Writes
import SgMuni.Request.Framing
import SgMuni.Request.Grammar
import SgMuni.Request.Numbers
import SgMuni.Request.Leftovers
import SgMuni.Request.Tasks
import SgMuni.Request.Ownership
import SgMuni.Pending.List
import SgMuni.Pending.Retransmission
import SgMuni.Pending.Clients
import SgMuni.Pending.GivenUp
import SgMuni.Pending.Heap
import SgMuni.Transition.WaitGraph
import SgMuni.Transition.Mutex
import SgMuni.Tcp.Registry
import SgMuni.Tcp.ClientArray
import SgMuni.Tcp.Server
import SgMuni.Tcp.Moves
import SgMuni.Tcp.Locks
import SgMuni.Tcp.Deadlock
import SgMuni.Tcp.Connections
import SgMuni.Tcp.Writes
import SgMuni.Tcp.Descriptors
import SgMuni.Tcp.Teardown
import SgMuni.Tcp.Lifecycle
import SgMuni.Tcp.Broadcasts
import SgMuni.Tcp.Messages
import SgMuni.Tcp.Delivery
import SgMuni.Lift.Handlers
import SgMuni.Lift.Moves
import SgMuni.Lift.Sections
import SgMuni.Lift.Numbers
import SgMuni.Lift.Acknowledged
import SgMuni.Lift.Order
import SgMuni.Lift.Restarts
import SgMuni.Lift.CountFile
import SgMuni.Lift.Clearing
import SgMuni.Lift.Reused
import SgMuni.Request.Lines
import SgMuni.Request.Effects
import SgMuni.Shutdown.Process
import SgMuni.Shutdown.Moves
import SgMuni.Shutdown.Progress
import SgMuni.Shutdown.Joins
import SgMuni.Shutdown.Inbox
import SgMuni.Log.Threads
import SgMuni.Log.OpenStream
import SgMuni.Log.Rotation
