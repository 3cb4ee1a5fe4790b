import AdMQ.Ini.Lines
import AdMQ.Broker.Rbac.Unsubscribe
import AdMQ.Broker.Rbac.Isolation
import AdMQ.Broker.Rbac.Declared
import AdMQ.Broker.PubSub.Refinement
import AdMQ.Broker.Client.Buffer
import AdMQ.Broker.Client.Hash
import AdMQ.Broker.Client.Registry
import AdMQ.Core.Transition
import AdMQ.Broker.Client.Dangling
import AdMQ.Broker.Locks.Protocol
import AdMQ.Broker.Locks.Deadlock
import AdMQ.Broker.PubSub.Members
import AdMQ.Broker.Threads.State
import AdMQ.Broker.Threads.Moves
import AdMQ.Broker.Threads.Ownership
import AdMQ.Broker.Threads.Authority
import AdMQ.Core.Journal
import AdMQ.Broker.Threads.Subscribers
import AdMQ.Broker.Threads.Deliveries
import AdMQ.Broker.Threads.Monitor
import AdMQ.Broker.Threads.Identity
import AdMQ.Core.Mesa
import AdMQ.Core.Ring
import AdMQ.Broker.Queue.TsQueue
import AdMQ.Broker.Queue.Wakeups
import AdMQ.Agent.Message
import AdMQ.Agent.StateLine
import AdMQ.Agent.OneShot
import AdMQ.Broker.Client.Framing
import AdMQ.Broker.Client.Calls
import AdMQ.Broker.Threads.Audit
import AdMQ.Broker.PubSub.Broadcast
import AdMQ.Broker.PubSub.Capacity
import AdMQ.Broker.Threads.Handles
import AdMQ.Broker.Threads.Sweeping
import AdMQ.Core.Unwinding
import AdMQ.Core.RecordLayer
import AdMQ.Broker.Client.Readiness
import AdMQ.Broker.Serial.Serve
import AdMQ.Broker.Serial.DeviceState
import AdMQ.Broker.Serial.Replies
import AdMQ.Broker.Serial.Alone
import AdMQ.Broker.Serial.Acknowledged
import AdMQ.Agent.Tokenizer
import AdMQ.Agent.Accesses
import AdMQ.Agent.Lexical
import AdMQ.Agent.Quoting
import AdMQ.Agent.Action
import AdMQ.Agent.ActionFile
import AdMQ.Core.Path
import AdMQ.Agent.ActionPath
import AdMQ.Broker.Worker.Grammar
import AdMQ.Broker.Client.Draining
import AdMQ.Broker.Client.Naming
import AdMQ.Broker.Client.Sweep
import AdMQ.Core.Memory
import AdMQ.Core.CharArray
import AdMQ.Core.Atoi
import AdMQ.Core.Search
import AdMQ.Core.Zipper
import AdMQ.Ini.Settings
import AdMQ.Ini.Config
import AdMQ.Ini.RoundTrip
import AdMQ.Cli.Editor
import AdMQ.Cli.Layout
import AdMQ.Cli.Reference
import AdMQ.Cli.Enter
import AdMQ.Cli.Commands
import AdMQ.Cli.Copies
import AdMQ.Broker.Enroll.Request
import AdMQ.Broker.Enroll.Files
import AdMQ.Broker.Client.Accesses
import AdMQ.Broker.Rbac.Comments
import AdMQ.Core.Potential
import AdMQ.Agent.Session
import AdMQ.Fleet.Network
import AdMQ.Fleet.Rest
import AdMQ.Fleet.Orders
import AdMQ.Broker.Threads.Lifetime
import AdMQ.Broker.Threads.NameKeys
import AdMQ.Core.Heap
import AdMQ.Broker.Client.HeapTable
import AdMQ.Agent.Arguments
