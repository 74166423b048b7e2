import NewRpc.Exec
import NewRpc.Logged
import NewRpc.Reflection
import NewRpc.Serialization
import NewRpc.Encoding
import NewRpc.RoundTrip
import NewRpc.Spelling
import NewRpc.Acceptance
import NewRpc.Tracing
import NewRpc.Requests
import NewRpc.EncodeSafety
import NewRpc.ErrorStruct
import NewRpc.NetDefine
import NewRpc.PackageHeader
import NewRpc.RpcBase
import NewRpc.CallAccounting
import NewRpc.Resumption
import NewRpc.Message
import NewRpc.Socket
import NewRpc.NetService
import NewRpc.Receive
import NewRpc.Survival
import NewRpc.Canonical
import NewRpc.Malformed
import NewRpc.Agreement
import NewRpc.MessageSize
import NewRpc.Calls
import NewRpc.CallSteps
import NewRpc.Matching
import NewRpc.Timers
import NewRpc.Lifetime
import NewRpc.IntrusiveList
import NewRpc.CoroutineQueue
import NewRpc.CoroutineQueues
import NewRpc.TimeService
import NewRpc.Sleepers
import NewRpc.Task
import NewRpc.TaskSteps
import NewRpc.Reclamation
import NewRpc.Custody
import NewRpc.Pool
import NewRpc.NetThread
import NewRpc.Completion
import NewRpc.NetShutdown
import NewRpc.TimeThread
import NewRpc.TimeLists
import NewRpc.Sweep
import NewRpc.WheelScans
import NewRpc.TimeLinks
import NewRpc.NoEarly
import NewRpc.Ring
import NewRpc.CallStack
import NewRpc.Chains
import NewRpc.RootEffects
import NewRpc.Handles
import NewRpc.FrameWork
import NewRpc.Places
import NewRpc.OnePlace
import NewRpc.CallTable
import NewRpc.TextBuffer
import NewRpc.Stringification
import NewRpc.Rendering
import NewRpc.PrintBounds
import NewRpc.Truncation
import NewRpc.Partition
import NewRpc.Cycles
import NewRpc.CoroutineRings
import NewRpc.NetBuffers
import NewRpc.Chunking
import NewRpc.Fairness
import NewRpc.StartUp
import NewRpc.StartSteps
import NewRpc.Undoing
import NewRpc.Prefixes
import NewRpc.Cluster
import NewRpc.ClusterSteps
import NewRpc.Attribution
import NewRpc.EndToEnd
import NewRpc.AwaitResume
import NewRpc.CallLiveness
import NewRpc.Starvation
import NewRpc.LinkedPool
import NewRpc.Awakening
import NewRpc.Resumable
import NewRpc.Programs
import NewRpc.Termination
import NewRpc.Fibonacci
import NewRpc.Services
import NewRpc.ExampleRpc
import NewRpc.Latch
import NewRpc.DoneFlag
import NewRpc.Waits
import NewRpc.FreedMemory
import NewRpc.LogLine
