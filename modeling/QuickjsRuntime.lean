import QuickjsRuntime.Foundation.Transition
import QuickjsRuntime.Foundation.Quiescence
import QuickjsRuntime.Foundation.Unicode
import QuickjsRuntime.Foundation.Sextets
import QuickjsRuntime.Foundation.Multimap
import QuickjsRuntime.Foundation.PlainObject
import QuickjsRuntime.Foundation.Threads
import QuickjsRuntime.Foundation.DotSegments
import QuickjsRuntime.Foundation.Congruential
import QuickjsRuntime.Foundation.Copying
import QuickjsRuntime.Foundation.Ownership
import QuickjsRuntime.Foundation.JsonFormats
import QuickjsRuntime.Pool.State
import QuickjsRuntime.Pool.Acquire
import QuickjsRuntime.Pool.Invariant
import QuickjsRuntime.Pool.Move
import QuickjsRuntime.Pool.Preservation
import QuickjsRuntime.Pool.Record
import QuickjsRuntime.Pool.Routing
import QuickjsRuntime.Pool.WorkerExit
import QuickjsRuntime.Pool.FailedDispatch
import QuickjsRuntime.Pool.Lifecycle
import QuickjsRuntime.Pool.Saturation
import QuickjsRuntime.Pool.Progress
import QuickjsRuntime.Pool.Remote
import QuickjsRuntime.Pool.Caller
import QuickjsRuntime.Pool.ExecutorLoop
import QuickjsRuntime.Timers.Scheduler
import QuickjsRuntime.Timers.Calls
import QuickjsRuntime.Timers.Drain
import QuickjsRuntime.Timers.Selection
import QuickjsRuntime.Timers.BlockingDrain
import QuickjsRuntime.Timers.Turns
import QuickjsRuntime.Timers.Numbering
import QuickjsRuntime.Timers.Lifetimes
import QuickjsRuntime.Timers.FiringOrder
import QuickjsRuntime.Timers.DeadEntries
import QuickjsRuntime.Timers.Delays
import QuickjsRuntime.Timers.WallClock
import QuickjsRuntime.Timers.StormGuard
import QuickjsRuntime.Timers.Starvation
import QuickjsRuntime.Timers.Reinstall
import QuickjsRuntime.Bridge.CallbackTable
import QuickjsRuntime.Bridge.Stringify
import QuickjsRuntime.Bridge.Marshal
import QuickjsRuntime.Bridge.CString
import QuickjsRuntime.Bridge.NativeMemory
import QuickjsRuntime.Bridge.Leaks
import QuickjsRuntime.Bridge.StringLiteral
import QuickjsRuntime.Bridge.Eval
import QuickjsRuntime.Bridge.Registration
import QuickjsRuntime.Bridge.PendingJobs
import QuickjsRuntime.Bridge.AutoDrain
import QuickjsRuntime.Pool.RunAsync
import QuickjsRuntime.Pool.Transport
import QuickjsRuntime.Url.Encode
import QuickjsRuntime.Url.Dots
import QuickjsRuntime.Url.Parse
import QuickjsRuntime.Url.Reading
import QuickjsRuntime.Url.Reread
import QuickjsRuntime.Url.Resolve
import QuickjsRuntime.Url.Setters
import QuickjsRuntime.Url.Stable
import QuickjsRuntime.Url.TailSetters
import QuickjsRuntime.Url.AuthoritySetters
import QuickjsRuntime.Url.HostSetters
import QuickjsRuntime.Url.PathnameSetter
import QuickjsRuntime.Url.RelativePath
import QuickjsRuntime.Url.Pieces
import QuickjsRuntime.Url.Fixpoint
import QuickjsRuntime.Url.RecordInvariant
import QuickjsRuntime.Url.FormCodec
import QuickjsRuntime.Url.SearchParams
import QuickjsRuntime.Url.Authority
import QuickjsRuntime.Url.EntryPoints
import QuickjsRuntime.Url.UriComponent
import QuickjsRuntime.Url.FileUrl
import QuickjsRuntime.Url.RawText
import QuickjsRuntime.Codec.Buffer
import QuickjsRuntime.Codec.Fallbacks
import QuickjsRuntime.Codec.ByteLength
import QuickjsRuntime.Codec.Base64Url
import QuickjsRuntime.Codec.Copy
import QuickjsRuntime.Codec.Write
import QuickjsRuntime.Codec.Compare
import QuickjsRuntime.Codec.Search
import QuickjsRuntime.Codec.Concat
import QuickjsRuntime.Codec.Ranges
import QuickjsRuntime.Events.Emitter
import QuickjsRuntime.Events.Effects
import QuickjsRuntime.Events.OnceOnly
import QuickjsRuntime.Events.Passive
import QuickjsRuntime.Events.Consumption
import QuickjsRuntime.Events.Balance
import QuickjsRuntime.Events.InEffect
import QuickjsRuntime.Events.ListDiscipline
import QuickjsRuntime.Events.Renaming
import QuickjsRuntime.Modules.Require
import QuickjsRuntime.Assert.DeepEqual
import QuickjsRuntime.Path.Posix
import QuickjsRuntime.Path.Decompose
import QuickjsRuntime.Url.RemoveDots
import QuickjsRuntime.Crypto.Uuid
import QuickjsRuntime.Crypto.RandomValues
import QuickjsRuntime.Fetch.Headers
import QuickjsRuntime.Fetch.HeaderHistory
import QuickjsRuntime.Fetch.Response
import QuickjsRuntime.Fetch.Transport
