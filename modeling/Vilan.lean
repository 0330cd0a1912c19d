import Vilan.Core.CodecTrips
import Vilan.Core.ImplProofs
import Vilan.Core.JsPreserved
import Vilan.Core.LineEndsKept
import Vilan.Core.LiveEntries
import Vilan.Core.SourceMapShown
import Vilan.Core.VarintInverse
import Vilan.Executor.Armed
import Vilan.Executor.Slab
import Vilan.Http.BodyRuns
import Vilan.Http.HeadFields
import Vilan.Http.HeaderParameters
import Vilan.Http.MultipartDrip
import Vilan.Lsp.ScheduleExact
import Vilan.Native.JsonGrammar
import Vilan.Reactive.DeltaLogRuns
import Vilan.Reactive.Draft
import Vilan.Reactive.ElementRuns
import Vilan.Reactive.FilterPipe
import Vilan.Reactive.KeyedDiff
import Vilan.Reactive.MapEach
import Vilan.Reactive.MapFilter
import Vilan.Reactive.MapFolds
import Vilan.Reactive.Optimistic
import Vilan.Reactive.StoreWakes
import Vilan.Reactive.ThrownTurn
import Vilan.Reactive.TrackingRuns
import Vilan.Reactive.TransientLaws
import Vilan.Reactive.TransientRuns
import Vilan.Reactive.TurnQueues
import Vilan.Rpc.KeyedRuns
import Vilan.Rpc.MirrorFollows
import Vilan.Rpc.MirrorSplices
import Vilan.Rpc.ServerOrders
import Vilan.Rpc.SocketCalls
import Vilan.Rpc.SocketClosed
import Vilan.Rpc.SplitChunks
import Vilan.Rpc.WebSocketControl
import Vilan.Std.BinaryRuns
import Vilan.Std.JsonReads
import Vilan.Std.Jwt
import Vilan.Std.PathLaws
import Vilan.Std.PathPrefix
import Vilan.Time.DebounceRuns
import Vilan.Web.Checks
import Vilan.Web.Composed
import Vilan.Web.Router
