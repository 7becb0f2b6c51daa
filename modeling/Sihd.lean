import Sihd.Lib.SortedSets
import Sihd.Lib.OnesComplement
import Sihd.Lib.Transition
import Sihd.Lib.Multimap
import Sihd.Lib.ActiveTime
import Sihd.Lib.Bytes
import Sihd.Lib.Rows
import Sihd.Lib.Segmentation
import Sihd.Lib.Cut
import Sihd.Lib.Pieces
import Sihd.Lib.LexicalPath
import Sihd.Lib.FileTree
import Sihd.Lib.FileWalk
import Sihd.Lib.FileStream
import Sihd.Lib.Heap
import Sihd.Lib.Ledger
import Sihd.Lib.Rendezvous
import Sihd.Lib.SlotTable
import Sihd.Lib.ChildProcess
import Sihd.Lib.Percent
import Sihd.Lib.Decimal
import Sihd.Lib.OrderedMap
import Sihd.Lib.UnorderedMap
import Sihd.Lib.IdCache
import Sihd.Lib.Json
import Sihd.Lib.JsonReader
import Sihd.Util.Scheduler.Definitions
import Sihd.Util.Scheduler.World
import Sihd.Util.Scheduler.Moves
import Sihd.Util.Scheduler.Conservation
import Sihd.Util.Scheduler.Ownership
import Sihd.Util.Scheduler.Selection
import Sihd.Util.Scheduler.Deadline
import Sihd.Util.Scheduler.Chronicle
import Sihd.Util.Scheduler.Pause
import Sihd.Util.DataType
import Sihd.Util.Array
import Sihd.Util.ArrayOwnership
import Sihd.Util.ArrayMemory
import Sihd.Util.ArrayGrowth
import Sihd.Util.ArrayInsertion
import Sihd.Util.ArrayOperations
import Sihd.Util.ArrayRefinement
import Sihd.Util.SafeQueue
import Sihd.Util.ThreadPool
import Sihd.Util.Synchronizer
import Sihd.Util.SynchronizedPair
import Sihd.Util.Worker
import Sihd.Util.WorkerThreads
import Sihd.Util.WorkerStarts
import Sihd.Util.WorkerMeetings
import Sihd.Util.WorkerRuns
import Sihd.Util.StateMachine
import Sihd.Util.ServiceController
import Sihd.Util.ABlockingService
import Sihd.Util.BlockingServiceRuns
import Sihd.Util.LoopService
import Sihd.Util.Collector
import Sihd.Util.Observable
import Sihd.Util.ObserverWaiter
import Sihd.Util.Message.Definitions
import Sihd.Util.Message.Layout
import Sihd.Util.Message.Clone
import Sihd.Util.DynMessage.Definitions
import Sihd.Util.DynMessage.Layout
import Sihd.Util.Str
import Sihd.Util.Number
import Sihd.Util.Splitter.Definitions
import Sihd.Util.Splitter.Pieces
import Sihd.Util.Splitter.Lines
import Sihd.Util.Splitter.Plain
import Sihd.Util.Splitter.Scan
import Sihd.Util.Splitter.Passes
import Sihd.Util.Splitter.Method
import Sihd.Util.Splitter.Joined
import Sihd.Util.Splitter.Enclosures
import Sihd.Util.Splitter.Views
import Sihd.Util.Time
import Sihd.Util.Url.Definitions
import Sihd.Util.Url.Parts
import Sihd.Util.Url.Parsed
import Sihd.Util.Url.RoundTrip
import Sihd.Sys.Path
import Sihd.Sys.Jail
import Sihd.Sys.Files
import Sihd.Sys.Environment
import Sihd.Sys.File
import Sihd.Sys.FileTouches
import Sihd.Sys.FileContents
import Sihd.Sys.Poll
import Sihd.Sys.PollInterests
import Sihd.Sys.PollLoop
import Sihd.Net.BasicServerHandler
import Sihd.Net.Delivery
import Sihd.Net.Service
import Sihd.Net.Ip
import Sihd.Net.IcmpSender
import Sihd.Net.Pinger
import Sihd.Ssh.SshSubsystemExec
import Sihd.Ssh.SshSubsystemPty
import Sihd.Ssh.SshSubsystemSftp
import Sihd.Ssh.BasicSshServerHandler
import Sihd.Ssh.ChannelTraffic
import Sihd.Ssh.Confinement
import Sihd.Ssh.PositionalFiles
import Sihd.Ssh.PositionalRuns
import Sihd.Ssh.PositionalStreams
import Sihd.Sys.Process
import Sihd.Sys.ProcessOutput
import Sihd.Sys.ProcessOutputRuns
import Sihd.Sys.Bitmap
import Sihd.Sys.BitmapFile
import Sihd.Sys.LineReader
import Sihd.Sys.LineBuffers
import Sihd.Csv.Definitions
import Sihd.Csv.Quoting
import Sihd.Csv.Columns
import Sihd.Csv.Records
import Sihd.Csv.RoundTrip
import Sihd.Csv.Agreement
import Sihd.Json.Definitions
import Sihd.Json.RoundTrip
import Sihd.Http.RequestType
import Sihd.Http.Header
import Sihd.Http.Request
import Sihd.Http.Response
import Sihd.Http.Route
import Sihd.Http.Decoding
import Sihd.Core.DevPlayer
import Sihd.Core.Channel
import Sihd.Core.DevFilter
import Sihd.Core.DevMessage
import Sihd.Core.DevSampler
import Sihd.Core.DevRecorder
import Sihd.Core.Device
import Sihd.Core.DeviceRuns
import Sihd.Imgui.ImguiRendererNcurses
import Sihd.Http.Navigator
import Sihd.Http.SsrfGuard
import Sihd.Lib.Inotify
import Sihd.Util.Cache
import Sihd.Sys.FileWatcher
import Sihd.Sys.FileCache
import Sihd.Sys.FileCacheRuns
import Sihd.Sys.SigHandler
import Sihd.Sys.SigWatcher
import Sihd.Sys.SigWatcherRuns
import Sihd.Http.NavigatorWebSocket
import Sihd.Http.NavigatorWebSocketRuns
import Sihd.Util.StepWorker
import Sihd.Util.Slice
import Sihd.Util.Str.Wrap
import Sihd.Util.Str.WordWrap
import Sihd.Util.Str.WordWrapRuns
import Sihd.Lib.Rounding
import Sihd.Util.Str.Columns
import Sihd.Util.Str.Escape
import Sihd.Util.Str.Replace
import Sihd.Util.Str.Convert
import Sihd.Lib.EditDistance
import Sihd.Util.Str.Search
import Sihd.Util.Str.Affixes
import Sihd.Util.StrConfiguration
import Sihd.Util.PSquareEstimator
import Sihd.Util.CacheFreshness
import Sihd.Http.HttpServer
import Sihd.Http.ServerAuthentication
import Sihd.Http.ServerResponses
import Sihd.Http.RouteAlignment
import Sihd.Lib.StableSort
import Sihd.Http.RoutePrecedence
import Sihd.Http.HeaderHistory
import Sihd.Http.RobotsTxt
import Sihd.Http.RobotsEdits
import Sihd.Net.IpAddr
import Sihd.Net.Checksum
import Sihd.Util.Named
import Sihd.Sys.FilePoller
import Sihd.Sys.FileRenames
import Sihd.Util.ArrayUtils
import Sihd.Util.ArrayCapacity
import Sihd.Util.ArrayText
import Sihd.Util.Hash
import Sihd.Zip.ZipFile
import Sihd.Tui.CliComponent
import Sihd.Lib.Sha1
import Sihd.Util.Str.Trim
import Sihd.Http.LinkExtractor
import Sihd.Http.RequestBody
import Sihd.Util.Stat
import Sihd.Sys.ProcessInfo
import Sihd.Util.Node
import Sihd.Lib.Lifecycle
import Sihd.Ssh.SshServer
import Sihd.Ssh.SshServerHandler
import Sihd.Ssh.SshServerRuns
