import Phi.Ai.Continuation
import Phi.Ai.GrammarInput
import Phi.Ai.JsonRepair
import Phi.Ai.Paired
import Phi.Ai.Replay
import Phi.Ai.SocketPool
import Phi.Ai.SseLines
import Phi.Ai.UuidOrder
import Phi.Ai.WebSocket
import Phi.Cbor.Reencode
import Phi.Coding.Compaction
import Phi.Coding.ControlLines
import Phi.Coding.LockedFile
import Phi.Coding.SettingsManager
import Phi.Delta.Codec
import Phi.Delta.Converge
import Phi.Delta.InPlace
import Phi.Delta.NoChange
import Phi.Delta.StringOps
import Phi.Delta.WireJson
import Phi.Edit.Fuzzy
import Phi.Edit.LineEndings
import Phi.Edit.MutationQueue
import Phi.Harness.AgentLoop
import Phi.Harness.CutPoint
import Phi.Harness.FailedCapture
import Phi.Harness.SessionContext
import Phi.Harness.StreamOptions
import Phi.Harness.Summary
import Phi.Output.CaptureExact
import Phi.Output.Maximal
import Phi.Output.Snapshot
import Phi.Protocol.Framing
import Phi.Server.Connections
import Phi.Server.Consistent
import Phi.Services.Hydrated
import Phi.Services.Publishing
import Phi.Services.Reentrant
import Phi.Session.Jsonl.Failures
import Phi.Session.Jsonl.LegacyConfiguration
import Phi.Session.Jsonl.LegacyLabels
import Phi.Session.NoLostUpdate
import Phi.Session.OperationValues
import Phi.Session.Paging
import Phi.Session.PrefixScan
import Phi.Tui.AnsiWrapStyle
import Phi.Tui.Conservation
import Phi.Tui.KillYank
import Phi.Tui.Stack
import Phi.Tui.UndoInverse
import Phi.Tui.WordWrap
import Phi.Coding.LoadedTree
