import TinyCPlus.Compiler.Arguments
import TinyCPlus.Compiler.Bounds
import TinyCPlus.Compiler.Callee
import TinyCPlus.Compiler.CaptureRuns
import TinyCPlus.Compiler.Captures
import TinyCPlus.Compiler.CaseLabels
import TinyCPlus.Compiler.IntegerReadings
import TinyCPlus.Compiler.TypeRoundTrip
import TinyCPlus.Compiler.TypeCallRuns
import TinyCPlus.Compiler.GenericInstances
import TinyCPlus.Compiler.Generics
import TinyCPlus.Compiler.CompoundAssign
import TinyCPlus.Compiler.ConstPaths
import TinyCPlus.Compiler.Construction
import TinyCPlus.Compiler.Declaration
import TinyCPlus.Compiler.Evaluation
import TinyCPlus.Compiler.ExprTree
import TinyCPlus.Compiler.Formatter
import TinyCPlus.Compiler.FormatterIdempotence
import TinyCPlus.Compiler.FormatterLayout
import TinyCPlus.Compiler.FormatterMerges
import TinyCPlus.Compiler.FormatterRoundTrip
import TinyCPlus.Compiler.FormatterSource
import TinyCPlus.Compiler.FormatterTurns
import TinyCPlus.Compiler.Lexer
import TinyCPlus.Compiler.LexerNumbers
import TinyCPlus.Compiler.LexerSpec
import TinyCPlus.Compiler.Literal
import TinyCPlus.Compiler.LoweringEnds
import TinyCPlus.Compiler.ModuleLoading
import TinyCPlus.Compiler.ModuleGrowth
import TinyCPlus.Compiler.ModuleLookup
import TinyCPlus.Compiler.Parser
import TinyCPlus.Compiler.ParserPrint
import TinyCPlus.Compiler.ParserRoundTrip
import TinyCPlus.Compiler.Positions
import TinyCPlus.Compiler.ReplBalance
import TinyCPlus.Compiler.PrintedTokens
import TinyCPlus.Compiler.ReturnCheck
import TinyCPlus.Compiler.Statement
import TinyCPlus.Compiler.Stream
import TinyCPlus.Compiler.StreamCorrect
import TinyCPlus.Compiler.StreamFusion
import TinyCPlus.Compiler.StreamLists
import TinyCPlus.Compiler.Switch
import TinyCPlus.Compiler.UnwindingRuns
import TinyCPlus.Library.CommandLine
import TinyCPlus.Library.CondVar
import TinyCPlus.Library.DepthFirst
import TinyCPlus.Library.Effects
import TinyCPlus.Library.FiniteMap
import TinyCPlus.Library.History
import TinyCPlus.Library.LinkedQueue
import TinyCPlus.Library.Machine
import TinyCPlus.Library.Probe
import TinyCPlus.Library.Scan
import TinyCPlus.Library.StateExcept
import TinyCPlus.Library.Tally
import TinyCPlus.Library.Tokenizer
import TinyCPlus.Library.Transitions
import TinyCPlus.Library.Traversal
import TinyCPlus.Protobuf.Concatenation
import TinyCPlus.Protobuf.Cursor
import TinyCPlus.Protobuf.Decoding
import TinyCPlus.Protobuf.Encoding
import TinyCPlus.Protobuf.Faithful
import TinyCPlus.Protobuf.GeneratedNames
import TinyCPlus.Protobuf.MemorySafety
import TinyCPlus.Protobuf.MergedMessage
import TinyCPlus.Protobuf.Merging
import TinyCPlus.Protobuf.Message
import TinyCPlus.Protobuf.ReadAhead
import TinyCPlus.Protobuf.ReaderSafety
import TinyCPlus.Protobuf.Records
import TinyCPlus.Protobuf.RoundTrip
import TinyCPlus.Protobuf.Schema
import TinyCPlus.Protobuf.SchemaChecks
import TinyCPlus.Protobuf.SchemaParser
import TinyCPlus.Protobuf.Skipping
import TinyCPlus.Protobuf.Utf8
import TinyCPlus.Protobuf.Wire
import TinyCPlus.Protobuf.WireRoundTrip
import TinyCPlus.Runtime.Await
import TinyCPlus.Runtime.AwaitLaw
import TinyCPlus.Runtime.AwaitLedger
import TinyCPlus.Runtime.AwaitQueue
import TinyCPlus.Runtime.AwaitRuns
import TinyCPlus.Runtime.Channel
import TinyCPlus.Runtime.ChannelFifo
import TinyCPlus.Runtime.ChannelWakeups
import TinyCPlus.Runtime.CodePointRuns
import TinyCPlus.Runtime.Future
import TinyCPlus.Runtime.FutureLaw
import TinyCPlus.Runtime.FutureRuns
import TinyCPlus.Runtime.GapBuffer
import TinyCPlus.Runtime.GapRefinement
import TinyCPlus.Runtime.GapRepresentation
import TinyCPlus.Runtime.GapSimulation
import TinyCPlus.Runtime.GrpcMessage
import TinyCPlus.Runtime.GrpcServer
import TinyCPlus.Runtime.GrpcServerRuns
import TinyCPlus.Runtime.GrpcAnswered
import TinyCPlus.Runtime.PlainEditor
import TinyCPlus.Runtime.Pool
import TinyCPlus.Runtime.PoolDrain
import TinyCPlus.Runtime.PoolLedger
import TinyCPlus.Runtime.PoolRuns
import TinyCPlus.Runtime.Reactor
import TinyCPlus.Runtime.ReactorLaw
import TinyCPlus.Runtime.ReactorRuns
import TinyCPlus.Runtime.ReactorSockets
import TinyCPlus.Runtime.SchedulerRuns
import TinyCPlus.Runtime.SpawnQuote
import TinyCPlus.Runtime.WindowsCond
import TinyCPlus.Runtime.WriteAtomic
import TinyCPlus.Std.Map
import TinyCPlus.Std.MapInvariant
import TinyCPlus.Std.MapOperations
import TinyCPlus.Std.MapRefinement
import TinyCPlus.Std.MapSimulation
import TinyCPlus.Std.MapCapacity
import TinyCPlus.Std.StringBuilder
import TinyCPlus.Std.StringBuilderRuns
import TinyCPlus.Tui.Caret
import TinyCPlus.Tui.Glyphs
import TinyCPlus.Tui.OwnershipRuns
import TinyCPlus.Tui.RenderShows
import TinyCPlus.Tui.Replay
import TinyCPlus.Tui.TabOrder
import TinyCPlus.Tui.TinyEditRuns
import TinyCPlus.Compiler.AsyncFunction
import TinyCPlus.Compiler.AsyncRuns
