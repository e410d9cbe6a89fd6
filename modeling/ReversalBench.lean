import ReversalBench.Lib.Machine
import ReversalBench.Lib.Blocks
import ReversalBench.Lib.Source
import ReversalBench.Lib.ByteOrder
import ReversalBench.Lib.LengthPrefixed
import ReversalBench.Lib.StopAndWait
import ReversalBench.Lib.InputFile
import ReversalBench.Tcp.Messaging
import ReversalBench.Tcp.Server
import ReversalBench.Tcp.ChunkReader
import ReversalBench.Tcp.MetricsAggregator
import ReversalBench.Tcp.Client
import ReversalBench.GoTcp.Messaging
import ReversalBench.GoTcp.Reversal
import ReversalBench.GoTcp.Server
import ReversalBench.Interop.Framing
import ReversalBench.Interop.Servers
import ReversalBench.Tcp.Exchange
import ReversalBench.Tcp.Verdict
import ReversalBench.GoTcp.Fileutils
import ReversalBench.GoTcp.Client
import ReversalBench.Interop.Clients
import ReversalBench.Common.ChunkReader
import ReversalBench.Common.MetricsAggregator
import ReversalBench.Grpc.Client
import ReversalBench.Grpc.Invariant
import ReversalBench.Grpc.Matching
import ReversalBench.Grpc.Soundness
import ReversalBench.Grpc.Shutdown
import ReversalBench.Grpc.Errors
import ReversalBench.Grpc.Server
import ReversalBench.Grpc.System
import ReversalBench.Grpc.Delivery
import ReversalBench.Grpc.Race
import ReversalBench.GoTcp.EndOfStream
import ReversalBench.Tcp.ReadAll
import ReversalBench.GoTcp.ReadAll
import ReversalBench.Common.ReadLoop
import ReversalBench.Capnp.Client
import ReversalBench.Capnp.Transfer
import ReversalBench.Interop.FailedRead
import ReversalBench.GoTcp.Deadlines
import ReversalBench.Interop.SavedMetrics
import ReversalBench.Tcp.Accepting
import ReversalBench.Capnp.Exit
import ReversalBench.Tcp.Exit
import ReversalBench.GoTcp.Exit
import ReversalBench.Grpc.Exit
import ReversalBench.Interop.ExitStatus
import ReversalBench.Common.Reset
import ReversalBench.Grpc.Accounting
import ReversalBench.Capnp.Accounting
import ReversalBench.Interop.Accounting
import ReversalBench.Tcp.Counters
import ReversalBench.GoTcp.InPlace
import ReversalBench.Grpc.Window
import ReversalBench.Interop.Generation
import ReversalBench.Lib.Oscillation
import ReversalBench.Lib.StringStream
import ReversalBench.Mat.Reference
import ReversalBench.Tcp.ProcStat
import ReversalBench.Capnp.Clients
import ReversalBench.GoTcp.Process
import ReversalBench.Grpc.Completion
import ReversalBench.GoTcp.ClientReader
import ReversalBench.Interop.Connections
import ReversalBench.Common.SavedFiles
import ReversalBench.GoTcp.SavedFiles
import ReversalBench.Grpc.Calls
import ReversalBench.Tcp.SavedFiles
import ReversalBench.Tcp.Shutdown
import ReversalBench.Lib.OneStep
import ReversalBench.Lib.Sampling
import ReversalBench.Mat.Convergence
import ReversalBench.Mat.Plots
