import ReversalBench.Capnp.ShortReads
import ReversalBench.GoTcp.Exit
import ReversalBench.Grpc.ShortReads
import ReversalBench.Tcp.Exit

/-! The exit statuses of the four clients. A script that runs them can only see the status,
so it should be 0 exactly when the whole file was verified. The C++ TCP client and the gRPC
client return 0 whatever fails, unless an exception reaches `main` of the former, and the
Cap'n Proto client returns 0 after a wrong reply; the Go client returns 0 after no failure of
the connection. All four take a file that ends before its size for one that was read, and
return 0 then too. -/

namespace ReversalBench

open Blocks (blocks)
open Machine (Halts run Sometime)

variable (chunkSize : ChunkSize)

/-! ### Cap'n Proto -/

namespace Capnp.Client

end Capnp.Client

/-! ### TCP in C++ -/

namespace Tcp.Program

end Tcp.Program

/-! ### TCP in Go -/

namespace GoTcp.Client

end GoTcp.Client

/-! ### gRPC -/

namespace Grpc.Program

end Grpc.Program

/-! ### All four -/

end ReversalBench
