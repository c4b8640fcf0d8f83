import DhmpFs.Library.Run
import DhmpFs.Library.Assoc
import DhmpFs.HashMap.Refinement
import DhmpFs.Fs.Reset
import DhmpFs.Fs.DirOps
import DhmpFs.Library.SonBro
import DhmpFs.Fs.Tree
import DhmpFs.Fs.Create
import DhmpFs.Fs.Delete
import DhmpFs.Fs.Reachable
import DhmpFs.Fs.Ownership
import DhmpFs.Fs.Content
import DhmpFs.Fs.Directory
import DhmpFs.Library.Paths
import DhmpFs.Fs.Lookup
import DhmpFs.Library.NameTree
import DhmpFs.Fs.Namespace
import DhmpFs.Library.Tiling
import DhmpFs.Server.Buddy
import DhmpFs.Server.Area
import DhmpFs.Server.AreaOps
import DhmpFs.Server.Allocator
import DhmpFs.Server.Requests
import DhmpFs.Library.Replicas
import DhmpFs.Remote.Recovery
import DhmpFs.Remote.Agreement
import DhmpFs.Cache.Basic
import DhmpFs.Library.WriteBack
import DhmpFs.Cache.Sections
import DhmpFs.Cache.Transparent
import DhmpFs.Cache.Threads
import DhmpFs.Cache.DirtyBit
import DhmpFs.Remote.RecoverSteps
import DhmpFs.Remote.Redo
import DhmpFs.Remote.ReadFailover
import DhmpFs.Remote.ReplicatedWrite
import DhmpFs.Fs.ReadBounds
import DhmpFs.Fs.ReadBack
import DhmpFs.Fs.WriteFailure
import DhmpFs.Fs.Sparse
import DhmpFs.Fs.Banks
import DhmpFs.Fs.Leak
import DhmpFs.Fs.Handles
import DhmpFs.Fs.Rename
import DhmpFs.Client.AddrTable
import DhmpFs.Client.Reconnect
import DhmpFs.Fs.Writers
import DhmpFs.Cache.DirtyLoss
import DhmpFs.Cache.Labels
import DhmpFs.Remote.RecoverExits
import DhmpFs.Remote.RedoList
import DhmpFs.Remote.FreshReads
import DhmpFs.Client.ReturnCodes
import DhmpFs.Fs.ErrorPaths
import DhmpFs.Fs.Subtree
import DhmpFs.Fs.ChunkSearch
import DhmpFs.Fs.OffsetMapping
import DhmpFs.Fs.PathSplitting
import DhmpFs.Fs.StatSize
import DhmpFs.Server.Completeness
import DhmpFs.Library.Dyadic
import DhmpFs.Server.AreaRuns
import DhmpFs.Server.Confluence
import DhmpFs.Client.HotCold
import DhmpFs.Server.UnknownFree
import DhmpFs.Fs.Naive
import DhmpFs.Fs.NaiveAgreement
import DhmpFs.Client.Framing
import DhmpFs.Client.SendMr
import DhmpFs.Client.AddrCodec
import DhmpFs.Cache.DirectMapped
import DhmpFs.HashMap.Resize
import DhmpFs.HashMap.RemoveResult
import DhmpFs.Client.CurnodeId
import DhmpFs.Fs.PathBuffers
import DhmpFs.Fs.FileStore
import DhmpFs.Stack.EndToEnd
import DhmpFs.Stack.Resident
import DhmpFs.Library.RemoteCalls
import DhmpFs.Pool.Basic
import DhmpFs.Pool.Regions
import DhmpFs.Pool.Serving
import DhmpFs.Library.Linked
import DhmpFs.Lists.HashList
import DhmpFs.Library.AtomicCalls
import DhmpFs.Pool.Banks
