import AVBGraph.Framework.Run
import AVBGraph.Framework.StdSort
import AVBGraph.Framework.ListFilter
import AVBGraph.Framework.Loop
import AVBGraph.Vertex.VersionChain
import AVBGraph.Vertex.Edges
import AVBGraph.Vertex.Lookup
import AVBGraph.Vertex.LookupExact
import AVBGraph.Vertex.Merge
import AVBGraph.Vertex.Insert
import AVBGraph.Vertex.Transform
import AVBGraph.Vertex.Read
import AVBGraph.Vertex.View
import AVBGraph.Vertex.Refine
import AVBGraph.Epoch.ReadGuard
import AVBGraph.Epoch.Registration
import AVBGraph.Epoch.RingInvariant
import AVBGraph.Epoch.MinEpochUpdater
import AVBGraph.Vertex.Emission
import AVBGraph.Vertex.ChainWalk
import AVBGraph.Vertex.Traversal
import AVBGraph.Snapshot.ChainRead
import AVBGraph.Vertex.History
import AVBGraph.Vertex.Counted
import AVBGraph.Vertex.SortedScan
import AVBGraph.Vertex.Effects
import AVBGraph.Vertex.Trace
import AVBGraph.Vertex.Publication
import AVBGraph.Snapshot.DirtyRead
import AVBGraph.Vertex.Times
import AVBGraph.Snapshot.RecordOrder
import AVBGraph.Vertex.Loaded
import AVBGraph.Snapshot.Versions
import AVBGraph.Snapshot.Transformed
import AVBGraph.Snapshot.Pipeline
import AVBGraph.Snapshot.PipelineTransform
import AVBGraph.Snapshot.Latest
import AVBGraph.Snapshot.Sequential
import AVBGraph.Snapshot.Undisturbed
import AVBGraph.Snapshot.Pending
import AVBGraph.Snapshot.Weights
import AVBGraph.Snapshot.NewestState
import AVBGraph.Vertex.MergeBounds
import AVBGraph.Framework.LinearProbing
import AVBGraph.Vertex.HashTable
import AVBGraph.Graph.GraphStore
import AVBGraph.Transaction.Deadlock
import AVBGraph.Transaction.TimeOrder
import AVBGraph.Transaction.Registered
import AVBGraph.Transaction.AllOrNothing
import AVBGraph.Transaction.ManualRun
import AVBGraph.Vertex.HandOff
import AVBGraph.Snapshot.Coarse
import AVBGraph.Framework.Ledger
import AVBGraph.Vertex.Degree
import AVBGraph.Vertex.Alike
import AVBGraph.Snapshot.DeleteAgain
import AVBGraph.Snapshot.LoadedHistory
import AVBGraph.Snapshot.ConflictTest
import AVBGraph.Snapshot.DeleteIsolation
import AVBGraph.Snapshot.Primary
import AVBGraph.Transaction.Buffered
import AVBGraph.Framework.Hops
import AVBGraph.Algorithm.BFS
import AVBGraph.Snapshot.LastWriter
import AVBGraph.Snapshot.Placement
import AVBGraph.Snapshot.PredecessorChain
import AVBGraph.Snapshot.RefusedWrite
import AVBGraph.Memory.TwoLevel
import AVBGraph.Memory.FreeList
import AVBGraph.Memory.Pool
import AVBGraph.Utils.EdgeReader
import AVBGraph.Framework.RunLength
import AVBGraph.Algorithm.Adjacency
import AVBGraph.Algorithm.CDLP
import AVBGraph.Framework.Triangles
import AVBGraph.Algorithm.LCC
import AVBGraph.Framework.Relaxation
import AVBGraph.Algorithm.WCC
import AVBGraph.Framework.Vector
import AVBGraph.Algorithm.Objects
import AVBGraph.Framework.ShortestWalks
import AVBGraph.Algorithm.SSSP
import AVBGraph.Algorithm.SSSPRelaxing
import AVBGraph.Algorithm.SSSPRounds
import AVBGraph.Algorithm.SSSPDistances
import AVBGraph.Algorithm.SSSPFrontier
import AVBGraph.Framework.Interleaving
import AVBGraph.Algorithm.Bitmap
import AVBGraph.Algorithm.SlidingQueue
import AVBGraph.Algorithm.TopDown
import AVBGraph.Algorithm.BottomUp
import AVBGraph.Algorithm.ParallelBFS
import AVBGraph.Framework.AffineIteration
import AVBGraph.Algorithm.PageRankLimit
import AVBGraph.Algorithm.ParallelWCC
import AVBGraph.Epoch.Finalize
import AVBGraph.Algorithm.StoredGraph
import AVBGraph.Framework.Galois
import AVBGraph.Epoch.XorShiftRandom
import AVBGraph.Epoch.RWSpinLock
import AVBGraph.Framework.Growing
import AVBGraph.Vertex.TmpEntries
