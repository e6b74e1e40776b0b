import GraphBenchmark.Foundations.Run
import GraphBenchmark.Foundations.Pool
import GraphBenchmark.Foundations.Sweep
import GraphBenchmark.Foundations.Distance
import GraphBenchmark.Foundations.Claiming
import GraphBenchmark.Foundations.Marking
import GraphBenchmark.Foundations.Rounds
import GraphBenchmark.Foundations.Slices
import GraphBenchmark.Foundations.Scatter
import GraphBenchmark.Foundations.Tickets
import GraphBenchmark.Foundations.Words
import GraphBenchmark.Foundations.Cycle
import GraphBenchmark.Foundations.Masks
import GraphBenchmark.Foundations.Tally
import GraphBenchmark.Foundations.Bytes
import GraphBenchmark.Foundations.Positions
import GraphBenchmark.Foundations.Sorting
import GraphBenchmark.Foundations.Circular
import GraphBenchmark.Foundations.Lines
import GraphBenchmark.Foundations.Tagged
import GraphBenchmark.Model.Config
import GraphBenchmark.Model.Loader
import GraphBenchmark.Model.Push
import GraphBenchmark.Model.Pull
import GraphBenchmark.Model.PushPull
import GraphBenchmark.Model.PageRank
import GraphBenchmark.Model.Reorder
import GraphBenchmark.Model.Hub
import GraphBenchmark.Model.Output
import GraphBenchmark.Model.Reading
import GraphBenchmark.Model.Chase
import GraphBenchmark.Model.Bandwidth
import GraphBenchmark.Model.Barrier
import GraphBenchmark.Model.BwMain
import GraphBenchmark.Model.BwTimes
import GraphBenchmark.Model.Benchmark
import GraphBenchmark.Model.ReorderMain
import GraphBenchmark.Model.Degree
import GraphBenchmark.Model.Pebs
import GraphBenchmark.Model.Collect
import GraphBenchmark.Loader.Reading
import GraphBenchmark.Loader.Count
import GraphBenchmark.Loader.Sequential
import GraphBenchmark.Loader.Offsets
import GraphBenchmark.Loader.Edges
import GraphBenchmark.Loader.Cursors
import GraphBenchmark.Loader.Output
import GraphBenchmark.Loader.Csr
import GraphBenchmark.Loader.Fetching
import GraphBenchmark.Bfs.Adjacency
import GraphBenchmark.Bfs.PushPass
import GraphBenchmark.Bfs.Push
import GraphBenchmark.Bfs.PushBounds
import GraphBenchmark.Bfs.PushLevels
import GraphBenchmark.Bfs.PushThreads
import GraphBenchmark.Bfs.PullRound
import GraphBenchmark.Bfs.Pull
import GraphBenchmark.Bfs.PullLevels
import GraphBenchmark.Bfs.HybridPass
import GraphBenchmark.Bfs.Hybrid
import GraphBenchmark.Bfs.PushPull
import GraphBenchmark.Bfs.Contents
import GraphBenchmark.Bfs.Switch
import GraphBenchmark.Bfs.Hub
import GraphBenchmark.PageRank.Adding
import GraphBenchmark.PageRank.Push
import GraphBenchmark.PageRank.Exact
import GraphBenchmark.Loader.Admission
import GraphBenchmark.Reorder.Reading
import GraphBenchmark.Reorder.Numbering
import GraphBenchmark.Reorder.Run
import GraphBenchmark.Reorder.Sort
import GraphBenchmark.Reorder.Graphs
import GraphBenchmark.Reorder.Levels
import GraphBenchmark.Reorder.Measured
import GraphBenchmark.Reorder.Independent
import GraphBenchmark.Chase.Single
import GraphBenchmark.Chase.Sizing
import GraphBenchmark.Chase.Swapping
import GraphBenchmark.Bandwidth.Slots
import GraphBenchmark.Bandwidth.Sequential
import GraphBenchmark.Bandwidth.Barrier
import GraphBenchmark.Bandwidth.Wakeups
import GraphBenchmark.Bandwidth.Launch
import GraphBenchmark.Bandwidth.Generator
import GraphBenchmark.Bandwidth.Loops
import GraphBenchmark.Bandwidth.Random
import GraphBenchmark.Bandwidth.Joined
import GraphBenchmark.Bandwidth.Timed
import GraphBenchmark.Degree.Mapping
import GraphBenchmark.Degree.Relabel
import GraphBenchmark.Degree.Kept
import GraphBenchmark.Degree.Order
import GraphBenchmark.Degree.Renaming
import GraphBenchmark.Pebs.Records
import GraphBenchmark.Pebs.InOrder
import GraphBenchmark.Pebs.Collecting
import GraphBenchmark.Pebs.Stopping
import GraphBenchmark.Benchmark.Loading
import GraphBenchmark.Benchmark.Traversing
import GraphBenchmark.Benchmark.Writing
import GraphBenchmark.Reorder.Program
import GraphBenchmark.Benchmark.Reordered
import GraphBenchmark.Foundations.Ranking
import GraphBenchmark.Reorder.Degrees
import GraphBenchmark.PageRank.Records
import GraphBenchmark.Model.PrHub
import GraphBenchmark.Degree.Agreement
import GraphBenchmark.PageRank.Hub
import GraphBenchmark.Foundations.Blocks
import GraphBenchmark.Model.BwMemory
import GraphBenchmark.Bandwidth.Memory
import GraphBenchmark.Benchmark.Renamed
import GraphBenchmark.Benchmark.Scripted
import GraphBenchmark.Chase.Rounds
import GraphBenchmark.Bfs.PushScans
import GraphBenchmark.Benchmark.Reranked
import GraphBenchmark.Bfs.PushSplit
