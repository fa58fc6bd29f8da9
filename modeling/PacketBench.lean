import PacketBench.Memory.Bytes
import PacketBench.Arithmetic.OnesComplement
import PacketBench.Arithmetic.Rotations
import PacketBench.Arithmetic.Wrapping
import PacketBench.Arithmetic.Hashing
import PacketBench.Lists.Prefix
import PacketBench.Lists.Tally
import PacketBench.Lists.Folds
import PacketBench.Lists.Threads
import PacketBench.Lists.Decimals
import PacketBench.Concurrency.Atomics
import PacketBench.Concurrency.Tickets
import PacketBench.Concurrency.ReadBack
import PacketBench.Concurrency.Stores
import PacketBench.Concurrency.Commits
import PacketBench.Concurrency.Guarded
import PacketBench.Concurrency.Buffers
import PacketBench.Concurrency.StopAndWait
import PacketBench.Maps.Bounded
import PacketBench.Maps.Recency
import PacketBench.Maps.Overflow
import PacketBench.Frame.Basic
import PacketBench.Frame.Headers
import PacketBench.Frame.Requests
import PacketBench.Frame.Payload
import PacketBench.Frame.Yields
import PacketBench.Frame.Datagram
import PacketBench.Frame.Shared
import PacketBench.Frame.Bins
import PacketBench.Clients.Payloads
import PacketBench.Clients.RoundTrips
import PacketBench.Xdp.Checksum
import PacketBench.Xdp.Program
import PacketBench.Xdp.Kvstore
import PacketBench.Xdp.ReadYourWrites
import PacketBench.Xdp.TimedKvstore
import PacketBench.Xdp.Stamping
import PacketBench.Xdp.Counting
import PacketBench.Xdp.Apps
import PacketBench.Xdp.Replies
import PacketBench.Xdp.Refresh
import PacketBench.Xdp.Handling
import PacketBench.Xdp.Period
import PacketBench.Xdp.Parallel
import PacketBench.Xdp.LostReplies
import PacketBench.Xdp.Datagram
import PacketBench.Xdp.Variants
import PacketBench.Xdp.Histogram
import PacketBench.Xdp.Filtering
import PacketBench.Xdp.Clocks
import PacketBench.Xdp.Eviction
import PacketBench.Xdp.Session
import PacketBench.Xdp.SharedBins
import PacketBench.Xdp.ResultFile
import PacketBench.Zuc.Cipher
import PacketBench.Zuc.Keystream
import PacketBench.Zuc.Register
import PacketBench.Zuc.Initialisation
import PacketBench.Zuc.Injective
import PacketBench.Zuc.Ports
import PacketBench.Zuc.Recurrence
import PacketBench.Dpdk.Burst
import PacketBench.Dpdk.Classify
import PacketBench.Dpdk.Kvstore
import PacketBench.Dpdk.Zuc
import PacketBench.Dpdk.Enciphered
import PacketBench.Dpdk.Echo
import PacketBench.Dpdk.Sinks
import PacketBench.Dpdk.Notification
import PacketBench.Dpdk.Runs
import PacketBench.Dpdk.Binning
import PacketBench.Dpdk.Bounds
import PacketBench.Dpdk.Parallel
import PacketBench.Dpdk.Copies
import PacketBench.Dpdk.Rewriting
import PacketBench.Dpdk.PortInit
import PacketBench.Dpdk.FullTable
import PacketBench.Dpdk.SharedStore
import PacketBench.Dpdk.Latency
import PacketBench.Dpdk.Session
import PacketBench.Dpdk.MbufPool
import PacketBench.Dpdk.SharedBins
import PacketBench.Compare.Kvstore
import PacketBench.Compare.Aggregate
import PacketBench.Compare.Parallel
import PacketBench.Compare.Filter
import PacketBench.Compare.MatchTable
import PacketBench.Compare.Swap
import PacketBench.Compare.LastFrame
import PacketBench.Compare.Loadbalancing
import PacketBench.Compare.Overflow
import PacketBench.Compare.Histogram
import PacketBench.Compare.FullPeriods
import PacketBench.Compare.SentFile
import PacketBench.Compare.Bounces
import PacketBench.Pspin.Handler
import PacketBench.DataAnalysis.Calculate
import PacketBench.DataAnalysis.Benchmark
import PacketBench.DataAnalysis.XdpBenchmark
