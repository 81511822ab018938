import Cs537.Lib.Layout
import Cs537.Raid.Disk
import Cs537.Raid.Mapping
import Cs537.Raid.Enqueue
import Cs537.Lib.Store
import Cs537.Raid.PartialWrite
import Cs537.Raid.Parity
import Cs537.Lib.ExceptFold
import Cs537.Raid.Placement
import Cs537.Raid.Refinement
import Cs537.Lib.Monitor
import Cs537.Lib.RingBuffer
import Cs537.Lib.Transition
import Cs537.ProducerConsumer.Program
import Cs537.ProducerConsumer.Moves
import Cs537.ProducerConsumer.Invariant
import Cs537.Lib.Count
import Cs537.ProducerConsumer.Markers
import Cs537.ProducerConsumer.Progress
import Cs537.ProducerConsumer.Delivery
import Cs537.Lib.Runs
import Cs537.MapReduce.CString
import Cs537.MapReduce.Program
import Cs537.MapReduce.Grouping
import Cs537.MapReduce.Partial
import Cs537.Graphics.Request
import Cs537.Graphics.Simulator
import Cs537.Graphics.Lifecycle
import Cs537.Graphics.Queue
import Cs537.Graphics.Untimed
import Cs537.Graphics.Accounting
import Cs537.Graphics.Progress
import Cs537.Graphics.Clock
import Cs537.Graphics.Termination
import Cs537.Graphics.Completion
import Cs537.Graphics.FullStripe
import Cs537.Graphics.Trace
import Cs537.Graphics.StripeWrites
import Cs537.Graphics.Moves
import Cs537.Graphics.Window
import Cs537.Graphics.TwoPhase
import Cs537.Graphics.Cycles
import Cs537.Graphics.Order
import Cs537.Lib.Queue
import Cs537.ProducerConsumer.Refinement
import Cs537.Raid.Chunks
import Cs537.Raid.Pieces
import Cs537.Lib.Components
import Cs537.Raid.Service
import Cs537.Raid.WriteCost
import Cs537.Raid.Split
import Cs537.Lib.Ranges
import Cs537.Raid.Sequential
import Cs537.Lib.PathCost
import Cs537.Raid.DiskTime
import Cs537.Raid.Mirrors
import Cs537.Raid.Capacity
import Cs537.Raid.Options
import Cs537.Lib.Strides
import Cs537.Ext2.Program
import Cs537.Ext2.Records
import Cs537.Ext2.Bounds
import Cs537.Ext2.Termination
import Cs537.Ext2.Wraparound
import Cs537.Ext2.Addressing
import Cs537.Graphics.Generator
import Cs537.Graphics.Balance
import Cs537.Graphics.Drive
import Cs537.Graphics.ServiceTime
import Cs537.ProducerConsumer.Termination
import Cs537.Counter.Program
import Cs537.Counter.Values
import Cs537.Graphics.Lanes
import Cs537.Graphics.Striping
import Cs537.Raid.Workload
import Cs537.Raid.Throughput
import Cs537.Raid.Recovery
import Cs537.Graphics.Agreement
import Cs537.Lib.Bytes
import Cs537.Ext2.Image
import Cs537.Graphics.Makespan
import Cs537.Graphics.Inputs
import Cs537.MapReduce.Interactive
import Cs537.Raid.Completion
import Cs537.Lib.Codes
import Cs537.Raid.Transcript
import Cs537.Graphics.Latency
