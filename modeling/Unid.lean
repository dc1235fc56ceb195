import Unid.Lib.Prog
import Unid.Lib.Machine
import Unid.Lib.ByteMem
import Unid.Lib.Chain
import Unid.Lib.Blocks
import Unid.Lib.Arena
import Unid.Lib.Ring
import Unid.Lib.Bytes
import Unid.Lib.Lfsr
import Unid.Lib.LfsrOrder
import Unid.Lib.Calendar
import Unid.Lib.Vec
import Unid.Lib.Text
import Unid.Lib.Udp
import Unid.Lib.Outbox
import Unid.Lib.EventLoop
import Unid.Lib.Threads
import Unid.Lib.Monitor
import Unid.Lib.WeakMem
import Unid.Lib.Handover
import Unid.Lib.Spsc
import Unid.Lib.Named
import Unid.Common.CHeap
import Unid.Common.Libpool
import Unid.Common.Mempool
import Unid.Common.PoolLayout
import Unid.Common.PoolRep
import Unid.Common.PoolGrow
import Unid.Common.PoolLife
import Unid.Common.PoolRun
import Unid.Common.PoolContract
import Unid.Common.PoolStack
import Unid.Common.PoolFailure
import Unid.Common.PoolRace
import Unid.Common.LockedPool
import Unid.Common.Footprint
import Unid.Common.LockedContract
import Unid.Common.Config
import Unid.Common.Systime
import Unid.Common.ConfigContract
import Unid.Common.Utility
import Unid.Network.Endpoint
import Unid.Network.Custody
import Unid.Network.EndpointContract
import Unid.Network.Destination
import Unid.Network.Payload
import Unid.Network.Wire
import Unid.Network.EventEmitter
import Unid.Network.EmitterContract
import Unid.Network.Reentrancy
import Unid.Network.Service
import Unid.Spike.CircularQueue
import Unid.Spike.QueueContract
import Unid.Spike.QueueSize
import Unid.Spike.QueueTests
import Unid.Spike.CounterQueue
import Unid.Spike.RingBuffer
import Unid.Spike.RingContract
import Unid.Spike.RingSequential
import Unid.Spike.OrderedQueue
import Unid.Spike.OrderedContract
import Unid.Spike.UnidBlock
import Unid.Spike.Crc32
import Unid.Spike.Crc32Errors
import Unid.Spike.AsyncUdp
import Unid.Spike.AsyncContract
import Unid.Spike.EchoNet
import Unid.Spike.Shutdown
import Unid.Spike.SharedMemory
import Unid.Spike.HandoffContract
