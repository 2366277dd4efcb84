import RdmaInfra.Lts
import RdmaInfra.CInt
import RdmaInfra.BenchUtils
import RdmaInfra.Wire
import RdmaInfra.Memory
import RdmaInfra.Queue
import RdmaInfra.Transit
import RdmaInfra.Script
import RdmaInfra.Handles
import RdmaInfra.Slots
import RdmaInfra.Fallible
import RdmaInfra.Kahn
import RdmaInfra.Duplex
import RdmaInfra.Verbs.Ops
import RdmaInfra.Transport.Tcp
import RdmaInfra.Transport.Transfer
import RdmaInfra.Transport.TcpSockets
import RdmaInfra.Transport.TcpChannel
import RdmaInfra.Transport.TcpSendRecv
import RdmaInfra.Transport.Lifetimes
import RdmaInfra.Collective.Program
import RdmaInfra.Collective.Chunks
import RdmaInfra.Collective.Ring
import RdmaInfra.Collective.Posted
import RdmaInfra.Collective.QueuePair
import RdmaInfra.Collective.PostedInv
import RdmaInfra.Collective.PostedCorrect
import RdmaInfra.Collective.Blocking
import RdmaInfra.Collective.Stagger
import RdmaInfra.Collective.BlockingProgress
import RdmaInfra.Collective.BlockingInv
import RdmaInfra.Collective.PathsAgree
import RdmaInfra.Collective.Session
import RdmaInfra.Collective.SessionInv
import RdmaInfra.Collective.SessionAligned
import RdmaInfra.Collective.Barrier
import RdmaInfra.Collective.LinkVolume
import RdmaInfra.Collective.WorldInit
import RdmaInfra.Collective.RingNet
import RdmaInfra.Collective.SessionPayload
import RdmaInfra.Collective.BenchLoop
import RdmaInfra.Collective.Regions
import RdmaInfra.Collective.Report
import RdmaInfra.KvCache.Server
import RdmaInfra.KvCache.Ownership
import RdmaInfra.KvCache.Slab
import RdmaInfra.KvCache.Control
import RdmaInfra.KvCache.ControlFraming
import RdmaInfra.KvCache.RunBench
import RdmaInfra.KvCache.ServeStream
import RdmaInfra.Verbs.PingPong
import RdmaInfra.Verbs.RdmaWrite
import RdmaInfra.Verbs.WriteLatency
import RdmaInfra.Verbs.BwWrite
import RdmaInfra.Verbs.BwDoorbell
import RdmaInfra.Verbs.BenchConfig
import RdmaInfra.Verbs.QueueDepth
import RdmaInfra.Transport.WriteTeardown
import RdmaInfra.Verbs.Gid
import RdmaInfra.Verbs.GidChoice
import RdmaInfra.Verbs.GidIndex
import RdmaInfra.Verbs.Oob
import RdmaInfra.KvCache.EndToEnd
import RdmaInfra.KvCache.SlabLifetime
import RdmaInfra.Verbs.Handshake
import RdmaInfra.Verbs.HandshakeAgreement
import RdmaInfra.Verbs.Setup
import RdmaInfra.Verbs.SetupSound
import RdmaInfra.Verbs.BringUp
import RdmaInfra.Verbs.BringUpOrder
import RdmaInfra.Transport.RdmaReuse
