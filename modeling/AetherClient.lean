import AetherClient.RingIndex
import AetherClient.Runs
import AetherClient.Pieces
import AetherClient.SafeStreamTypes
import AetherClient.SafeStreamReceiving
import AetherClient.SafeStreamReceivingIntegrity
import AetherClient.SafeStreamReceiverRuns
import AetherClient.SafeStreamReceiverCompleteness
import AetherClient.SafeStreamSending
import AetherClient.SafeStreamSendingIntegrity
import AetherClient.SafeStreamSenderRuns
import AetherClient.SafeStreamSenderProgress
import AetherClient.SafeStreamLink
import AetherClient.SafeStreamRoundTrip
import AetherClient.SafeStreamReports
import AetherClient.ClientEncryption
import AetherClient.Ptr
import AetherClient.RefGraph
import AetherClient.PtrRefTree
import AetherClient.PtrTraversal
import AetherClient.PtrComparison
import AetherClient.PtrReset
import AetherClient.PtrCollect
import AetherClient.PtrSafety
import AetherClient.LittleEndian
import AetherClient.MstreamBuffers
import AetherClient.PackedInt
import AetherClient.DataPacketCollector
import AetherClient.PacketFraming
import AetherClient.PacketDelivery
import AetherClient.CryptoGate
import AetherClient.Mstream
import AetherClient.MstreamRoundTrip
import AetherClient.MstreamAdvance
import AetherClient.MstreamCounted
import AetherClient.MstreamTruncation
import AetherClient.MstreamNoticed
import AetherClient.SafeStreamApi
import AetherClient.Actions
import AetherClient.SocketPacketQueue
import AetherClient.SocketFrames
import AetherClient.ServerSendQueue
import AetherClient.ServerSendOrder
import AetherClient.PtrAcyclic
import AetherClient.PtrOperations
import AetherClient.PtrCounts
import AetherClient.PtrStores
import AetherClient.PtrExact
import AetherClient.ActionRegistry
import AetherClient.ActionRegistryBooks
import AetherClient.EventEmission
import AetherClient.SplitterGate
import AetherClient.MessageStreamDispatcher
import AetherClient.BufferGate
import AetherClient.Registration
import AetherClient.SafeStreamPackets
import AetherClient.GateChain
import AetherClient.DriverHeader
import AetherClient.ObjClassData
import AetherClient.FileSystemHeader
import AetherClient.DomainMembers
import AetherClient.Registry
import AetherClient.Domain
import AetherClient.DomainSave
import AetherClient.DomainLoad
import AetherClient.DomainRoundTrip
import AetherClient.Intervals
import AetherClient.SendingChunks
import AetherClient.SendingChunkCalls
import AetherClient.SafeStreamWriteEnds
import AetherClient.SendDataBufferSlices
import AetherClient.SafeStreamSenderTimers
import AetherClient.SafeStreamReceiverTimers
import AetherClient.SafeStreamEmptyWrites
import AetherClient.PackedCanonical
import AetherClient.CollectorTurns
import AetherClient.ChannelPacketSend
import AetherClient.ProtocolContext
import AetherClient.SendResultCallbacks
import AetherClient.SafeStreamInGate
import AetherClient.PtrAssignment
import AetherClient.BufferGateOrder
import AetherClient.BufferGateLinks
import AetherClient.BufferGateStops
import AetherClient.OrderedSet
import AetherClient.RingIndexLaws
import AetherClient.VisitedSet
import AetherClient.ProofOfWork
import AetherClient.Telemetry
import AetherClient.TelemetryMetrics
import AetherClient.StatisticsSize
import AetherClient.StatisticsStorage
import AetherClient.ActionProcessor
import AetherClient.RegistryForest
import AetherClient.DomainObjects
import AetherClient.DomainCopy
import AetherClient.Crc32
import AetherClient.VersionIterator
import AetherClient.PacketReception
import AetherClient.P2pSafeStream
import AetherClient.TcpLink
import AetherClient.ActionTrigger
