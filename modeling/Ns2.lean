import Ns2.Library.Machine
import Ns2.Common.ListScheduler
import Ns2.Common.SplayScheduler
import Ns2.Common.HeapScheduler
import Ns2.Library.Ring
import Ns2.Tcp.Acker
import Ns2.Tcp.Connection
import Ns2.Tcp.SackStack
import Ns2.Tcp.Sacker
import Ns2.Library.Intervals
import Ns2.Tcp.ReassemblyQueue
import Ns2.Tcp.ReassemblyMerge
import Ns2.Tcp.ReassemblyAdd
import Ns2.Tcp.ReassemblyRun
import Ns2.Tcp.ScoreBoardRQ
import Ns2.Tcp.ScoreBoard1
import Ns2.Tcp.ScoreBoard1Traverse
import Ns2.Tcp.ScoreBoard1Run
import Ns2.Common.CalendarScheduler
import Ns2.Common.CalendarStore
import Ns2.Common.CalendarRun
import Ns2.Library.CircularList
import Ns2.Library.Ledger
import Ns2.Library.RoundRobin
import Ns2.Queue.PacketQueue
import Ns2.Queue.SFQ
import Ns2.Library.BubbleSort
import Ns2.Queue.DWRR
import Ns2.Queue.DWRRAccounts
import Ns2.Queue.DWRRRounds
import Ns2.Queue.PDWRR
import Ns2.Queue.PDWRRAccounts
import Ns2.Queue.PDWRRRun
import Ns2.Library.WeightSpread
import Ns2.Queue.SRR
import Ns2.Queue.SRRMatrix
import Ns2.Queue.SRRWalk
import Ns2.Queue.SRRShare
import Ns2.Library.ShortestPath
import Ns2.Library.Loops
import Ns2.Routing.RouteLogic
import Ns2.Routing.RouteLogicCosts
import Ns2.Routing.RouteLogicPaths
import Ns2.Library.SortedMap
import Ns2.Routing.LsPaths
import Ns2.Routing.ComputeRoutes
import Ns2.Routing.ComputeRoutesTable
import Ns2.Routing.ComputeRoutesEnd
import Ns2.Routing.ComputeRoutesResult
import Ns2.Routing.LsMessages
import Ns2.Routing.LsProtocol
import Ns2.Routing.LsAcks
import Ns2.Routing.LsFlooding
import Ns2.Nix.NixVec
import Ns2.Nix.NixVecAdd
import Ns2.Nix.NixVecRoundTrip
import Ns2.Library.Tally
import Ns2.Tools.RNGMatrices
import Ns2.Tools.RNG
import Ns2.Tools.RNGJumps
import Ns2.Tools.RNGStreams
import Ns2.Dccp.Agent
import Ns2.Dccp.RetransmitTimer
import Ns2.Dccp.AgentTimers
import Ns2.Dccp.AttemptsEnd
import Ns2.Dccp.AckVector
import Ns2.Library.RunLength
import Ns2.Dccp.AckVectorItems
import Ns2.Dccp.AckVectorStates
import Ns2.Dccp.AckVectorAdd
import Ns2.Dccp.AckVectorRemove
import Ns2.Dccp.AckVectorWalk
import Ns2.Dccp.AckVectorRun
import Ns2.Dccp.Options
import Ns2.Dccp.AckVectorHistory
import Ns2.Dccp.AckVectorWire
import Ns2.Common.TimerHandler
import Ns2.Common.TimerRun
import Ns2.Dccp.ServerRole
import Ns2.Sctp.Receiver
import Ns2.Sctp.TsnBlocks
import Ns2.Sctp.TsnSet
import Ns2.Sctp.Streams
import Ns2.Sctp.Delivery
import Ns2.Sctp.InOrder
import Ns2.Aodv.Agent
import Ns2.Aodv.Discipline
import Ns2.Aodv.Routines
import Ns2.Aodv.Messages
import Ns2.Aodv.Network
import Ns2.Aodv.Assertions
import Ns2.Aodv.LoopFreedom
import Ns2.Dsr.MobiCache
import Ns2.Dsr.MobiCacheRun
import Ns2.Dsr.PathRun
import Ns2.Library.LoopErase
import Ns2.Dsdv.Agent
import Ns2.Library.Acyclic
import Ns2.Dsdv.Table
import Ns2.Dsdv.LoopFreedom
import Ns2.Dccp.OptionsWalk
import Ns2.Dccp.AckVectorMerge
import Ns2.Satellite.Hdlc
import Ns2.Satellite.HdlcRoutines
import Ns2.Satellite.HdlcSendBuffer
import Ns2.Satellite.HdlcResetTimer
import Ns2.Satellite.HdlcReceiver
import Ns2.Satellite.HdlcLink
import Ns2.Satellite.HdlcSetup
import Ns2.Library.Adaptation
import Ns2.Queue.TrafficLevel
import Ns2.Queue.RED
import Ns2.Queue.REDAdapt
import Ns2.Library.FirstEvent
import Ns2.Queue.REDRoutines
import Ns2.Queue.REDProbability
import Ns2.Queue.REDConservation
import Ns2.Queue.REDIdle
import Ns2.Queue.REDLossRate
import Ns2.Queue.Myred
import Ns2.Queue.MyredAdapt
import Ns2.Queue.MyredCounters
import Ns2.Satellite.HdlcCustody
import Ns2.Satellite.HdlcOwnership
import Ns2.Dccp.TcpLikeWindow
import Ns2.Dccp.TcpLikeBounds
import Ns2.Dccp.TcpLikeMarks
import Ns2.Common.HeapRun
import Ns2.Library.SignedWord
import Ns2.Queue.DRR
import Ns2.Routing.LsHistory
import Ns2.Queue.BucketIndex
import Ns2.Queue.WSSTable
import Ns2.Tcp.ReassemblyNext
import Ns2.Tcp.ReassemblySpaced
import Ns2.Tcp.ReassemblyHole
import Ns2.Queue.DWRRReturns
import Ns2.Queue.DRRAccounts
import Ns2.Queue.DRRService
import Ns2.Tcp.SackerDsack
import Ns2.Library.LevelOrder
import Ns2.Queue.PDWRROrder
import Ns2.Dccp.FeatureTable
import Ns2.Diffusion.Attrs
import Ns2.Diffusion.Factory
import Ns2.Queue.ErrorModel
import Ns2.Routing.RouteLogicEntries
import Ns2.Diffusion.AttrOrder
import Ns2.Diffusion.Match
import Ns2.Queue.CBQ
import Ns2.Queue.CBQBorrow
import Ns2.Queue.CBQInsert
import Ns2.Library.UsedArray
import Ns2.Mpls.Changes
import Ns2.Mpls.Binding
import Ns2.Mpls.References
import Ns2.Queue.CBQRoundRobin
import Ns2.Queue.CBQFairness
import Ns2.Mpls.Classify
import Ns2.Mpls.LoopFree
import Ns2.Aodv.Rqueue
import Ns2.Aodv.RqueueRun
import Ns2.Aodv.RouteErrors
import Ns2.Dsdv.UpdatePacket
import Ns2.Dsdv.Flush
import Ns2.Dsdv.FlushRun
import Ns2.Aodv.Tame
import Ns2.Aodv.BackedReplies
import Ns2.Aodv.RingSearch
import Ns2.Aodv.RingSearchOutcome
import Ns2.Aodv.RingSearchRun
import Ns2.Diffserv.Conformance
import Ns2.Diffserv.PolicyClassifier
import Ns2.Dsr.RequestTable
import Ns2.Diffserv.VirtualQueues
import Ns2.Diffserv.EarlyDrop
import Ns2.Diffserv.Scheduling
