import EpicsRs.ByteReader
import EpicsRs.ByteWords
import EpicsRs.Utf8Lossy
import EpicsRs.PvaProto
import EpicsRs.PvaFieldDesc
import EpicsRs.PvaTypeDesc
import EpicsRs.PvaDescBounds
import EpicsRs.PvaDescInline
import EpicsRs.PvaCacheSync
import EpicsRs.PvaCacheDepth
import EpicsRs.PvaScalar
import EpicsRs.PvaValue
import EpicsRs.PvaValueConform
import EpicsRs.PvaBitSet
import EpicsRs.PvaValueInline
import EpicsRs.PvaOverlay
import EpicsRs.CoalescingQueue
import EpicsRs.PvaBacklog
import EpicsRs.PvaWatermark
import EpicsRs.PvaWalk
import EpicsRs.PvaOpResponse
import EpicsRs.PvaFlatten
import EpicsRs.PvaMarked
import EpicsRs.EventQueue
import EpicsRs.SlotTable
import EpicsRs.EventQueueInv
import EpicsRs.EventQueueView
import EpicsRs.EventQueueSteps
import EpicsRs.EventQueueTakes
import EpicsRs.EventQueueRuns
import EpicsRs.EventQueueStream
import EpicsRs.EventUser
import EpicsRs.EventUserEffects
import EpicsRs.EventUserReplies
import EpicsRs.EventUserWake
import EpicsRs.GraphWalk
import EpicsRs.LockDatabase
import EpicsRs.LockRegistry
import EpicsRs.LockRegistryInv
import EpicsRs.LockRepartition
import EpicsRs.LockPartition
import EpicsRs.LockComponents
import EpicsRs.LockRevision
import EpicsRs.LockThreads
import EpicsRs.LockHeld
import EpicsRs.LockRecords
import EpicsRs.CaHeader
import EpicsRs.CaPutFrame
import EpicsRs.CaRecv
import EpicsRs.CaRecvLoop
import EpicsRs.KeyTable
import EpicsRs.LinkPutQueue
import EpicsRs.LinkPutRuns
import EpicsRs.CaMonitor
import EpicsRs.CaMonitorRuns
import EpicsRs.AsynCell
import EpicsRs.MacLib
import EpicsRs.MacLibDepth
import EpicsRs.CalcArith
import EpicsRs.CalcToken
import EpicsRs.CalcCode
import EpicsRs.CalcHoles
import EpicsRs.CalcCompile
import EpicsRs.CalcStraight
import EpicsRs.AsynBlock
import EpicsRs.AsynBlockRuns
import EpicsRs.PutNotify
import EpicsRs.PutNotifyRestart
import EpicsRs.PutNotifyCount
import EpicsRs.MonitorControl
import EpicsRs.DeliveryFence
import EpicsRs.DottedPath
import EpicsRs.PvaPaths
import EpicsRs.ServerMonitor
import EpicsRs.FrameStream
import EpicsRs.PvaReassembly
import EpicsRs.AccessRules
import EpicsRs.AsynEos
import EpicsRs.ModbusCrc
import EpicsRs.SeqFlag
import EpicsRs.ScanSweep
import EpicsRs.SeqRequest
import EpicsRs.GlobMatch
import EpicsRs.IocshSplit
import EpicsRs.QsrvGroup
