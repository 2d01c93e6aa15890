import CppUtils.Lib.Transition
import CppUtils.Lib.Interleaving
import CppUtils.Lib.LinkedMemory
import CppUtils.Lib.Memory
import CppUtils.Lib.SortedKeys
import CppUtils.Lib.BitBytes
import CppUtils.Machine
import CppUtils.Serializer
import CppUtils.Deserializer
import CppUtils.Codec
import CppUtils.LinkedList
import CppUtils.MessageQueue
import CppUtils.SkipList
import CppUtils.SkipListThreads
import CppUtils.LogStream
import CppUtils.AsyncLogging
import CppUtils.LogSystem
import CppUtils.Proof.SerializerWrite
import CppUtils.Proof.SerializerCursor
import CppUtils.Proof.CodecRoundTrip
import CppUtils.Proof.LinkedListSequence
import CppUtils.Proof.MessageQueueFifo
import CppUtils.Proof.SkipListSearch
import CppUtils.Proof.SkipListWellFormed
import CppUtils.Proof.SkipListInsert
import CppUtils.Proof.SkipListErase
import CppUtils.Proof.SkipListMap
import CppUtils.Proof.SkipListFind
import CppUtils.Proof.LogStreamRecords
import CppUtils.Proof.LogStreamPointers
import CppUtils.Proof.AsyncLoggingConservation
import CppUtils.Proof.LogSystemShutdown
import CppUtils.Lib.Numeral
import CppUtils.Proof.LogStreamNumerals
import CppUtils.Proof.LogStreamLines
import CppUtils.Proof.LogStreamRetries
import CppUtils.Proof.SkipListEraseAbsent
import CppUtils.Proof.FileRoundTrip
import CppUtils.LogRotation
import CppUtils.Proof.LogRotationRename
import CppUtils.Lib.Gregorian
import CppUtils.LogTime
import CppUtils.Proof.LogTimeDate
import CppUtils.Fiber
import CppUtils.Proof.FiberSchedule
import CppUtils.Config
import CppUtils.Proof.ConfigLoad
import CppUtils.Lib.Associative
import CppUtils.LexicalCast
import CppUtils.Proof.LexicalCastRoundTrip
import CppUtils.Proof.YamlFlow
import CppUtils.Lib.Base128
import CppUtils.Proof.CodecByteOrder
import CppUtils.Proof.CodecVarintInput
import CppUtils.Proof.CodecVarintSize
import CppUtils.Proof.SkipListScan
import CppUtils.Proof.LinkedListPositions
import CppUtils.Proof.ThreadPoolCount
import CppUtils.ConfigCallback
import CppUtils.Proof.ConfigAllOrNothing
import CppUtils.Lib.Changes
import CppUtils.Proof.ConfigCallbackOrder
import CppUtils.Proof.AsyncLoggingRoll
import CppUtils.Proof.CodecZigZag
import CppUtils.Proof.SerializerAccounting
import CppUtils.Proof.ConfigScalarText
import CppUtils.Proof.DeserializerCursor
import CppUtils.FiberLifetime
import CppUtils.Proof.FiberAssertions
import CppUtils.Logger
import CppUtils.Proof.LoggerRelease
import CppUtils.FormatTime
import CppUtils.Proof.FormatTimeCache
import CppUtils.Lib.Progress
import CppUtils.Proof.ThreadPoolTasks
import CppUtils.LogArchive
import CppUtils.Proof.FiberLeaks
import CppUtils.Proof.CodecStreams
import CppUtils.Proof.SerializerExchange
import CppUtils.ConfigRegistry
import CppUtils.Proof.ConfigRegistry
import CppUtils.Proof.ConfigReload
import CppUtils.Proof.LogSystemLiveness
import CppUtils.Proof.ThreadHandshake
import CppUtils.LogProgram
import CppUtils.Proof.LogProgramRecords
import CppUtils.Lib.LiveMemory
import CppUtils.Proof.LinkedListMemory
import CppUtils.Proof.SkipListDisplay
import CppUtils.Proof.SkipListMemory
import CppUtils.Proof.AsyncLoggingBuffers
import CppUtils.Proof.MessageQueueWaiting
import CppUtils.Proof.SkipListFindErase
import CppUtils.Proof.LogArchiveCalls
import CppUtils.Proof.LogArchiveRuns
import CppUtils.Proof.ThreadDestroyed
import CppUtils.Proof.ThreadWaiting
