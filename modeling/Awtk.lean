import Awtk.Lib.Run
import Awtk.Lib.Ring
import Awtk.Lib.Bytes
import Awtk.Lib.DList
import Awtk.Lib.HoleSort
import Awtk.Lib.Tiling
import Awtk.Lib.Stuffing
import Awtk.Lib.RingQueue
import Awtk.Lib.Chain
import Awtk.Lib.Ieee
import Awtk.Lib.Sweep
import Awtk.Lib.Loop
import Awtk.Lib.Bitmap
import Awtk.Lib.Box
import Awtk.Lib.Acyclic
import Awtk.Lib.Ledger
import Awtk.Tkc.Types
import Awtk.Tkc.RingBuffer
import Awtk.Tkc.RingBufferFifo
import Awtk.Tkc.MemAllocatorSimple
import Awtk.Tkc.MemAllocatorOps
import Awtk.Tkc.MemAllocatorRuns
import Awtk.Tkc.MemAllocatorFrames
import Awtk.Tkc.MemAllocatorSizes
import Awtk.Tkc.MemAllocatorFixedBlock
import Awtk.Tkc.MemAllocatorFixedBlockPools
import Awtk.Tkc.MemAllocatorFixedBlockMerge
import Awtk.Tkc.MemAllocatorFixedBlockCalls
import Awtk.Tkc.MemAllocatorFixedBlockRuns
import Awtk.Tkc.MemPool
import Awtk.Tkc.MemAllocatorPool
import Awtk.Tkc.MemAllocatorPoolBlocks
import Awtk.Tkc.MemAllocatorPoolRuns
import Awtk.Tkc.WBuffer
import Awtk.Tkc.RBuffer
import Awtk.Tkc.RBufferBounds
import Awtk.Tkc.Utf8
import Awtk.Tkc.Utf8RoundTrip
import Awtk.Tkc.Utf8OutputContract
import Awtk.Tkc.BufferValue
import Awtk.Tkc.BufferValueRoundTrip
import Awtk.Tkc.BufferValueAtomic
import Awtk.Tkc.Crc
import Awtk.Tkc.ObjectFifo
import Awtk.Tkc.ObjectFifoDeque
import Awtk.Tkc.ObjectFifoSort
import Awtk.Tkc.LfBpBuffer
import Awtk.Tkc.Emitter
import Awtk.Tkc.EmitterItems
import Awtk.Tkc.EmitterRuns
import Awtk.Tkc.Tree
import Awtk.Tkc.TreeLinks
import Awtk.Tkc.TreeForeach
import Awtk.Tkc.TreeRemove
import Awtk.Tkc.TreeRuns
import Awtk.Tkc.TreeVisitOrder
import Awtk.Tkc.TimerManagerRuns
import Awtk.Tkc.TimerManagerNextTime
import Awtk.Tkc.HashTable
import Awtk.Tkc.PathRoot
import Awtk.Tkc.StrTRuns
import Awtk.Tkc.ObjectWorkflowCmd
import Awtk.Streams.ShdlcFraming
import Awtk.Compressors.CompressorMiniz
import Awtk.Streams.ShdlcIntegrity
import Awtk.Streams.ShdlcStream
import Awtk.Streams.ShdlcStreamReliable
import Awtk.Streams.OstreamRetry
import Awtk.ConfIo.ConfNodeStore
import Awtk.ConfIo.ConfUbjsonRoundTrip
import Awtk.ConfIo.ConfIniRoundTrip
import Awtk.Ubjson.UbjsonObjectRoundTrip
import Awtk.Xml.XmlParserBounds
import Awtk.Xml.XmlParserCorrect
import Awtk.Csv.CsvRoundTrip
import Awtk.Base.DirtyRectsRuns
import Awtk.Base.LcdFbDirtyRects
import Awtk.Base.WidgetTreeRuns
import Awtk.Base.WidgetAnimatorManagerRuns
import Awtk.UiLoader.UiLoaderRoundTrip
import Awtk.Base.TextEditRuns
import Awtk.Base.TextEditLayoutTiling
import Awtk.Fscript.FscriptMeaning
import Awtk.Tkc.WaitableActionDArrayRuns
import Awtk.Tkc.DArraySorted
import Awtk.Tkc.ValueCompare
import Awtk.Csv.CsvRowSet
import Awtk.Fscript.FscriptRepeat
import Awtk.Fscript.FscriptBuiltins
import Awtk.ConfIo.ConfIniEscape
import Awtk.Ubjson.UbjsonToObject
import Awtk.Ubjson.UbjsonToObjectComplete
import Awtk.Ubjson.UbjsonSteps
import Awtk.Lib.Noted
import Awtk.Fscript.FscriptEval
import Awtk.Fscript.FscriptReturn
import Awtk.Fscript.FscriptUnwinds
import Awtk.Tkc.Rect
import Awtk.Tkc.PathBuild
import Awtk.Tkc.RingBufferSpace
import Awtk.Tkc.IntType
import Awtk.Tkc.Value
import Awtk.Tkc.ValueArith
import Awtk.Lib.Rotation
import Awtk.Tkc.ValueRotate
import Awtk.Lib.Extremum
import Awtk.Tkc.ValueMin
import Awtk.Lib.InPlace
import Awtk.Tkc.ObjectArray
import Awtk.Lib.OneHit
import Awtk.Tkc.NamedValue
import Awtk.Tkc.ObjectDefault
import Awtk.Tkc.ObjectDefaultRuns
import Awtk.Tkc.UrlScan
import Awtk.Tkc.UrlParams
import Awtk.Tkc.UrlRoundTrip
import Awtk.Base.EventQueue
import Awtk.Tkc.ActionQueue
import Awtk.Tkc.Tokenizer
import Awtk.Tkc.FuncCallParser
import Awtk.Tkc.StrTEscape
import Awtk.Tkc.StateMachine
import Awtk.Tkc.WBufferRuns
import Awtk.Lib.Recency
import Awtk.Base.GlyphCache
import Awtk.Base.LineParser
import Awtk.Lib.Keyed
import Awtk.Base.StyleMutable
import Awtk.Base.StyleMutableRuns
import Awtk.Tkc.IdleManager
import Awtk.Tkc.IdleManagerSteps
import Awtk.Tkc.IdleManagerHistory
import Awtk.Tkc.IdleManagerRuns
import Awtk.Tkc.WildCard
import Awtk.Tkc.Qsort
import Awtk.Tkc.RomFs
import Awtk.Tkc.StrTXmlEntity
import Awtk.Lib.RoseIntervals
import Awtk.Tkc.TreeNodeFeatureSegment
import Awtk.Streams.IStreamMem
import Awtk.Service.Client
