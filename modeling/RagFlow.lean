import RagFlow.PyStr
import RagFlow.PyVal
import RagFlow.MetaFilter
import RagFlow.Effect
import RagFlow.Interleave
import RagFlow.Interval
import RagFlow.Table
import RagFlow.Columns
import RagFlow.Db
import RagFlow.PosixPath
import RagFlow.FileType
import RagFlow.MountInfo
import RagFlow.TaskService
import RagFlow.TaskRanges
import RagFlow.TableParser
import RagFlow.DocumentService
import RagFlow.Transition
import RagFlow.KbCounters
import RagFlow.TaskExecutor
import RagFlow.ScanDirectory
import RagFlow.ScanCommands
import RagFlow.ScanRun
import RagFlow.ScanFrame
import RagFlow.ScanConverge
import RagFlow.RedisConn
import RagFlow.GraphragLock
import RagFlow.TaskProgress
import RagFlow.SyncProgress
import RagFlow.Graph
import RagFlow.GraphMerge
import RagFlow.EntityResolution
import RagFlow.MotherChunks
import RagFlow.ScanRace
import RagFlow.ScanRetry
import RagFlow.ScanFigures
import RagFlow.GraphRebuild
import RagFlow.NaiveMerge
import RagFlow.CanvasPersist
import RagFlow.CanvasLoop
import RagFlow.MessageRender
import RagFlow.MessageService
import RagFlow.MemoryMessage
import RagFlow.ConnectorService
import RagFlow.FileMove
import RagFlow.CliParser
import RagFlow.RagTokenize
import RagFlow.RagFineGrained
import RagFlow.RagPositions
import RagFlow.BatchMetadata
import RagFlow.AutoMetadata
import RagFlow.Migration
import RagFlow.MigrationCounters
import RagFlow.EncryptedStorage
import RagFlow.CanvasReplica
import RagFlow.Raptor
import RagFlow.AgentDsl
import RagFlow.JsonText
import RagFlow.PyJson
import RagFlow.ObSchema
import RagFlow.ObVerify
import RagFlow.Requeue
import RagFlow.SplitPattern
import RagFlow.Literals
import RagFlow.MergedText
import RagFlow.Docx
import RagFlow.DocxContext
import RagFlow.PdfContext
import RagFlow.Sentences
import RagFlow.MediaContext
import RagFlow.GroupMerge
import RagFlow.Outline
import RagFlow.Headings
import RagFlow.TreeMerge
import RagFlow.SinglePop
import RagFlow.HierarchicalMerge
import RagFlow.Switch
import RagFlow.Dict
import RagFlow.CanvasReference
import RagFlow.Renaming
import RagFlow.DataOperations
import RagFlow.Dedup
import RagFlow.ListOperations
import RagFlow.FloatFormat
import RagFlow.Binary64
import RagFlow.Pages
import RagFlow.Retrieval
import RagFlow.ExcelParser
import RagFlow.Joined
import RagFlow.HtmlParser
import RagFlow.MetaFilterOrder
import RagFlow.JsonPaths
import RagFlow.JsonSplitter
import RagFlow.MarkdownElements
import RagFlow.TopN
import RagFlow.BestTokens
import RagFlow.CliLexer
import RagFlow.RoseTree
import RagFlow.OutlineTree
import RagFlow.HierarchicalMerger
import RagFlow.MergerPaths
import RagFlow.Orbit
import RagFlow.DictValue
import RagFlow.Words
import RagFlow.StrQ2B
import RagFlow.SplitChunks
import RagFlow.DuplicateName
import RagFlow.Prompts
import RagFlow.KbPrompt
import RagFlow.RaptorErrors
import RagFlow.CategorizeForm
import RagFlow.FirstGap
import RagFlow.InsertCitations
import RagFlow.JsNumber
import RagFlow.NodeNames
import RagFlow.Lru
import RagFlow.EmbeddingLru
import RagFlow.Crew
import RagFlow.AnalyzerPool
import RagFlow.SandboxPool
import RagFlow.ConsumerGroup
import RagFlow.TaskQueue
import RagFlow.RowTree
import RagFlow.FileTree
import RagFlow.FileUpload
import RagFlow.TokenBucket
import RagFlow.RateRounding
import RagFlow.RateLimit
import RagFlow.CliCommands
import RagFlow.CliText
