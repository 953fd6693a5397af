import LocalGraphRag.Effects.Prog
import LocalGraphRag.Effects.Safety
import LocalGraphRag.Systems.Runs
import LocalGraphRag.Systems.History
import LocalGraphRag.Systems.Shared
import LocalGraphRag.Relational.Table
import LocalGraphRag.Relational.RowTable
import LocalGraphRag.Python.Text
import LocalGraphRag.Graph.Records
import LocalGraphRag.Graph.RecordStore
import LocalGraphRag.Graph.Commits
import LocalGraphRag.Graph.Schema
import LocalGraphRag.Graph.MigrationMeaning
import LocalGraphRag.Graph.StartUp
import LocalGraphRag.Graph.Communities
import LocalGraphRag.Graph.Summarizer
import LocalGraphRag.Graph.CurrentSummaries
import LocalGraphRag.Graph.Integrity
import LocalGraphRag.Graph.SummaryRuns
import LocalGraphRag.Graph.ResumableSummaries
import LocalGraphRag.Python.Json
import LocalGraphRag.Graph.Extractor
import LocalGraphRag.Ingest.Indexer
import LocalGraphRag.Ingest.FileView
import LocalGraphRag.Ingest.FileWrites
import LocalGraphRag.Ingest.Indexing
import LocalGraphRag.Ingest.Steps
import LocalGraphRag.Ingest.Replay
import LocalGraphRag.Ingest.Discipline
import LocalGraphRag.Ingest.CleanupSafety
import LocalGraphRag.Ingest.WriteSafety
import LocalGraphRag.Ingest.CrashSafety
import LocalGraphRag.Ingest.Ownership
import LocalGraphRag.Ingest.ExtractionCache
import LocalGraphRag.Ingest.Searchable
import LocalGraphRag.Ingest.ContentNaming
import LocalGraphRag.Ingest.Reindexing
import LocalGraphRag.Ingest.Provenance
import LocalGraphRag.Ingest.OrderIndependence
import LocalGraphRag.Ingest.ReplyTolerance
import LocalGraphRag.Python.Paths
import LocalGraphRag.Ingest.Scan
import LocalGraphRag.Ingest.ScanReach
import LocalGraphRag.Ingest.ScanErrors
import LocalGraphRag.Web.UserStore
import LocalGraphRag.Web.Sessions
import LocalGraphRag.Web.Logins
import LocalGraphRag.Web.Streaming
import LocalGraphRag.Web.Capacity
import LocalGraphRag.Python.Split
import LocalGraphRag.Sequences.Windows
import LocalGraphRag.Ingest.TextChunks
import LocalGraphRag.Ingest.MarkdownChunks
import LocalGraphRag.Python.Marked
import LocalGraphRag.Sequences.Gaps
import LocalGraphRag.Ingest.PythonChunks
import LocalGraphRag.Ingest.Chunkers
import LocalGraphRag.Sequences.Greedy
import LocalGraphRag.Graph.Batches
import LocalGraphRag.Ingest.ChunkSizes
import LocalGraphRag.Ingest.MarkdownSizes
import LocalGraphRag.Sequences.Regions
import LocalGraphRag.Ingest.MarkdownFences
import LocalGraphRag.Python.Fields
import LocalGraphRag.Python.Strip
import LocalGraphRag.Ingest.GitHistory
import LocalGraphRag.Ingest.HistorySections
import LocalGraphRag.Sequences.Records
import LocalGraphRag.Graph.MemberHash
import LocalGraphRag.Sequences.RoundRobin
import LocalGraphRag.Networks.Distance
import LocalGraphRag.Graph.Neighborhood
import LocalGraphRag.Graph.BreadthFirst
import LocalGraphRag.Sequences.Parts
import LocalGraphRag.Networks.Attachment
import LocalGraphRag.Graph.Clusters
import LocalGraphRag.Graph.CommunityDetection
import LocalGraphRag.Systems.SlidingWindow
import LocalGraphRag.Web.RateLimit
import LocalGraphRag.Web.Middleware
import LocalGraphRag.Sequences.Patterns
import LocalGraphRag.Sequences.MaximalRuns
import LocalGraphRag.Rag.ProjectScope
import LocalGraphRag.Ingest.EntityLinks
import LocalGraphRag.Rag.LocalRetrieval
import LocalGraphRag.Ingest.IgnorePatterns
import LocalGraphRag.Effects.Recording
import LocalGraphRag.Ingest.HistorySync
import LocalGraphRag.Ingest.HistoryDiscipline
import LocalGraphRag.Ingest.HistoryDocuments
import LocalGraphRag.Ingest.DisplayNames
import LocalGraphRag.Python.Replace
import LocalGraphRag.Python.Format
import LocalGraphRag.Graph.ExtractionPrompt
import LocalGraphRag.Networks.SharedBlocks
import LocalGraphRag.Graph.CooccurrenceWeights
import LocalGraphRag.Sequences.LineReader
import LocalGraphRag.Browser.Strings
import LocalGraphRag.Browser.JsonParse
import LocalGraphRag.Python.Numerals
import LocalGraphRag.Browser.JsonRoundTrip
import LocalGraphRag.Web.EventStream
import LocalGraphRag.Rag.OllamaStream
import LocalGraphRag.Web.AnswerDelivery
import LocalGraphRag.Common.SqliteStore
import LocalGraphRag.Sequences.Grouping
import LocalGraphRag.Sequences.Ranking
import LocalGraphRag.Rag.ProjectPaths
import LocalGraphRag.Rag.GlobalRetrieval
import LocalGraphRag.Rag.QueryRouter
import LocalGraphRag.Rag.QueryGraphRag
import LocalGraphRag.Rag.OllamaClient
import LocalGraphRag.Web.Access
import LocalGraphRag.Effects.CallSupport
import LocalGraphRag.Ingest.PointSources
import LocalGraphRag.Rag.PromptSources
import LocalGraphRag.Web.ChatPage
import LocalGraphRag.Web.Serving
import LocalGraphRag.Graph.SummaryPrompt
import LocalGraphRag.Web.ChatRequests
import LocalGraphRag.Ingest.HistorySweep
import LocalGraphRag.Numbers.Rounding
import LocalGraphRag.Graph.PromptLines
