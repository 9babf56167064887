import SearchPlusPlus.Base.Types
import SearchPlusPlus.Store.VarByte
import SearchPlusPlus.Store.VarByteStream
import SearchPlusPlus.Lib.SortedMap
import SearchPlusPlus.Base.Float
import SearchPlusPlus.Json.Value
import SearchPlusPlus.Json.Serializer
import SearchPlusPlus.Json.Parser
import SearchPlusPlus.Json.RoundTrip
import SearchPlusPlus.Json.Grammar
import SearchPlusPlus.Lib.Program
import SearchPlusPlus.Store.FileIo
import SearchPlusPlus.Analyze.Analyzer
import SearchPlusPlus.Index.Schema
import SearchPlusPlus.Index.Document
import SearchPlusPlus.Index.MutableSegment
import SearchPlusPlus.Index.InvertedIndex
import SearchPlusPlus.Index.SegmentInfo
import SearchPlusPlus.Index.SegmentWriter
import SearchPlusPlus.Index.SegmentReader
import SearchPlusPlus.Index.SegmentRoundTrip
import SearchPlusPlus.Index.SegmentAgreement
import SearchPlusPlus.Index.SegmentBounds
import SearchPlusPlus.Server.CreateIndex
import SearchPlusPlus.Index.Translog
import SearchPlusPlus.Index.Manifest
import SearchPlusPlus.Index.IndexWriter
import SearchPlusPlus.Index.SchemaRoundTrip
import SearchPlusPlus.Index.Opening
import SearchPlusPlus.Index.WriterRules
import SearchPlusPlus.Lib.Run
import SearchPlusPlus.Index.WriterRun
import SearchPlusPlus.Index.UnreadableLog
import SearchPlusPlus.Index.RejectedDocument
import SearchPlusPlus.Index.SealedStems
import SearchPlusPlus.Lib.Seek
import SearchPlusPlus.Query.Iterators
import SearchPlusPlus.Query.TermCursor
import SearchPlusPlus.Query.SeekLaw
import SearchPlusPlus.Query.Leapfrog
import SearchPlusPlus.Query.Union
import SearchPlusPlus.Lib.Loop
import SearchPlusPlus.Query.PartialCalls
import SearchPlusPlus.Query.Termination
import SearchPlusPlus.Query.Trees
import SearchPlusPlus.Query.Build
import SearchPlusPlus.Query.SeekRuns
import SearchPlusPlus.Query.AnyBytes
import SearchPlusPlus.Query.EndLaw
import SearchPlusPlus.Query.Exhaustion
import SearchPlusPlus.Query.PostingCursor
import SearchPlusPlus.Query.QueryParser
import SearchPlusPlus.Query.QueryGrammar
import SearchPlusPlus.Query.OperatorWords
import SearchPlusPlus.Query.Printing
import SearchPlusPlus.Query.Writing
import SearchPlusPlus.Lib.TopK
import SearchPlusPlus.Query.Scoring
import SearchPlusPlus.Query.Searcher
import SearchPlusPlus.Query.Candidates
import SearchPlusPlus.Query.LeafIdf
import SearchPlusPlus.Query.Ties
import SearchPlusPlus.Analyze.Words
import SearchPlusPlus.Analyze.TokenSpans
import SearchPlusPlus.Query.LeafPostings
import SearchPlusPlus.Query.Boost
import SearchPlusPlus.Query.StageFrequencies
import SearchPlusPlus.Query.Documents
import SearchPlusPlus.Query.Results
import SearchPlusPlus.Query.OwnWords
import SearchPlusPlus.Query.DocumentCounts
import SearchPlusPlus.Query.TwoStages
import SearchPlusPlus.Lib.Substring
import SearchPlusPlus.Http.HttpParser
import SearchPlusPlus.Http.QueryParams
import SearchPlusPlus.Http.Head
import SearchPlusPlus.Http.HttpServer
import SearchPlusPlus.Http.Framing
import SearchPlusPlus.Http.ErrorBody
import SearchPlusPlus.Lib.LexicalPath
import SearchPlusPlus.Http.Router
import SearchPlusPlus.Server.IndexDirectory
import SearchPlusPlus.Server.RequestBody
import SearchPlusPlus.Server.DocQuality
import SearchPlusPlus.Lib.Compaction
import SearchPlusPlus.Server.TokenWeights
import SearchPlusPlus.Query.WeightFeatures
import SearchPlusPlus.Query.FeatureOrder
import SearchPlusPlus.Server.NumberFields
import SearchPlusPlus.Server.SearchSlots
import SearchPlusPlus.Tools.ExportFeatures
import SearchPlusPlus.Index.Durability
import SearchPlusPlus.Index.Visibility
import SearchPlusPlus.Index.FailedRefresh
import SearchPlusPlus.Index.Recovery
import SearchPlusPlus.Index.ReplayedDocuments
import SearchPlusPlus.Store.Storage
import SearchPlusPlus.Index.AtomicRefresh
import SearchPlusPlus.Index.Publication
import SearchPlusPlus.Index.Contents
import SearchPlusPlus.Server.LiveIndex
import SearchPlusPlus.Http.Exchange
import SearchPlusPlus.Http.ConnectionPool
import SearchPlusPlus.Query.Ranker
import SearchPlusPlus.Lib.Threads
import SearchPlusPlus.Server.Handlers
import SearchPlusPlus.Server.Responses
import SearchPlusPlus.Server.ServedIndex
import SearchPlusPlus.Server.ReplayedPosts
