import MyDB.Storage.BufferPool
import MyDB.Storage.BufferPoolInvariant
import MyDB.Storage.BufferPoolRuns
import MyDB.Lib.Refinement
import MyDB.Storage.PageStore
import MyDB.Storage.TransparentCache
import MyDB.Lib.BinarySearch
import MyDB.Storage.BPlusTree
import MyDB.Lib.SepList
import MyDB.Lib.SortedAssoc
import MyDB.Storage.BPlusTreeRefinement
import MyDB.Storage.SearchTree
import MyDB.Storage.SearchTreeInsert
import MyDB.Storage.TreePages
import MyDB.Storage.TreeRuns
import MyDB.Storage.BPlusTreeMap
import MyDB.Storage.BPlusTreeShape
import MyDB.Storage.BPlusTreeCapacity
import MyDB.Storage.BPlusTreeFailure
import MyDB.Lib.Lang
import MyDB.Lib.Lookahead
import MyDB.Common.Types
import MyDB.Parser.Ast
import MyDB.Parser.Lexer
import MyDB.Parser.Parser
import MyDB.Parser.Grammar
import MyDB.Parser.ParseInput
import MyDB.Parser.ParserReads
import MyDB.Lib.Total
import MyDB.Parser.ParserTotal
import MyDB.Storage.Durability
import MyDB.Storage.DiskFile
import MyDB.Lib.Threads
import MyDB.Concurrency.LockFreeHashTable
import MyDB.Executor.Eval
import MyDB.Lib.Cursor
import MyDB.Storage.HeapFile
import MyDB.Catalog.Catalog
import MyDB.Executor.Operator
import MyDB.Planner.Explain
import MyDB.Lib.ClaimLoop
import MyDB.Executor.ParallelHashJoin
import MyDB.Storage.HeapRows
import MyDB.Executor.ParallelSeqScan
import MyDB.Executor.Evaluation
import MyDB.Common.TupleCodec
import MyDB.Executor.ThreadPool
import MyDB.Common.Decimal
import MyDB.Executor.HashJoinRows
import MyDB.Executor.ParallelSort
import MyDB.Storage.RangeScan
import MyDB.Database
import MyDB.Database.SlotBounds
import MyDB.Executor.Grouping
import MyDB.Executor.GroupKeys
import MyDB.Executor.Aggregation
import MyDB.Planner.PlanRows
import MyDB.Database.Select
import MyDB.Database.AggregateQueries
import MyDB.Executor.SortOrder
import MyDB.Database.ColumnQueries
import MyDB.Executor.Schedules
import MyDB.Executor.Restart
import MyDB.Database.SelectItems
import MyDB.Storage.HeapLog
import MyDB.Executor.ScanFrames
import MyDB.Database.UncheckedItems
import MyDB.Planner.Resolution
import MyDB.Executor.JoinKeys
import MyDB.Executor.JoinedRows
import MyDB.Database.JoinConditions
import MyDB.Parser.Names
import MyDB.Database.GroupOrder
import MyDB.Database.Tables
import MyDB.Database.TableRows
import MyDB.Database.Algebra
import MyDB.Database.SelectAnswers
import MyDB.Storage.LruHistory
import MyDB.Storage.PoolErrors
import MyDB.Executor.MergePhase
import MyDB.Common.TupleLayout
import MyDB.Parser.Lexemes
import MyDB.Parser.LineBreaks
import MyDB.Repl
import MyDB.Database.Declarations
import MyDB.Storage.PinCounts
import MyDB.Storage.PinBalance
import MyDB.Executor.JoinColumns
import MyDB.Executor.Comparator
import MyDB.Executor.TaskErrors
import MyDB.Lib.PartialTasks
import MyDB.Executor.WorkerErrors
import MyDB.Concurrency.TableHistory
import MyDB.Concurrency.TableMemory
import MyDB.Executor.PoolCompletion
import MyDB.Lib.Recency
import MyDB.Storage.Replacement
import MyDB.Storage.Inclusion
import MyDB.Executor.OtherTables
import MyDB.Database.Memory
import MyDB.Database.Lifetime
import MyDB.Parser.LexicalGrammar
import MyDB.Executor.Outcomes
import MyDB.Database.Exceptions
