import Libmbox2.Exec
import Libmbox2.Memory
import Libmbox2.LongerBlock
import Libmbox2.Slice
import Libmbox2.Buf
import Libmbox2.Io
import Libmbox2.BufWrites
import Libmbox2.Parser
import Libmbox2.HeaderEnd
import Libmbox2.Scan
import Libmbox2.HeaderSearch
import Libmbox2.Mail
import Libmbox2.Mbox
import Libmbox2.NextMessage
import Libmbox2.Delivered
import Libmbox2.Termination
import Libmbox2.SeekStart
import Libmbox2.Deliver
import Libmbox2.Contexts
import Libmbox2.Tiles
import Libmbox2.Offsets
import Libmbox2.WholeFile
import Libmbox2.Ranges
import Libmbox2.Faithful
import Libmbox2.Steps
import Libmbox2.Worker
import Libmbox2.Stranded
import Libmbox2.Barrier
import Libmbox2.Heap
import Libmbox2.Quicksort
import Libmbox2.LinkedList
import Libmbox2.ListSort
import Libmbox2.Deque
import Libmbox2.Decimal
import Libmbox2.RedBlack
import Libmbox2.Comparator
import Libmbox2.RedBlackTree
import Libmbox2.RbShape
import Libmbox2.RbFixup
import Libmbox2.RbInsert
import Libmbox2.RbMap
import Libmbox2.HeaderNames
import Libmbox2.Headers
import Libmbox2.HeaderRead
import Libmbox2.HeaderKey
import Libmbox2.HeaderLines
import Libmbox2.HeaderBounds
import Libmbox2.HeaderShape
import Libmbox2.HeaderFolding
import Libmbox2.Bitset
import Libmbox2.MemPool
import Libmbox2.Batching
import Libmbox2.MsgLite
import Libmbox2.IndexLoad
import Libmbox2.OwnBytes
import Libmbox2.IndexSave
import Libmbox2.Date
import Libmbox2.DateText
import Libmbox2.Timestamp
import Libmbox2.Mime
import Libmbox2.Sender
import Libmbox2.IndexRead
import Libmbox2.IndexDamage
import Libmbox2.ListLock
import Libmbox2.MsgSort
import Libmbox2.SenderSort
import Libmbox2.RbDelete
import Libmbox2.Borders
import Libmbox2.Pattern
import Libmbox2.Escape
import Libmbox2.Split
import Libmbox2.FileRemove
import Libmbox2.CharStack
import Libmbox2.MimeGuard
import Libmbox2.DateInside
import Libmbox2.Boundary
import Libmbox2.Callbacks
import Libmbox2.Pipeline
import Libmbox2.PipelineRuns
import Libmbox2.PipelineEnd
import Libmbox2.Sleepers
import Libmbox2.PipelineReturns
import Libmbox2.EveryMail
import Libmbox2.ParallelParse
import Libmbox2.IndexThreads
import Libmbox2.IndexRuns
import Libmbox2.SleepingCallbacks
import Libmbox2.IndexReturns
