import EventHistory.Lib.Machine
import EventHistory.Lib.Sync
import EventHistory.Lib.Objects
import EventHistory.Lib.Outline
import EventHistory.Lib.Monitor
import EventHistory.Lib.Serial
import EventHistory.Lib.Sql
import EventHistory.Lib.Paging
import EventHistory.Lib.Text
import EventHistory.Lib.DottedQuad
import EventHistory.Lib.Calendar
import EventHistory.Lib.Wire
import EventHistory.Entities
import EventHistory.Proto
import EventHistory.Utils
import EventHistory.Service.Handlers
import EventHistory.Service.Streaming
import EventHistory.Service.Concurrent
import EventHistory.Service.Answers
import EventHistory.Rpc.Serving
import EventHistory.Rpc.Cancellation
import EventHistory.Rpc.SaveBatch
import EventHistory.Rpc.Routes
import EventHistory.Rpc.MessageSize
import EventHistory.Rpc.GetEvents
import EventHistory.Rpc.GetStats
import EventHistory.Db.Schema
import EventHistory.Db.Queries
import EventHistory.Db.Pagination
import EventHistory.Db.SaveEvents
import EventHistory.Db.Consistency
import EventHistory.Db.Constraints
import EventHistory.Db.Filtering
import EventHistory.Db.OpenFilters
import EventHistory.Db.Inet
import EventHistory.Service.OverPostgres
import EventHistory.Service.Unary
import EventHistory.Service.Insertable
import EventHistory.Service.ReadBack
import EventHistory.System.Repository
import EventHistory.System.EventLog
import EventHistory.System.Clients
import EventHistory.System.Visible
import EventHistory.System.Reading
import EventHistory.Pool.Model
import EventHistory.Pool.Wakeup
import EventHistory.Pool.Ownership
import EventHistory.Pool.Returned
import EventHistory.Pool.Drain
import EventHistory.Pool.Prepared
import EventHistory.Pool.Created
import EventHistory.System.Pooled
import EventHistory.System.Replaced
import EventHistory.System.Progress
import EventHistory.Client.CommandLine
import EventHistory.Client.Tokens
import EventHistory.Client.Filters
import EventHistory.Client.Grammar
import EventHistory.Client.Builder
import EventHistory.Client.Timestamps
import EventHistory.System.Prompts
import EventHistory.System.Built
