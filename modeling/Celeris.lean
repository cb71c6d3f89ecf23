import Celeris.Routing.Capture
import Celeris.Routing.Validity
import Celeris.Routing.Classes
import Celeris.Routing.Target
import Celeris.H1.Modes
import Celeris.Conn.Deadline
import Celeris.H1.Accepted
import Celeris.Conn.RoundTrip
import Celeris.Conn.WriteQueue
import Celeris.H2.SendWindow
import Celeris.H2.WorkerPool
import Celeris.H2.ActiveStreams
import Celeris.H2.ReceiveCredit
import Celeris.H2.Windows
import Celeris.H2.ContentLength
import Celeris.H2.Budget
import Celeris.H2.GoAway
import Celeris.H2.HeaderBlocks
import Celeris.H2.WriteDeadline
import Celeris.H2.Cookies
import Celeris.Postgres.Time
import Celeris.Postgres.Copy
import Celeris.Postgres.Numeric
import Celeris.Redis.ClusterPipeline
import Celeris.Redis.Slot
import Celeris.WebSocket.Backpressure
import Celeris.WebSocket.NextReader
import Celeris.WebSocket.Origin
import Celeris.Driver.PoolCap
import Celeris.Driver.PoolClose
import Celeris.Driver.Backoff
import Celeris.Postgres.Messages
import Celeris.Store.Buffering
import Celeris.Sse.ReplayRing
import Celeris.RateLimit.Contention
import Celeris.Idempotency.Lock
import Celeris.Context.Query
