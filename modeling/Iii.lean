import Iii.Bindings.Idle
import Iii.Bindings.Store
import Iii.Compose.AnyOrder
import Iii.Compose.Document
import Iii.Compose.Stable
import Iii.Compose.Views
import Iii.Compose.Waves
import Iii.Configuration.Override
import Iii.Configuration.Template
import Iii.Dispatch.Account
import Iii.Dispatch.Budget
import Iii.Dispatch.Fires
import Iii.Dispatch.Payload
import Iii.Engine.Answered
import Iii.Engine.Namespace
import Iii.Engine.Ownership
import Iii.Engine.Services
import Iii.Erofs.Overlay
import Iii.Erofs.Reader
import Iii.Erofs.Total
import Iii.Filter.Canonical
import Iii.Filter.Correct
import Iii.Filter.Grammar
import Iii.Go.Correct
import Iii.Hooks.Balanced
import Iii.Hooks.Released
import Iii.Kv.Flush
import Iii.Kv.Lock
import Iii.Lib.Trap
import Iii.Node.Correct
import Iii.Observers.Exclusive
import Iii.Observers.Replay
import Iii.Owner.Kept
import Iii.Owner.Revisions
import Iii.Python.Lazy
import Iii.Queue.Conserve
import Iii.Queue.Containers
import Iii.Queue.Delayed
import Iii.Queue.Grouped
import Iii.Queue.Stop
import Iii.Queue.Stranded
import Iii.Queue.Topics
import Iii.Rbac.Allowed
import Iii.Registry.Race
import Iii.Registry.Replay
import Iii.Reporter.Bounded
import Iii.Reporter.Order
import Iii.Schema.Sound
import Iii.Schema.Spelling
import Iii.Shell.Stream
import Iii.Spans.Run
import Iii.Update.Correct
import Iii.Update.Counter
import Iii.Update.Fold
import Iii.Update.Independent
import Iii.Worker.Deliver
import Iii.Worker.Members
