import Smartfire.Lib.Runs
import Smartfire.Lib.Log
import Smartfire.Lib.Coalesce
import Smartfire.Cable.Ring
import Smartfire.Cable.Hub
import Smartfire.Cable.Connection
import Smartfire.Cable.Flow
import Smartfire.Cable.Task
import Smartfire.Cable.Server
import Smartfire.Cable.Skips
import Smartfire.Cable.Reader
import Smartfire.Cable.GapMarkers
import Smartfire.Cable.Socket
import Smartfire.Cable.Topics
import Smartfire.Cable.Cutoff
import Smartfire.Cable.ClosingTurn
import Smartfire.Cable.CutoffRuns
import Smartfire.Cable.Fences
import Smartfire.Cable.Rows
import Smartfire.Cable.RowRuns
import Smartfire.Store.Activity
import Smartfire.Store.Badge
import Smartfire.Store.Ignores
import Smartfire.Jobs.Runner
import Smartfire.Jobs.Claims
import Smartfire.Store.Sidebar
import Smartfire.Store.SidebarRuns
import Smartfire.Deflater.Parts
import Smartfire.Deflater.Pieces
import Smartfire.Deflater.Splice
import Smartfire.Db.Tx
import Smartfire.Db.Write
import Smartfire.Lib.Bytes
import Smartfire.Kit.Params
import Smartfire.Front.Cache
import Smartfire.Front.Handler
import Smartfire.Richtext.Uri
import Smartfire.Richtext.Sanitizer
import Smartfire.Richtext.Rescrub
import Smartfire.Sync.Engine
import Smartfire.Sync.Covered
import Smartfire.Agents.Delivery
import Smartfire.Agents.DeliveryRuns
import Smartfire.Richtext.PlainText
import Smartfire.Richtext.LegacyMarkdown
import Smartfire.Richtext.Spoilers
import Smartfire.Scheduled.Messages
import Smartfire.Scheduled.Settled
import Smartfire.Auth.Totp
import Smartfire.Lib.History
import Smartfire.Auth.TwoFactor
import Smartfire.Auth.TwoFactorRuns
import Smartfire.Agents.Approval
import Smartfire.Agents.ApprovalRuns
import Smartfire.Huddle.Grants
import Smartfire.Huddle.Capacity
import Smartfire.Store.Preferences
import Smartfire.Lib.Base64
import Smartfire.Lib.Json
import Smartfire.RailsCompat.Metadata
import Smartfire.RailsCompat.Signed
import Smartfire.RailsCompat.Apart
import Smartfire.Cable.FenceRuns
import Smartfire.Cable.RingRuns
import Smartfire.Lib.Insert
import Smartfire.Store.PagedList
import Smartfire.Store.Freshness
import Smartfire.Store.FreshnessRuns
import Smartfire.Store.Previews
import Smartfire.Store.PreviewRuns
import Smartfire.Lib.Numbering
import Smartfire.Workspace.Layout
import Smartfire.Workspace.Dense
import Smartfire.Workspace.LayoutRuns
import Smartfire.Lib.Words
import Smartfire.Search.Query
import Smartfire.Search.Chips
import Smartfire.Lib.Keyset
import Smartfire.Search.Paging
import Smartfire.Kit.Nested
import Smartfire.Kit.Panics
import Smartfire.Kit.QueryString
import Smartfire.Front.Eviction
import Smartfire.Caching.JsonCache
import Smartfire.Caching.JsonCacheRuns
import Smartfire.Kit.Cookies
import Smartfire.Kit.CookieBrowser
import Smartfire.Storage.FileServer
import Smartfire.Storage.Ranges
import Smartfire.Storage.Responses
import Smartfire.Lib.Civil
import Smartfire.Lib.Decimal
import Smartfire.Db.Time
import Smartfire.Db.TimeText
import Smartfire.Db.TimeRead
import Smartfire.Kit.Multipart
import Smartfire.Kit.MultipartScan
import Smartfire.Kit.MultipartReads
import Smartfire.Kit.JsonScan
import Smartfire.Kit.BodyChecks
import Smartfire.Cable.Wire
import Smartfire.Lib.Marks
import Smartfire.Richtext.Autolinks
import Smartfire.Net.Uri
import Smartfire.Net.UriPrint
import Smartfire.Net.Redirect
import Smartfire.Lib.BigEndian
import Smartfire.Cable.Framing
import Smartfire.Cable.FramingRuns
import Smartfire.Cable.FrameWriter
import Smartfire.Lib.Bisect
import Smartfire.Store.Copies
import Smartfire.Store.Timeline
import Smartfire.Store.Windows
import Smartfire.Store.TimelineRuns
import Smartfire.Store.Landings
import Smartfire.Store.CopyRuns
import Smartfire.Richtext.SgidJson
import Smartfire.Richtext.SgidJsonGrammar
import Smartfire.Richtext.SgidJsonRead
import Smartfire.Richtext.SgidWritten
import Smartfire.Richtext.SgidText
