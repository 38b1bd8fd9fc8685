import BlazeList.Lib.Fallible
import BlazeList.Lib.Keyed
import BlazeList.Lib.Table
import BlazeList.Lib.OrderBy
import BlazeList.Lib.Search
import BlazeList.Lib.Overlay
import BlazeList.Lib.Run
import BlazeList.Lib.IndexMap
import BlazeList.Lib.Reassign
import BlazeList.Lib.PrefixCode
import BlazeList.Lib.Paging
import BlazeList.Lib.Exchange
import BlazeList.Lib.Lines
import BlazeList.Lib.Words
import BlazeList.Protocol.Entity
import BlazeList.Protocol.Chain
import BlazeList.Protocol.TagGraph
import BlazeList.Protocol.Encoding
import BlazeList.Server.Root
import BlazeList.Server.Closure
import BlazeList.Server.RootHistory
import BlazeList.Server.Merkle
import BlazeList.Server.Isolation
import BlazeList.Server.Reads
import BlazeList.Server.History
import BlazeList.Server.Reprioritize
import BlazeList.Server.Tombstones
import BlazeList.Server.DeletedTags
import BlazeList.Server.Migration
import BlazeList.Server.Upgrade
import BlazeList.Server.Commitment
import BlazeList.Server.Pushes
import BlazeList.Server.ItemErrors
import BlazeList.Server.Notifications
import BlazeList.Server.SequenceHistory
import BlazeList.Client.ChangeSet
import BlazeList.Client.IncrementalSync
import BlazeList.Client.Rebalance
import BlazeList.Client.Flush
import BlazeList.Client.QueueRace
import BlazeList.Client.CleanSync
import BlazeList.Client.Retries
import BlazeList.Client.Moves
import BlazeList.Client.Restart
import BlazeList.Client.LastEdit
import BlazeList.Client.Ordering
import BlazeList.Client.Extremes
import BlazeList.Client.Drag
import BlazeList.Client.Bursts
import BlazeList.Client.Coalesce
import BlazeList.Client.DeletedCards
import BlazeList.Client.Wire
import BlazeList.Client.FreshSync
import BlazeList.Client.TagDetail
import BlazeList.Client.NewCard
import BlazeList.Client.Filter
import BlazeList.Client.Hidden
import BlazeList.Client.Keyboard
import BlazeList.Client.TagEditor
import BlazeList.Client.Chunks
import BlazeList.Client.TaskItems
import BlazeList.Lib.BreadthFirst
import BlazeList.Client.Links
import BlazeList.Client.LinkExpansion
import BlazeList.Client.LinkCounts
import BlazeList.Client.Linkify
import BlazeList.Client.LinkCache
import BlazeList.Server.Histories
import BlazeList.Lib.FormUrlEncoded
import BlazeList.Lib.Visits
import BlazeList.Client.QueryParams
import BlazeList.Client.Screen
import BlazeList.Client.Address
import BlazeList.Client.NoTags
import BlazeList.Client.Navigation
import BlazeList.Server.Handshake
import BlazeList.Server.Growth
import BlazeList.Server.Repeats
import BlazeList.Client.Subscription
import BlazeList.Client.Listing
import BlazeList.Client.DueDate
import BlazeList.Client.HistoryCache
import BlazeList.Client.Connection
import BlazeList.Client.Preferences
import BlazeList.Server.StaticFiles
import BlazeList.Server.Rows
