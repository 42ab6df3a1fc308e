import ZeroCache.Auth.ReadGuard
import ZeroCache.Server.HydrationMeaning
import ZeroCache.QueryBuilder.Agreement
import ZeroCache.QueryBuilder.Exists
import ZeroCache.Replica.Caches
import ZeroCache.Replica.DiffResets
import ZeroCache.ChangeSource.Replication
import ZeroCache.Replica.ChangeLog
import ZeroCache.ViewSyncer.Poke
import ZeroCache.ChangeSource.Feedback
import ZeroCache.ViewSyncer.RefCounts
import ZeroCache.ViewSyncer.Fanout
import ZeroCache.ViewSyncer.SharedRows
import ZeroCache.ViewSyncer.DriverRuns
import ZeroCache.ViewSyncer.QueryCovering
import ZeroCache.Server.CrudSequence
import ZeroCache.Replica.TextCopy
import ZeroCache.Replica.Calendar
import ZeroCache.ViewSyncer.DesiredQueries
import ZeroCache.Zql.TakeRuns
import ZeroCache.Zql.FanIn
import ZeroCache.ViewSyncer.GroupRegistry
import ZeroCache.ViewSyncer.Eviction
import ZeroCache.ViewSyncer.CacheKey
import ZeroCache.Mutagen.SlidingWindow
