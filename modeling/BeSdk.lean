import BeSdk.Idem.Once
import BeSdk.Db.SeriesCoverage
import BeSdk.Db.SeriesNumbers
import BeSdk.Work.Marks
import BeSdk.Work.Materialize
import BeSdk.Events.Subjects
import BeSdk.Events.EpochOrders
import BeSdk.Events.ReadAfter
import BeSdk.Events.Redelivery
import BeSdk.Evidence.CommitOrder
import BeSdk.Events.OneInFlight
import BeSdk.Events.Fates
import BeSdk.Projection.Latest
import BeSdk.Projection.Completion
import BeSdk.Projection.Marks
import BeSdk.Projection.Blocked
import BeSdk.Projection.Rollback
import BeSdk.Projection.Adoption
import BeSdk.Canon.Encode
import BeSdk.Audit.Denials
import BeSdk.Audit.StrictRead
import BeSdk.Authz.Monotone
import BeSdk.Authz.Validity
import BeSdk.Listing.NonInterference
import BeSdk.Listing.Search
import BeSdk.Reserve.Conservation
import BeSdk.Reserve.Retries
import BeSdk.Tiering.Retention
import BeSdk.Tiering.Exports
import BeSdk.Extcmd.Match
import BeSdk.Extcmd.Final
import BeSdk.Extcmd.Landing
import BeSdk.Tiering.HoldScopes
import BeSdk.Tiering.Contents
import BeSdk.Tiering.ErasedReads
import BeSdk.Tiering.Leftovers
import BeSdk.Tiering.Parquet
import BeSdk.Tiering.DeleteOnline
import BeSdk.Calls.Breaker
import BeSdk.Db.Hooks
import BeSdk.Runprofile.Advance
import BeSdk.Identity.Keys
import BeSdk.Config.Durations
