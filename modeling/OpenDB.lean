import OpenDB.Storage.FailedPut
import OpenDB.Storage.VersionGroups
import OpenDB.Storage.VersionRuns
import OpenDB.Storage.PageOwners
import OpenDB.Storage.RoundTrip
import OpenDB.Core.CommitSequence
import OpenDB.Core.MutualExclusion
import OpenDB.Core.HttpLocks
import OpenDB.Core.ExecutorAgreement
import OpenDB.Core.Serializability
import OpenDB.Storage.InMemoryRefinement
import OpenDB.Storage.AbortNoninterference
import OpenDB.Storage.CachingStorageEngine
import OpenDB.Storage.ShardedStorageEngine
import OpenDB.Frontend.HttpServer
import OpenDB.Frontend.SqlOutcome
import OpenDB.Storage.PageFit
import OpenDB.Frontend.JsonExact
import OpenDB.Storage.MetadataReader
import OpenDB.Storage.FreePool
import OpenDB.Storage.FreeRunSnapshot
import OpenDB.Storage.PageRuns
import OpenDB.Library.MaximalRuns
import OpenDB.Storage.V1Migration
import OpenDB.Storage.RootPages
import OpenDB.Storage.RootSync
import OpenDB.Library.Postconditions
import OpenDB.Storage.Intact
import OpenDB.Storage.Promotion
import OpenDB.Storage.ShardedStorageProvider
import OpenDB.Storage.TableReuse
import OpenDB.Core.DeadlockPrecheck
import OpenDB.Core.FalseDeadlocks
import OpenDB.Core.SelectOrder
import OpenDB.Core.SelectWindow
import OpenDB.Core.SessionLocks
import OpenDB.Storage.ProviderReuse
import OpenDB.Storage.SchemaPersistence
import OpenDB.Storage.AssignedKeys
import OpenDB.Core.JoinCondition
import OpenDB.Core.OrderByComparator
import OpenDB.Frontend.StringLiterals
import OpenDB.Library.Fnv1a
import OpenDB.Storage.ShardRouting
import OpenDB.Frontend.SqlBatches
import OpenDB.Core.DeleteExactness
import OpenDB.Core.UpdateFrame
import OpenDB.Storage.ShardedDdl
import OpenDB.Frontend.JsonEncoder
import OpenDB.Frontend.IsoDates
import OpenDB.Frontend.JsonWellFormed
import OpenDB.Frontend.HttpErrors
import OpenDB.Frontend.NumericLiterals
import OpenDB.Core.ReplRun
import OpenDB.Core.EngineDispatcher
import OpenDB.Frontend.WherePrecedence
import OpenDB.Storage.BurstErrors
import OpenDB.Storage.IntegerKeys
import OpenDB.Storage.NodeBounds
import OpenDB.Storage.ScanTermination
import OpenDB.Storage.CrashReads
import OpenDB.Storage.Uncommitted
import OpenDB.Storage.ShardedRefinement
import OpenDB.Storage.FreeBlocks
import OpenDB.Storage.PageStore
import OpenDB.Frontend.SqlSessions
import OpenDB.Core.DispatcherSessions
import OpenDB.Storage.ChronicleReads
import OpenDB.Storage.CrashImages
import OpenDB.Storage.CrashDurability
