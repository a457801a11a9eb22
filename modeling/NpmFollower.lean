import NpmFollower.RelationalDbBuilder.CacheTransparency
import NpmFollower.Library.Rows
import NpmFollower.Library.Hoare
import NpmFollower.Library.WriteBackCache
import NpmFollower.DiffLogBuilder.BatchSplit
import NpmFollower.DiffLogBuilder.ManagerAgreement
import NpmFollower.RelationalDbBuilder.AccessorInvariant
import NpmFollower.RelationalDbBuilder.DependencyCounters
import NpmFollower.RelationalDbBuilder.EntryEffects
import NpmFollower.RelationalDbBuilder.ProcessEntry
import NpmFollower.RelationalDbBuilder.LiveCounters
import NpmFollower.DiffLogBuilder.WellFormedLog
import NpmFollower.RelationalDbBuilder.LogReplay
import NpmFollower.BlobIdxServer.FileIds
import NpmFollower.BlobIdxServer.CleanerPairing
import NpmFollower.BlobIdxServer.WrittenKeys
import NpmFollower.BlobIdxServer.SliceRanges
import NpmFollower.BlobIdxServer.Restart
import NpmFollower.BlobIdxServer.Errors
import NpmFollower.BlobIdxServer.ReservedKey
import NpmFollower.BlobIdxClient.ReadAfterWrite
import NpmFollower.PostgresDb.DownloadQueue
import NpmFollower.TarballTransfer.SavedPlace
import NpmFollower.DatabaseExporting.Staging
import NpmFollower.Library.Checkpoint
import NpmFollower.Library.TokenPool
import NpmFollower.BlobIdxServer.Job.FullStrength
import NpmFollower.BlobIdxServer.Job.ChannelRoom
import NpmFollower.Library.Handover
import NpmFollower.Downloader.Relocation
import NpmFollower.Downloader.Filenames
import NpmFollower.Downloader.ClusterJob
import NpmFollower.RelationalDbBuilder.DiffLogPages
import NpmFollower.RelationalDbBuilder.RowCaches
import NpmFollower.RelationalDbBuilder.RowUpdates
import NpmFollower.RelationalDbBuilder.PackageWrites
import NpmFollower.RelationalDbBuilder.RowTransparency
import NpmFollower.DiffLogBuilder.Reprocessing
import NpmFollower.RelationalDbBuilder.TableInvariants
import NpmFollower.RelationalDbBuilder.DependencyKeys
import NpmFollower.RelationalDbBuilder.StoredDependencies
import NpmFollower.RelationalDbBuilder.UnchangedDependencies
import NpmFollower.DownloadMetrics.MakeMetric
import NpmFollower.DownloadMetrics.Incremental
import NpmFollower.Library.Regex
import NpmFollower.SemverSpecSerialization.ParseSemver
import NpmFollower.SemverSpecSerialization.Grammar
import NpmFollower.SemverSpecSerialization.Matches
import NpmFollower.SemverSpecSerialization.Spelling
import NpmFollower.SemverSpecSerialization.WholeNumbers
import NpmFollower.SemverSpecSerialization.RoundTrip
import NpmFollower.DiffLogBuilder.NormalPackument
import NpmFollower.DiffLogBuilder.VersionKeys
import NpmFollower.DiffLogBuilder.VersionBlobs
import NpmFollower.DiffLogBuilder.TagsAndTimes
import NpmFollower.PostgresDb.ChangeLog
import NpmFollower.HistoricSolverJob.SolveSolution
import NpmFollower.HistoricSolverJob.PackumentRequests
import NpmFollower.HistoricSolverJob.RestrictTime
import NpmFollower.HistoricSolverJob.HistoricNpmRegistry
import NpmFollower.GhsaScraper.ParseRange
import NpmFollower.GhsaScraper.RangeSemantics
import NpmFollower.DiffLogBuilder.DeserializeRepo
import NpmFollower.DiffLogBuilder.RepoSpellings
import NpmFollower.DiffLogBuilder.HostedPaths
import NpmFollower.DatabaseExporting.ConcatenatedReads
import NpmFollower.Downloader.DispatchOnce
import NpmFollower.TarballTransfer.PageProgress
import NpmFollower.DownloadMetrics.UpdateLoop
import NpmFollower.HistoricSolverJob.JobCounter
import NpmFollower.DownloadMetrics.RequestedRanges
import NpmFollower.DownloadMetrics.BulkQuery
import NpmFollower.Library.Sql
import NpmFollower.PostgresDb.ParsedSpecSql
import NpmFollower.DiffLogBuilder.ChangePages
import NpmFollower.RelationalDbBuilder.BuilderProgress
import NpmFollower.DownloadMetrics.InsertPackages
import NpmFollower.DownloadMetrics.PackageCoverage
import NpmFollower.BlobIdxClient.ComputeArguments
import NpmFollower.DatabaseExporting.AvcHf
import NpmFollower.DatabaseExporting.UploadRuns
import NpmFollower.DownloadMetrics.BulkSplit
import NpmFollower.BlobIdxClient.FileCreation
import NpmFollower.BlobIdxServer.Reservations
import NpmFollower.BlobIdxClient.StoredKeys
import NpmFollower.Downloader.ClusterRuns
import NpmFollower.RelationalDbBuilder.DependencyTargets
import NpmFollower.RelationalDbBuilder.StateHistories
import NpmFollower.DatabaseExporting.ApplyCommit
import NpmFollower.DatabaseExporting.CloneRuns
import NpmFollower.Analysis.ExtensionCounts
import NpmFollower.Analysis.UpdateDependencies
import NpmFollower.HistoricSolverJob.SolveHistory
import NpmFollower.Analysis.Oldness
import NpmFollower.Analysis.OldnessRuns
import NpmFollower.ClusterComputeJobs.DiffAnalysis
import NpmFollower.ClusterComputeJobs.DiffAnswers
import NpmFollower.ClusterComputeJobs.DiffRuns
import NpmFollower.HistoricSolverJob.JobQueue
import NpmFollower.HistoricSolverJob.SolverCluster
import NpmFollower.Analysis.AnalysisDag
import NpmFollower.Analysis.MakeGoals
import NpmFollower.ChangesFetcher.Listener
import NpmFollower.Follower.EmittedRows
import NpmFollower.Follower.FollowedLog
import NpmFollower.Follower.FollowedTables
import NpmFollower.DownloadQueuer.QueuerRuns
