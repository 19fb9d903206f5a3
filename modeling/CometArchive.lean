import CometArchive.Archive.Integrity
import CometArchive.Archive.MigrateResume
import CometArchive.Archive.ObjectKeys
import CometArchive.Archive.Publication
import CometArchive.Archive.RecordLayout
import CometArchive.Archive.SegmentSeek
import CometArchive.Archive.Tiling
import CometArchive.Archive.HydratePool
import CometArchive.Archive.CacheLimit
import CometArchive.Cli.Maintenance
import CometArchive.Cli.Metrics
import CometArchive.Blocksync.Cancellation
import CometArchive.Blocksync.FetchedSets
import CometArchive.Blocksync.CheckpointArchive
import CometArchive.Blocksync.GhostPeers
import CometArchive.Blocksync.HonestPeers
import CometArchive.Blocksync.Lookups
import CometArchive.Blocksync.Outstanding
import CometArchive.Blocksync.Window
import CometArchive.Archive.LocalDirectory
import CometArchive.Blocksync.Staleness
