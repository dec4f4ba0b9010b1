import Dendro.Archive.Heartbeat
import Dendro.Archive.InsertSegment
import Dendro.Episodes
import Dendro.IndexLayouts
import Dendro.Replicate.Canonical
import Dendro.Replicate.Failing
import Dendro.Replicate.ReaderProof
import Dendro.Replicate.SealedPast
import Dendro.Replicate.TailEntries
import Dendro.Replicate.TailOffsets
import Dendro.Replicate.TailSince
import Dendro.Rewrite.Idempotent
import Dendro.Rewrite.RangedCopy
import Dendro.Seal.Account
import Dendro.Seal.Checksum
import Dendro.SegmentSpan
import Dendro.SegmentTiling
import Dendro.Writer.Alarms
import Dendro.Writer.Complete
import Dendro.Writer.Drops
import Dendro.Writer.Eviction
import Dendro.Writer.Floor
import Dendro.Writer.IndexChain
import Dendro.Writer.Isolation
import Dendro.Writer.Refusals
import Dendro.Writer.Retention
import Dendro.Writer.Seals
import Dendro.Writer.Watermarks
