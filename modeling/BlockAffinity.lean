import BlockAffinity.Main
import BlockAffinity.Proofs.Analysis.Coherence
import BlockAffinity.Proofs.Analysis.Degenerate
import BlockAffinity.Proofs.Analysis.DoubleRange
import BlockAffinity.Proofs.Analysis.EqualProfiles
import BlockAffinity.Proofs.Analysis.Sweep
import BlockAffinity.Proofs.Assignment
import BlockAffinity.Proofs.CommandLine.Runs
import BlockAffinity.Proofs.Csv.Concatenation
import BlockAffinity.Proofs.Divergence
import BlockAffinity.Proofs.Entropy
import BlockAffinity.Proofs.Ingest.EntropyTable
import BlockAffinity.Proofs.Ingest.Frequencies
import BlockAffinity.Proofs.Ingest.Instructions
import BlockAffinity.Proofs.Ingest.Malformed
import BlockAffinity.Proofs.Ingest.Mass
import BlockAffinity.Proofs.Ingest.Normal
import BlockAffinity.Proofs.Ingest.UnitWeights
import BlockAffinity.Proofs.Linkage.Binary
import BlockAffinity.Proofs.Linkage.BlockOrder
import BlockAffinity.Proofs.Linkage.Classes
import BlockAffinity.Proofs.Linkage.Cut
import BlockAffinity.Proofs.Linkage.Doubles
import BlockAffinity.Proofs.Linkage.Exhaustive
import BlockAffinity.Proofs.Linkage.Identical
import BlockAffinity.Proofs.Linkage.Means
import BlockAffinity.Proofs.Linkage.Monotone
import BlockAffinity.Proofs.Linkage.Partition
import BlockAffinity.Proofs.Linkage.RoundedMeans
import BlockAffinity.Proofs.Linkage.Run
import BlockAffinity.Proofs.Linkage.Slots
import BlockAffinity.Proofs.Linkage.TableHistory
import BlockAffinity.Proofs.Linkage.WardForm
import BlockAffinity.Proofs.Number.Counting
import BlockAffinity.Proofs.Number.Double
import BlockAffinity.Proofs.Number.Order
import BlockAffinity.Proofs.Number.Rational
import BlockAffinity.Proofs.Overlap
import BlockAffinity.Proofs.Report.Summaries
import BlockAffinity.Proofs.Run.Footprint
import BlockAffinity.Proofs.Run.Keys
import BlockAffinity.Proofs.Run.Observations
import BlockAffinity.Proofs.Run.Rereading
import BlockAffinity.Proofs.ScoreMatrix.Acceptance
import BlockAffinity.Proofs.ScoreMatrix.Building
import BlockAffinity.Proofs.ScoreMatrix.Similarities
import BlockAffinity.Proofs.Silhouette.Reordering
import BlockAffinity.Storage.Disk
