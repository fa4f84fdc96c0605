import MarkupSeeds.Main
import MarkupSeeds.Proofs.Markup.Occurrence
import MarkupSeeds.Proofs.Text.Encoding
import MarkupSeeds.Proofs.Text.Order
import MarkupSeeds.Proofs.Markup.Balance
import MarkupSeeds.Proofs.Markup.Locality
import MarkupSeeds.Proofs.Markup.LetterCase
import MarkupSeeds.Proofs.Markup.Reading
import MarkupSeeds.Proofs.Extraction.Course
import MarkupSeeds.Proofs.Extraction.Element
import MarkupSeeds.Proofs.Extraction.Soundness
import MarkupSeeds.Proofs.Extraction.Depth
import MarkupSeeds.Proofs.Extraction.Completeness
import MarkupSeeds.Proofs.Extraction.Matches
import MarkupSeeds.Proofs.Extraction.Budget
import MarkupSeeds.Proofs.Extraction.FixedPoint
import MarkupSeeds.Proofs.Extraction.Flat
import MarkupSeeds.Proofs.Extraction.Containment
import MarkupSeeds.Proofs.Extraction.LetterCase
import MarkupSeeds.Proofs.Extraction.Surroundings
import MarkupSeeds.Proofs.Seed.StoredForm
import MarkupSeeds.Proofs.Disk.Path
import MarkupSeeds.Proofs.Disk.Walk
import MarkupSeeds.Proofs.Disk.Directories
import MarkupSeeds.Proofs.Disk.Entry
import MarkupSeeds.Proofs.Fixture.Name
import MarkupSeeds.Proofs.Seed.Name
import MarkupSeeds.Proofs.Writer.HandOver
import MarkupSeeds.Proofs.Writer.DryRun
import MarkupSeeds.Proofs.Disk.Listing
import MarkupSeeds.Proofs.Fixture.Calls
import MarkupSeeds.Proofs.Seed.Separation
import MarkupSeeds.Proofs.Corpus.Members
import MarkupSeeds.Proofs.Corpus.History
import MarkupSeeds.Proofs.Disk.Frame
import MarkupSeeds.Proofs.Disk.Staging
import MarkupSeeds.Proofs.Writer.Exactness
import MarkupSeeds.Proofs.Run.DryRun
import MarkupSeeds.Proofs.Writer.Storing
import MarkupSeeds.Proofs.Writer.Turns
import MarkupSeeds.Proofs.Run.Steps
import MarkupSeeds.Proofs.Run.Leavings
import MarkupSeeds.Proofs.Run.Again
import MarkupSeeds.Proofs.Run.Texts
import MarkupSeeds.Proofs.Random.Draws
import MarkupSeeds.Proofs.Pairing.Streams
import MarkupSeeds.Proofs.Pairing.Limits
import MarkupSeeds.Proofs.Pairing.Spacing
import MarkupSeeds.Proofs.Pairing.Crossing
import MarkupSeeds.Proofs.Writer.Fresh
import MarkupSeeds.Proofs.Run.Pooling
import MarkupSeeds.Proofs.Run.Rehearsal
import MarkupSeeds.Proofs.Run.Balance
import MarkupSeeds.Proofs.Run.Provenance
import MarkupSeeds.Proofs.Run.Batches
import MarkupSeeds.Proofs.Markup.Rounds
import MarkupSeeds.Proofs.Extraction.Limit
import MarkupSeeds.Proofs.Extraction.Rounds
import MarkupSeeds.Proofs.Text.Lenient
import MarkupSeeds.Proofs.Fixture.Reading
import MarkupSeeds.Proofs.CommandLine.Numeral
import MarkupSeeds.Proofs.CommandLine.Draft
import MarkupSeeds.Proofs.CommandLine.Items
import MarkupSeeds.Proofs.CommandLine.Layout
import MarkupSeeds.Proofs.Text.Comparison
import MarkupSeeds.Proofs.Pairing.Positions
