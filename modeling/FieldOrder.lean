import FieldOrder.Main
import FieldOrder.Session
import FieldOrder.Proofs.Shape
import FieldOrder.Proofs.Layout.Placement
import FieldOrder.Proofs.Layout.Measure
import FieldOrder.Proofs.Layout.Order
import FieldOrder.Proofs.Layout.Exactness
import FieldOrder.Proofs.Layout.Repetition
import FieldOrder.Proofs.Layout.Slots
import FieldOrder.Proofs.Layout.Offsets
import FieldOrder.Proofs.Finding
import FieldOrder.Proofs.Tracking
import FieldOrder.Proofs.Suggestion
import FieldOrder.Proofs.Text.Quoted
import FieldOrder.Proofs.Source.Scanning
import FieldOrder.Proofs.Source.LongestMatch
import FieldOrder.Proofs.Source.Spelling
import FieldOrder.Proofs.Source.Reading
import FieldOrder.Proofs.Source.RoundTrip
import FieldOrder.Proofs.Source.Denotation
import FieldOrder.Proofs.Source.Recursion
import FieldOrder.Proofs.Source.Walk
import FieldOrder.Proofs.Source.Yields
import FieldOrder.Proofs.Source.Passage
import FieldOrder.Proofs.Source.Rounds
import FieldOrder.Proofs.Source.Meets
import FieldOrder.Proofs.Source.Passed
import FieldOrder.Proofs.Source.TypeReaders
import FieldOrder.Proofs.Source.DeclReaders
import FieldOrder.Proofs.Source.Steps
import FieldOrder.Proofs.Source.Coverage
import FieldOrder.Proofs.Source.Spans
import FieldOrder.Proofs.Source.Nesting
import FieldOrder.Proofs.Source.Progress
import FieldOrder.Proofs.Source.Termination
import FieldOrder.Proofs.Source.Header
import FieldOrder.Proofs.Source.Positions
import FieldOrder.Proofs.Source.Parameters
import FieldOrder.Proofs.Source.TypeForm
import FieldOrder.Proofs.Source.Statement
import FieldOrder.Proofs.Source.LocalTypes
import FieldOrder.Proofs.Source.Isolation
import FieldOrder.Proofs.Source.LexemeKinds
import FieldOrder.Proofs.Source.MaximalMunch
import FieldOrder.Proofs.Source.Enclosures
import FieldOrder.Proofs.Source.Splitting
import FieldOrder.Proofs.Source.Relexing
import FieldOrder.Proofs.Source.Semicolons
import FieldOrder.Proofs.Source.Lines
import FieldOrder.Proofs.Source.ByteOffsets
import FieldOrder.Proofs.Source.FirstFault
import FieldOrder.Proofs.Source.Numeral
import FieldOrder.Proofs.Source.Sites
import FieldOrder.Proofs.Source.Depth
import FieldOrder.Proofs.CommandLine.Composition
