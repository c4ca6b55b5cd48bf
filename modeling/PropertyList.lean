import PropertyList.Text.Encoding
import PropertyList.Text.Display
import PropertyList.Text.Numeral
import PropertyList.Token.Scan
import PropertyList.Buffer.Writing
import PropertyList.Buffer.Reading
import PropertyList.Heap.View
import PropertyList.Document.Parse
import PropertyList.Record.Handlers
import PropertyList.File.Folder
import PropertyList.Main
import PropertyList.Record.Encode
import PropertyList.Proofs.Preservation
import PropertyList.Proofs.Text.Encoding
import PropertyList.Proofs.Text.Quoting
import PropertyList.Proofs.Token.Lexing
import PropertyList.Proofs.Dict.Order
import PropertyList.Proofs.Tree.Traversal
import PropertyList.Proofs.Tree.Order
import PropertyList.Proofs.Tree.Rendering
import PropertyList.Proofs.Heap.Objects
import PropertyList.Proofs.Heap.Order
import PropertyList.Proofs.Heap.Ownership
import PropertyList.Proofs.Heap.Release
import PropertyList.Proofs.Heap.Holding
import PropertyList.Proofs.Document.Grammar
import PropertyList.Proofs.Document.Draft
import PropertyList.Proofs.Document.Derivation
import PropertyList.Proofs.Document.Rendering
import PropertyList.Proofs.Document.Order
import PropertyList.Proofs.Document.Simulation
import PropertyList.Proofs.Document.Parse
import PropertyList.Proofs.Document.Stack
import PropertyList.Proofs.Document.Building
import PropertyList.Proofs.Buffer.Contents
import PropertyList.Proofs.Buffer.Writing
import PropertyList.Proofs.Document.RoundTrip
import PropertyList.Proofs.Heap.Accounts
import PropertyList.Proofs.Document.Clients
import PropertyList.Proofs.Buffer.BoundedBytes
import PropertyList.Proofs.Buffer.Filling
import PropertyList.Proofs.Buffer.Operations
import PropertyList.Proofs.Number.Digits
import PropertyList.Proofs.Number.Rounding
import PropertyList.Proofs.Number.Shortest
import PropertyList.Proofs.Number.Layout
import PropertyList.Proofs.Scalar.Reading
import PropertyList.Proofs.Scalar.Canonical
import PropertyList.Proofs.Scalar.Faults
import PropertyList.Proofs.Outcome
import PropertyList.Proofs.Record.Attributes
import PropertyList.Proofs.Record.Regular
import PropertyList.Proofs.Record.Walk
import PropertyList.Proofs.Record.Meaning
import PropertyList.Proofs.Record.Faults
import PropertyList.Proofs.Record.Fields
import PropertyList.Proofs.Record.Encoding
import PropertyList.Proofs.Record.Written
import PropertyList.Proofs.Record.RoundTrip
import PropertyList.Proofs.Record.Restriction
import PropertyList.Proofs.Record.Allocation
import PropertyList.Proofs.Record.Levels
import PropertyList.Proofs.Record.Filling
import PropertyList.Proofs.Record.Clearing
import PropertyList.Proofs.Record.ReleaseOnce
import PropertyList.Proofs.Record.Reuse
import PropertyList.Proofs.Record.Blame
import PropertyList.Proofs.Record.Sparing
import PropertyList.Proofs.Record.Course
import PropertyList.Proofs.Record.Abandoned
import PropertyList.Proofs.Record.StaleMarks
import PropertyList.Proofs.Document.Canonical
import PropertyList.Proofs.Token.Bytes
import PropertyList.Proofs.Token.Tiling
import PropertyList.Proofs.Command.Run
import PropertyList.Proofs.Document.Reading
import PropertyList.Proofs.Document.FirstError
import PropertyList.Proofs.Heap.Evolution
import PropertyList.Proofs.Heap.Cascade
import PropertyList.Proofs.Document.Misuse
import PropertyList.Proofs.Buffer.Reading
import PropertyList.Proofs.Token.Positions
import PropertyList.Proofs.Heap.Steadiness
import PropertyList.Proofs.Document.Entries
import PropertyList.Proofs.Number.Positional
import PropertyList.Proofs.Scalar.Integers
import PropertyList.Proofs.Tree.Segments
import PropertyList.Proofs.Tree.Indentation
import PropertyList.Proofs.Record.Enumeration
import PropertyList.Proofs.Record.Entries
import PropertyList.Proofs.Record.Reordering
import PropertyList.Proofs.Token.Unquoting
