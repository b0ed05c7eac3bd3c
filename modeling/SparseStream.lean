import SparseStream.Assembly
import SparseStream.Balance
import SparseStream.Buffer
import SparseStream.Bytes
import SparseStream.Command
import SparseStream.Compressed
import SparseStream.Csr
import SparseStream.Decimal.Binary
import SparseStream.Decimal.Text
import SparseStream.Document
import SparseStream.Encoded
import SparseStream.Encoder
import SparseStream.Environment
import SparseStream.Error
import SparseStream.Event
import SparseStream.Halving
import SparseStream.Header
import SparseStream.HeapSort
import SparseStream.Json
import SparseStream.Kind
import SparseStream.Main
import SparseStream.Market
import SparseStream.Multiply
import SparseStream.Partition
import SparseStream.Parts
import SparseStream.Pattern
import SparseStream.PivotSort
import SparseStream.Proofs.Accepted
import SparseStream.Proofs.Agreement
import SparseStream.Proofs.AnyStream
import SparseStream.Proofs.BetweenRows
import SparseStream.Proofs.CellSums
import SparseStream.Proofs.Checked
import SparseStream.Proofs.Collected
import SparseStream.Proofs.ColumnModes
import SparseStream.Proofs.Contents
import SparseStream.Proofs.CsrParts
import SparseStream.Proofs.CsrRows
import SparseStream.Proofs.Differences
import SparseStream.Proofs.Encoding
import SparseStream.Proofs.Entries
import SparseStream.Proofs.ExactCells
import SparseStream.Proofs.Expansion
import SparseStream.Proofs.Fields
import SparseStream.Proofs.Flags
import SparseStream.Proofs.ForeignTable
import SparseStream.Proofs.Forms
import SparseStream.Proofs.Frame
import SparseStream.Proofs.Gathered
import SparseStream.Proofs.Grammar
import SparseStream.Proofs.Growth
import SparseStream.Proofs.HandOver
import SparseStream.Proofs.History
import SparseStream.Proofs.Layout
import SparseStream.Proofs.LowerTriangle
import SparseStream.Proofs.Mirrored
import SparseStream.Proofs.Numbers
import SparseStream.Proofs.Operations
import SparseStream.Proofs.Order
import SparseStream.Proofs.PlainRows
import SparseStream.Proofs.Printed
import SparseStream.Proofs.Product
import SparseStream.Proofs.Progress
import SparseStream.Proofs.Ranges
import SparseStream.Proofs.ReadBack
import SparseStream.Proofs.Reassembly
import SparseStream.Proofs.Room
import SparseStream.Proofs.RoundTrip
import SparseStream.Proofs.Search
import SparseStream.Proofs.Shares
import SparseStream.Proofs.Spelled
import SparseStream.Proofs.Spelling
import SparseStream.Proofs.Stacked
import SparseStream.Proofs.Statistics
import SparseStream.Proofs.StreamSize
import SparseStream.Proofs.StrictLower
import SparseStream.Proofs.Success
import SparseStream.Proofs.Supply
import SparseStream.Proofs.SymmetricBounds
import SparseStream.Proofs.SymmetricProduct
import SparseStream.Proofs.Truncation
import SparseStream.Proofs.Validation
import SparseStream.Proofs.Writing
import SparseStream.Reader
import SparseStream.Registry
import SparseStream.Shape
import SparseStream.StreamUnit
import SparseStream.Sums
import SparseStream.Text.Blank
import SparseStream.Text.Number
import SparseStream.Text.Quoted
import SparseStream.Text.ShownByCode
import SparseStream.Triplets
import SparseStream.Varint
import SparseStream.Width
