import StructuredStore.Binary64.Literal
import StructuredStore.Binary64.Shortest
import StructuredStore.Config.Reader
import StructuredStore.Decimal.Text
import StructuredStore.Frame.Decode
import StructuredStore.Frame.Encode
import StructuredStore.Main
import StructuredStore.Operation
import StructuredStore.Program
import StructuredStore.Proofs.Bytes.Order
import StructuredStore.Proofs.Engine.Outcome
import StructuredStore.Proofs.Store.Footprint
import StructuredStore.Proofs.Deque.Removal
import StructuredStore.Proofs.Key.Ownership
import StructuredStore.Proofs.Deque.Sequence
import StructuredStore.Proofs.Store.Consistency
import StructuredStore.Proofs.Repair.Holes
import StructuredStore.Proofs.Repair.Restoration
import StructuredStore.Proofs.Store.Preservation
import StructuredStore.Proofs.Repair.Agreement
import StructuredStore.Proofs.Expiry.Buckets
import StructuredStore.Proofs.Layout.Consistent
import StructuredStore.Proofs.Expiry.Due
import StructuredStore.Proofs.Layout.Transition
import StructuredStore.Proofs.Layout.Partition
import StructuredStore.Proofs.Expiry.Exact
import StructuredStore.Proofs.Frame.Faithful
import StructuredStore.Proofs.Store.Recall
import StructuredStore.Proofs.Store.Isolation
import StructuredStore.Proofs.Repair.Atomicity
import StructuredStore.Proofs.Engine.Endurance
import StructuredStore.Proofs.Store.Endurance
import StructuredStore.Proofs.Expiry.Entries
import StructuredStore.Proofs.Expiry.Scheduling
import StructuredStore.Proofs.Expiry.Losses
import StructuredStore.Proofs.Expiry.Shelves
import StructuredStore.Proofs.Expiry.Sweeps
import StructuredStore.Proofs.Expiry.Honoured
import StructuredStore.Proofs.Expiry.Resizing
import StructuredStore.Proofs.Repair.Resumption
import StructuredStore.Proofs.Store.Collections
import StructuredStore.Proofs.Engine.Stopping
import StructuredStore.Proofs.Store.Named
import StructuredStore.Proofs.Store.Remains
import StructuredStore.Proofs.Expiry.Namespace
import StructuredStore.Proofs.Series.Chronology
import StructuredStore.Proofs.Membership.Filter
import StructuredStore.Proofs.Expiry.Persistence
import StructuredStore.Proofs.Expiry.Tasks
import StructuredStore.Proofs.Expiry.Interleaving
import StructuredStore.Proofs.Engine.Restarting
import StructuredStore.Proofs.Store.Removals
import StructuredStore.Proofs.Store.Retries
import StructuredStore.Proofs.Engine.Refusing
import StructuredStore.Proofs.Store.Refusals
import StructuredStore.Proofs.Expiry.Composition
import StructuredStore.Proofs.Frame.Canonical
import StructuredStore.Proofs.Decimal.Arithmetic
import StructuredStore.Proofs.Decimal.Overflow
import StructuredStore.Proofs.Expiry.Extent
import StructuredStore.Proofs.Expiry.Widths
import StructuredStore.Proofs.Text.Numerals
import StructuredStore.Proofs.Decimal.Literal
import StructuredStore.Proofs.Deque.Sums
import StructuredStore.Proofs.Binary64.Rounding
import StructuredStore.Proofs.Decimal.Comparison
import StructuredStore.Proofs.Bitmap.Bits
import StructuredStore.Proofs.Expiry.Scanning
import StructuredStore.Proofs.CommandLine.Reading
import StructuredStore.Proofs.Engine.Scans
import StructuredStore.Proofs.Store.ScanOrder
