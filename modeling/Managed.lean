import Managed.Main
import Managed.Space.Relate
import Managed.Proofs.Heap.Lookup
import Managed.Proofs.Heap.Marking
import Managed.Proofs.Heap.Remembered
import Managed.Proofs.Heap.Sweeping
import Managed.Proofs.Heap.Collecting
import Managed.Proofs.Heap.Session
import Managed.Proofs.Heap.Generations
import Managed.Proofs.Heap.Identity
import Managed.Proofs.Heap.Census
import Managed.Proofs.Heap.Orderly
import Managed.Proofs.Heap.Books
import Managed.Proofs.Heap.Promotion
import Managed.Proofs.Heap.Reachability
import Managed.Proofs.Shape
import Managed.Proofs.Addressing
import Managed.Proofs.Runs
import Managed.Proofs.SlotArray.Work
import Managed.Proofs.SlotArray.Slots
import Managed.Proofs.SlotArray.Changes
import Managed.Proofs.Checked
import Managed.Proofs.Sorting.Rearranging
import Managed.Proofs.Sorting.Related
import Managed.Proofs.SlotArray.Sorted
import Managed.Proofs.SlotArray.Subscripts
import Managed.Proofs.SlotArray.Representation
import Managed.Proofs.SlotArray.Sequence
import Managed.Proofs.SlotArray.Growing
import Managed.Proofs.SlotArray.Table
import Managed.Proofs.SlotArray.Access
import Managed.Proofs.SlotArray.Revision
import Managed.Proofs.SlotArray.Bulk
import Managed.Proofs.SlotArray.Appending
import Managed.Proofs.Supplier
import Managed.Proofs.Relation.Buckets
import Managed.Proofs.Relation.Order
import Managed.Proofs.Space.Operation
import Managed.Proofs.Space.Moves
import Managed.Proofs.Space.Barriers
import Managed.Proofs.Space.ArraySort
import Managed.Proofs.Space.Discipline
import Managed.Proofs.SlotArray.Renamed
import Managed.Proofs.SlotArray.Detaching
import Managed.Proofs.Space.Renamed
import Managed.Proofs.Space.Linked
import Managed.Proofs.Space.Alike
import Managed.Proofs.Space.Parallel
import Managed.Proofs.Space.ParallelChanges
import Managed.Proofs.Space.Answers
import Managed.Proofs.Space.Table
import Managed.Proofs.Space.Program
import Managed.Proofs.Space.Transparency
import Managed.Proofs.Space.Effect
import Managed.Proofs.Space.Coherence
import Managed.Proofs.Space.Appending
import Managed.Proofs.Space.Keys
import Managed.Proofs.Space.Failure
import Managed.Proofs.Space.Snapshot
import Managed.Proofs.Sorting.Examined
import Managed.Proofs.SlotArray.Packed
import Managed.Proofs.SlotArray.Covering
import Managed.Proofs.SlotArray.ElementLimit
import Managed.Proofs.SlotArray.Indexing
import Managed.Proofs.SlotArray.Entries
import Managed.Proofs.SlotArray.Checked
import Managed.Proofs.SlotArray.Navigation
import Managed.Proofs.Space.Dense
import Managed.Proofs.Space.NaturalSort
import Managed.Proofs.Text.Blank
import Managed.Proofs.Text.Numeral
import Managed.Proofs.WholeNumber.Exact
import Managed.Proofs.WholeNumber.Printed
import Managed.Proofs.WholeNumber.Machine
import Managed.Proofs.Space.IndexObjects
import Managed.Proofs.Sorting.Ordered
import Managed.Proofs.Sorting.Arrangement
import Managed.Proofs.Sorting.Calls
import Managed.Proofs.Sorting.Plain
import Managed.Proofs.Sorting.Inside
import Managed.Proofs.Sorting.Nesting
import Managed.Proofs.LineSort.Loading
import Managed.Proofs.LineSort.Correctness
import Managed.Proofs.LineSort.Printing
