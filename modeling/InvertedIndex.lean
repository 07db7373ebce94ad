import InvertedIndex.Query
import InvertedIndex.Records
import InvertedIndex.Segment
import InvertedIndex.Proofs.Cursor.Interrupted
import InvertedIndex.Proofs.Cursor.PostingList
import InvertedIndex.Proofs.Cursor.Preorder
import InvertedIndex.Proofs.Cursor.Released
import InvertedIndex.Proofs.Cursor.Shared
import InvertedIndex.Proofs.Cursor.Visits
import InvertedIndex.Proofs.Dictionary.Reuse
import InvertedIndex.Proofs.Dictionary.Stepwise
import InvertedIndex.Proofs.Heap.Ancestors
import InvertedIndex.Proofs.Heap.Conservation
import InvertedIndex.Proofs.Heap.Subtree
import InvertedIndex.Proofs.Merge.CloseFailures
import InvertedIndex.Proofs.Merge.Interrupted
import InvertedIndex.Proofs.Merge.Parts
import InvertedIndex.Proofs.Merge.Permuted
import InvertedIndex.Proofs.Merge.Returned
import InvertedIndex.Proofs.Merge.Room
import InvertedIndex.Proofs.Merge.Schedule
import InvertedIndex.Proofs.Merge.Verified
