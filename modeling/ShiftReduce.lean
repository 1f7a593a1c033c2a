import ShiftReduce.Derivation
import ShiftReduce.IndexedSet
import ShiftReduce.Parse
import ShiftReduce.Table.Transcript
import ShiftReduce.Thrown
import ShiftReduce.Proofs.Outcomes
import ShiftReduce.Proofs.WellWritten
import ShiftReduce.Proofs.Readers
import ShiftReduce.Proofs.Renderings
import ShiftReduce.Proofs.Refusals
import ShiftReduce.Proofs.Loading
import ShiftReduce.Proofs.Derivations
import ShiftReduce.Proofs.Passes
import ShiftReduce.Proofs.FirstSets
import ShiftReduce.Proofs.FollowSets
import ShiftReduce.Proofs.Closures
import ShiftReduce.Proofs.Automaton
import ShiftReduce.Proofs.Filling
import ShiftReduce.Proofs.Cells
import ShiftReduce.Proofs.SimpleLR
import ShiftReduce.Proofs.Safety
import ShiftReduce.Proofs.Soundness
import ShiftReduce.Proofs.Completeness
import ShiftReduce.Proofs.CanonicalCollection
import ShiftReduce.Proofs.BreadthFirst
import ShiftReduce.Proofs.Rounds
import ShiftReduce.Proofs.Questions
import ShiftReduce.Proofs.RightForms
import ShiftReduce.Proofs.ViablePrefixes
import ShiftReduce.Proofs.Integrity
import ShiftReduce.Proofs.Contents
import ShiftReduce.Proofs.Totality
import ShiftReduce.Proofs.Ambiguity
import ShiftReduce.Proofs.CorrectPrefixes
import ShiftReduce.Proofs.Termination
import ShiftReduce.Proofs.Calls
import ShiftReduce.Proofs.Readings
import ShiftReduce.Proofs.Conflicts
import ShiftReduce.Proofs.FirstClash
import ShiftReduce.Proofs.Words
import ShiftReduce.Proofs.Registry
import ShiftReduce.Proofs.SameRules
import ShiftReduce.Proofs.Renumbering
import ShiftReduce.Proofs.Reordering
import ShiftReduce.Proofs.Snapshots
import ShiftReduce.Proofs.Sharing
import ShiftReduce.Proofs.ReachedItems
import ShiftReduce.Proofs.UnknownNonterminals
import ShiftReduce.Proofs.Kernels
import ShiftReduce.Proofs.Vocabulary
import ShiftReduce.Proofs.Indexing
import ShiftReduce.Proofs.EqualSets
import ShiftReduce.Proofs.WordRuns
