import Storyboard.Animation.Recorded
import Storyboard.Animation.Tree
import Storyboard.Animation.Wait
import Storyboard.Description
import Storyboard.Document
import Storyboard.Gallery
import Storyboard.Json.Printer
import Storyboard.Proofs.Compile.Recurrence
import Storyboard.Proofs.Numeric.Counts
import Storyboard.Proofs.Playback.Alignment
import Storyboard.Proofs.Playback.Display
import Storyboard.Proofs.Playback.Schedule
import Storyboard.Proofs.Compile.Faults
import Storyboard.Proofs.Compile.Independence
import Storyboard.Proofs.Compile.Nesting
import Storyboard.Proofs.Compile.Concatenation
import Storyboard.Proofs.Playback.Rewind
import Storyboard.Proofs.Playback.Coherence
import Storyboard.Proofs.Playback.Course
import Storyboard.Proofs.Playback.Trees
import Storyboard.Proofs.Playback.Pauses
import Storyboard.Proofs.Playback.Causality
import Storyboard.Proofs.Playback.Clocks
import Storyboard.Proofs.Playback.Confinement
import Storyboard.Proofs.Playback.Duplicates
import Storyboard.Proofs.Json.Canonical
import Storyboard.Proofs.Document.Tables
import Storyboard.Proofs.Document.Grammar
import Storyboard.Proofs.Document.Texts
import Storyboard.Proofs.Document.Pruning
import Storyboard.Proofs.Numeric.Bounds
import Storyboard.Proofs.Numeric.Curves
import Storyboard.Proofs.Playback.Finiteness
import Storyboard.Proofs.Numeric.Order
import Storyboard.Proofs.Numeric.Progress
import Storyboard.Proofs.Playback.Events
import Storyboard.Proofs.Playback.Turns
import Storyboard.Proofs.Playback.Leftovers
import Storyboard.Proofs.Playback.Timeless
import Storyboard.Proofs.Playback.Completion
import Storyboard.Proofs.Playback.Together
import Storyboard.Proofs.Playback.Vigilance
import Storyboard.Proofs.Numeric.Widening
import Storyboard.Proofs.Document.Drafts
import Storyboard.Proofs.Playback.Permutation
import Storyboard.Proofs.Numeric.Lines
import Storyboard.Proofs.Playback.Onward
import Storyboard.Proofs.Playback.Regrouping
import Storyboard.Proofs.Playback.Foresight
import Storyboard.Proofs.Numeric.Bisection
import Storyboard.Proofs.Playback.Segments
import Storyboard.Proofs.Document.Reports
