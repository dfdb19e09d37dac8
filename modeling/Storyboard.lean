import Storyboard.Text.Case
import Storyboard.Text.Trim
import Storyboard.Text.Search
import Storyboard.Ordered
import Storyboard.Decimal.Notation
import Storyboard.Decimal.Reader
import Storyboard.Json.Writer
import Storyboard.Json.Reader
import Storyboard.Concept.Alias
import Storyboard.Literal.Order
import Storyboard.Literal.Reader
import Storyboard.Literal.Writer
import Storyboard.Story.Basic
import Storyboard.Source.Hints
import Storyboard.Stack
import Storyboard.Queue.Linear
import Storyboard.Queue.Circular
import Storyboard.Queue.Priority
import Storyboard.Queue.DoubleEnded
import Storyboard.Queue.Deque
import Storyboard.Queue.Multiple
import Storyboard.Tree.Search
import Storyboard.Tree.BTree
import Storyboard.LinkedList.Simulation
import Storyboard.Sorting.Simulation
import Storyboard.Graph.Simulation
import Storyboard.Syntax.Statement
import Storyboard.Simulation.Simulator
import Storyboard.Classify.Guess
import Storyboard.Admission
import Storyboard.Story.Polish
import Storyboard.Reply.Story
import Storyboard.Memory.Shelf
import Storyboard.Memory.Table
import Storyboard.Memory.Directory
import Storyboard.Memory.Lookup
import Storyboard.Classify.Answer
import Storyboard.Dispatch
import Storyboard.Remote.Chat
import Storyboard.Remote.KeyPool
import Storyboard.Memory.Backend
import Storyboard.CommandLine.Arguments
import Storyboard.CommandLine.Run
import Storyboard.Main
import Storyboard.Proofs.Sorting.Rearrangement
import Storyboard.Proofs.Sorting.Exchange
import Storyboard.Proofs.Sorting.Quick
import Storyboard.Proofs.Sorting.Heap
import Storyboard.Proofs.Sorting.Merge
import Storyboard.Proofs.Sorting.Run
import Storyboard.Proofs.Dispatch.Cascade
import Storyboard.Proofs.Dispatch.NonEmpty
import Storyboard.Proofs.Simulation.Leads
import Storyboard.Proofs.Dispatch.StackStory
import Storyboard.Proofs.Graph.Simulation
import Storyboard.Proofs.Queue.Circular
import Storyboard.Proofs.Dispatch.Remembered
import Storyboard.Proofs.Simulation.Writable
import Storyboard.Proofs.Concept.Canonical
import Storyboard.Proofs.Literal.Order
import Storyboard.Proofs.Tree.Ordered
import Storyboard.Proofs.Tree.Shape
import Storyboard.Proofs.Tree.Search
import Storyboard.Proofs.Memory.Line
import Storyboard.Proofs.Text.Lines
import Storyboard.Proofs.Memory.Log
import Storyboard.Proofs.Memory.Partition
import Storyboard.Proofs.Tree.Arena
import Storyboard.Proofs.Tree.Walk
import Storyboard.Proofs.Queue.Heap
import Storyboard.Proofs.Queue.Service
import Storyboard.Proofs.Literal.Nested
import Storyboard.Proofs.Simulation.Cause
import Storyboard.Proofs.Dispatch.Absorbed
import Storyboard.Proofs.Memory.Learned
import Storyboard.Proofs.Memory.ActionsFile
import Storyboard.Proofs.Decimal.FloatOrder
import Storyboard.Proofs.Memory.Lookup
import Storyboard.Proofs.Dispatch.Header
import Storyboard.Proofs.Dispatch.ReplyHeader
import Storyboard.Proofs.Simulation.Disciplines
import Storyboard.Proofs.Queue.Deque
import Storyboard.Proofs.Queue.Multiple
import Storyboard.Proofs.LinkedList
import Storyboard.Proofs.Graph.Preorder
import Storyboard.Proofs.Graph.Hops
import Storyboard.Proofs.Graph.Settled
import Storyboard.Proofs.Graph.Nearest
import Storyboard.Proofs.Graph.Undirected
import Storyboard.Proofs.Tree.Rightward
import Storyboard.Proofs.Queue.DoubleEnded
import Storyboard.Proofs.Tree.BTree
import Storyboard.Proofs.Sorting.Replay
import Storyboard.Proofs.Sorting.Inversions
import Storyboard.Proofs.Sorting.MergeTrace
import Storyboard.Proofs.Source.Scope
import Storyboard.Proofs.Source.Arguments
import Storyboard.Proofs.Source.Site
import Storyboard.Proofs.Source.StringArgument
import Storyboard.Proofs.Source.Constants
import Storyboard.Proofs.Source.Range
import Storyboard.Proofs.Simulation.Parameters
import Storyboard.Proofs.Simulation.Unrolling
import Storyboard.Proofs.LinkedList.Operands
import Storyboard.Proofs.Literal.Lexicographic
import Storyboard.Proofs.Memory.Similarity
import Storyboard.Proofs.Literal.Bytes
import Storyboard.Proofs.Story.Merge
import Storyboard.Proofs.Reply.CleanCut
import Storyboard.Proofs.Reply.Truncation
import Storyboard.Proofs.Remote.KeyPool
