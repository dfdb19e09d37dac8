import Storyboard.Graph.Simulation
import Storyboard.LinkedList.Simulation
import Storyboard.Queue.Circular
import Storyboard.Queue.Deque
import Storyboard.Queue.DoubleEnded
import Storyboard.Queue.Linear
import Storyboard.Queue.Multiple
import Storyboard.Queue.Priority
import Storyboard.Simulation.Universal
import Storyboard.Sorting.Simulation
import Storyboard.Stack
import Storyboard.Tree.BTree
import Storyboard.Tree.Search

/-!
# Simulators

One simulator for each family of structures and one for any program.  A run is complete when its
story has enough steps of substance for the simulator.
-/

namespace Storyboard

/-- A simulator. -/
inductive Simulator where
  | stack
  | queue (kind : QueueKind)
  | linkedList (kind : ListKind)
  | searchTree (kind : TreeKind)
  | bTree
  | graph (kind : GraphKind)
  | sorting (kind : SortKind)
  | universal

/-- How a run ended. -/
inductive Outcome where
  | complete (story : Story)
  /-- The story has fewer than `minimum` steps of substance. -/
  | insufficient (story : Story) (minimum : Nat)
  /-- The program has nothing that can be simulated. -/
  | unreadable (reason : String)

/-- The story that was told, complete or not. -/
def Outcome.story? : Outcome → Option Story
  | complete story | insufficient story _ => some story
  | unreadable _ => none

namespace Simulator

/-- The simulator of a concept, for those that have a structure. -/
def ofConcept? : Concept → Option Simulator
  | .stack => some stack
  | .queue kind => some (queue kind)
  | .linkedList kind => some (linkedList kind)
  | .tree .bTree => some bTree
  | .tree kind => some (searchTree kind)
  | .graph kind => some (graph kind)
  | .sorting kind => some (sorting kind)
  | .searching _ | .unknown | .other _ => none

/-- The short name of a simulator. -/
def name : Simulator → String
  | stack => "stack"
  | queue _ => "queue"
  | linkedList _ => "linked_list"
  | searchTree _ => "tree"
  | bTree => "btree"
  | graph _ => "graph"
  | sorting _ => "sort"
  | universal => "universal"

/-- The number of steps of substance that a complete story has at least. -/
def minimum : Simulator → Nat
  | stack | bTree => 3
  | universal => 1
  | _ => 2

/-- The story of a queue of the given kind. -/
def queueStory (kind : QueueKind) (code : String) : Story :=
  match kind with
  | .linear => Queue.Linear.simulate code
  | .circular => Queue.Circular.simulate code
  | .priority => Queue.Priority.simulate code
  | .doublePriority => Queue.DoubleEnded.simulate code
  | .multiple => Queue.Multiple.simulate code
  | .deque | .circularDeque | .inputRestrictedDeque | .outputRestrictedDeque =>
    Queue.Deque.simulate kind code

/-- The story that a simulator tells of a program, or why it tells none. -/
def simulate (simulator : Simulator) (concept : Concept) (code : String) : Except String Story :=
  match simulator with
  | stack => .ok (Stack.simulate code)
  | queue kind => .ok (queueStory kind code)
  | linkedList kind => .ok (LinkedList.simulate kind code)
  | searchTree kind => .ok (Tree.SearchTree.simulate kind code)
  | bTree => .ok (Tree.BTree.simulate code)
  | graph kind =>
    match Graph.simulate kind code with
    | .ok story => .ok story
    | .error failure => .error s!"graph: {failure.message}"
  | sorting kind => .ok (Sorting.simulate kind code)
  | universal => .ok (Universal.simulate concept code)

/-- Runs a simulator. -/
def run (simulator : Simulator) (concept : Concept) (code : String) : Outcome :=
  match simulator.simulate concept code with
  | .error reason => .unreadable reason
  | .ok story =>
    if simulator.minimum ≤ story.substance then .complete story
    else .insufficient story simulator.minimum

end Simulator

end Storyboard
