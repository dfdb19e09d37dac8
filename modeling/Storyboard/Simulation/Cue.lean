import Storyboard.Story.Step
import Storyboard.Source.Bindings
import Storyboard.Source.Call
import Storyboard.Literal.Writer

/-!
# Cues and their replay

A simulation has two halves.  The *script* reads a program and lists the operations that it asks
for, each as a cue with its source line; the *replay* performs the cues one after the other on the
simulated structure and records a step, or several, for each.
-/

namespace Storyboard

/-- An operation together with the source line that asks for it. -/
structure Cue (α : Type) where
  line : Nat
  op : α

/-- Performs cues in order; returns the last state and all the steps. -/
def replay {σ α : Type} (perform : σ → Cue α → σ × List Step) : σ → List (Cue α) → σ × List Step
  | state, [] => (state, [])
  | state, cue :: rest =>
    let (next, steps) := perform state cue
    let (last, more) := replay perform next rest
    (last, steps ++ more)

/-- Cues that all come from one line. -/
def cuesOn {α : Type} (line : Source.Line) (ops : List α) : List (Cue α) :=
  ops.map fun op => ⟨line.number, op⟩

/-- A step caused by a source line, before its variables are added. -/
def stepAt (line : Nat) (action description : String) : Step :=
  { action, description, line := some line }

namespace Source

/-- The receiver of a call, or its first argument. -/
def Call.target (call : Call) : Option (List Char) :=
  call.receiver.orElse fun _ => call.args.head?

end Source

end Storyboard
