import Storyboard.Story.Step
import Storyboard.Concept.Normalize

/-!
# Headers

A header describes a whole story: its concept and family, how it is laid out and coloured, and the
animator that plays it.  `Header.conventional` has the layout and theme that a concept usually
takes, `Header.plain` the least.
-/

namespace Storyboard

/-- How the picture of a story is laid out. -/
inductive Layout where
  | linear
  | circular
  | hierarchical
  | graph
  deriving DecidableEq

namespace Layout

/-- The name of a layout. -/
def name : Layout → String
  | linear => "linear"
  | circular => "circular"
  | hierarchical => "hierarchical"
  | graph => "graph"

/-- The layout of a name. -/
def ofName? (name : String) : Option Layout :=
  [linear, circular, hierarchical, graph].find? fun layout => layout.name == name

end Layout

/-- The description of a whole story. -/
structure Header where
  kind : Concept
  family : Family
  layout : Layout
  theme : String
  animator : Option Animator := none
  /-- Further members in order of insertion. -/
  extra : List (String × Json) := []

namespace Header

/-- The theme of a header that names none. -/
def defaultTheme : String := "softblue"

/-- The layout that a concept usually takes. -/
def usualLayout : Concept → Layout
  | .queue .circular | .queue .circularDeque => .circular
  | .linkedList .circularSingly | .linkedList .circularDoubly => .circular
  | .tree _ => .hierarchical
  | .graph _ => .graph
  | _ => .linear

/-- The theme that a concept usually takes. -/
def usualTheme : Concept → String
  | .graph .bfs => "softpurple"
  | .graph .dfs => "softpink"
  | .graph _ => "softpurple"
  | .tree .bTree => "softgreen"
  | .linkedList .doubly | .linkedList .circularDoubly => "softteal"
  | _ => defaultTheme

/-- The header with the usual layout and theme. -/
def conventional (kind : Concept) : Header :=
  { kind, family := kind.family, layout := usualLayout kind, theme := usualTheme kind }

/-- The header when nothing better is known. -/
def plain (kind : Concept) : Header :=
  { kind, family := kind.family, layout := .linear, theme := defaultTheme }

/-- Adds a further member. -/
def withExtra (header : Header) (name : String) (value : Json) : Header :=
  { header with extra := Ordered.put name value header.extra }

/-- The same header under another concept. -/
def retag (header : Header) (kind : Concept) : Header :=
  { header with kind, family := kind.family }

/-- The keys of the fields. -/
def keys : List String := ["kind", "family", "layout", "theme", "parent_animator"]

/-- The members of the flat object that a header is written as. -/
def members (header : Header) : List (String × Json) :=
  [("kind", .str header.kind.label), ("family", .str header.family.name),
    ("layout", .str header.layout.name), ("theme", .str header.theme)]
    ++ optionalMember "parent_animator" (fun animator => .str animator.name) header.animator
    ++ header.extra

/-- The data value of a header. -/
def toJson (header : Header) : Json := .obj header.members

/-- A choice is its name, or an object with the name as its only key and nothing under it. -/
def choice? {α : Type} (ofName? : String → Option α) : Json → Option α
  | .str name => ofName? name
  | .obj [(name, .null)] => ofName? name
  | _ => none

/-- Reads a header; the kind is any label. -/
def ofMembers? (members : List (String × Json)) : Option Header :=
  if eachOnce keys members then do
    let kind ← (members.lookup "kind").bind Json.str?
    let family ← readDefault Family.unknown (choice? Family.ofName?) (members.lookup "family")
    let layout ← readDefault Layout.linear (choice? Layout.ofName?) (members.lookup "layout")
    let theme ← readDefault defaultTheme Json.str? (members.lookup "theme")
    let animator ← readOptional (choice? Animator.ofName?) (members.lookup "parent_animator")
    let extra := otherMembers keys members
    return { kind := Concept.parse kind, family, layout, theme, animator, extra }
  else none

/-- Reads a header from a data value. -/
def ofJson? : Json → Option Header
  | .obj members => ofMembers? members
  | _ => none

/-- Adds the members of another header that this one lacks. -/
def complete (header other : Header) : Header :=
  other.extra.foldl (fun header entry =>
    match Ordered.find? entry.1 header.extra with
    | some _ => header
    | none => header.withExtra entry.1 entry.2) header

end Header

end Storyboard
