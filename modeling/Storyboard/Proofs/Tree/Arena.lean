import Mathlib
import Storyboard.Proofs.Tree.Ordered
import Storyboard.Tree.Search

/-!
# Every link of a search tree leads to a node

A search tree is an inductive type, so that its nodes cannot be linked in a circle and every way
down ends.  Here it is written once more as an arena: the nodes stand in the order of their creation,
name their children by their places, and stay where they are when they have been removed.  Looking up
a place where there is no node has no result.  A loop may take a step for every node; one that takes
more goes in a circle, and has no result either.  Every operation on the arena of a tree succeeds, and
gives an arena of the tree after the operation.
-/

namespace Storyboard.Tree

/-- A node with the places of its children. -/
structure Cell where
  value : Literal
  left : Option Nat
  right : Option Nat

/-- The nodes in the order of their creation, and the place of the root. -/
structure Arena where
  cells : List Cell := []
  root : Option Nat := none

namespace Cell

/-- The child on a side. -/
def child (cell : Cell) : Side → Option Nat
  | .left => cell.left
  | .right => cell.right

/-- The node with another child on a side. -/
def link (side : Side) (child : Option Nat) (cell : Cell) : Cell :=
  match side with
  | .left => { cell with left := child }
  | .right => { cell with right := child }

/-- The side on which a value belongs. -/
def sideOf (value : Literal) (cell : Cell) : Side :=
  if value.before cell.value then .left else .right

/-- The node with another child in place of one that it has. -/
def relink (old : Nat) (child : Option Nat) (cell : Cell) : Cell :=
  cell.link (if cell.left = some old then .left else .right) child

/-- The node has at most the one child. -/
def HasOnly (cell : Cell) (only : Option Nat) : Prop :=
  cell.left = only ∧ cell.right = none ∨ cell.left = none ∧ cell.right = only

@[simp] theorem child_link (side : Side) (child : Option Nat) (cell : Cell) :
    (cell.link side child).child side = child := by
  cases side <;> rfl

@[simp] theorem value_link (side : Side) (child : Option Nat) (cell : Cell) :
    (cell.link side child).value = cell.value := by
  cases side <;> rfl

end Cell

namespace Arena

/-- Changes a node that there is. -/
def change? (cells : List Cell) (i : Nat) (f : Cell → Cell) : Option (List Cell) :=
  if i < cells.length then some (cells.modify i f) else none

/-- The free place of a value below a node. -/
def descend? (cells : List Cell) (value : Literal) (i : Nat) : Option (Nat × Side) :=
  go cells.length i
where
  go : Nat → Nat → Option (Nat × Side)
  | 0, _ => none
  | steps + 1, i => do
    let cell ← cells[i]?
    match cell.child (cell.sideOf value) with
    | some next => go steps next
    | none => return (i, cell.sideOf value)

def insert? (arena : Arena) (value : Literal) : Option Arena :=
  let cells := arena.cells ++ [⟨value, none, none⟩]
  match arena.root with
  | none => some ⟨cells, some arena.cells.length⟩
  | some root => do
    let (i, side) ← descend? arena.cells value root
    let cells ← change? cells i (Cell.link side (some arena.cells.length))
    return { arena with cells }

/-- The node of a value and the node above it, if the value is found. -/
def locate? (cells : List Cell) (value : Literal) (above link : Option Nat) :
    Option (Option (Option Nat × Nat)) :=
  go cells.length above link
where
  go : Nat → Option Nat → Option Nat → Option (Option (Option Nat × Nat))
  | _, _, none => some none
  | 0, _, some _ => none
  | steps + 1, above, some i => do
    let cell ← cells[i]?
    if value.same cell.value then return some (above, i)
    else go steps (some i) (cell.child (cell.sideOf value))

/-- The leftmost node and the node above it. -/
def leftmost? (cells : List Cell) (above i : Nat) : Option (Nat × Nat) :=
  go cells.length above i
where
  go : Nat → Nat → Nat → Option (Nat × Nat)
  | 0, _, _ => none
  | steps + 1, above, i => do
    let cell ← cells[i]?
    match cell.left with
    | some next => go steps i next
    | none => return (above, i)

/-- Links a child in place of another one, or makes it the root. -/
def replaceChild? (arena : Arena) (above : Option Nat) (old : Nat) (child : Option Nat) :
    Option Arena :=
  match above with
  | none => some { arena with root := child }
  | some i => do
    let cells ← change? arena.cells i (Cell.relink old child)
    return { arena with cells }

/-- Gives a node the value of the leftmost node below its right child, and unlinks that one. -/
def takeSuccessor? (cells : List Cell) (i right : Nat) : Option (List Cell) := do
  let (above, successor) ← leftmost? cells i right
  let next ← cells[successor]?
  let cells ← change? cells above (Cell.link (if above = i then .right else .left) next.right)
  change? cells i fun cell => { cell with value := next.value }

def delete? (arena : Arena) (value : Literal) : Option Arena := do
  match ← locate? arena.cells value none arena.root with
  | none => return arena
  | some (above, i) =>
    let cell ← arena.cells[i]?
    match cell.left, cell.right with
    | some _, some right =>
      let cells ← takeSuccessor? arena.cells i right
      return { arena with cells }
    | only, none | none, only => arena.replaceChild? above i only

/-- The places that are visited from a place on, level by level where there are more of them. -/
def levels? (cells : List Cell) (waiting : List Nat) : Option (List Nat) :=
  go cells.length waiting
where
  go : Nat → List Nat → Option (List Nat)
  | _, [] => some []
  | 0, _ :: _ => none
  | steps + 1, i :: waiting => do
    let cell ← cells[i]?
    let later ← go steps (waiting ++ cell.left.toList ++ cell.right.toList)
    return i :: later

deriving instance DecidableEq for Order

/-- The places below a place, itself before, between or after those of its children. -/
def below? (cells : List Cell) (order : Order) (link : Option Nat) : Option (List Nat) :=
  go cells.length link
where
  go : Nat → Option Nat → Option (List Nat)
  | _, none => some []
  | 0, some _ => none
  | depth + 1, some i => do
    let cell ← cells[i]?
    let here (turn : Order) : List Nat := if order = turn then [i] else []
    let left ← go depth cell.left
    let right ← go depth cell.right
    return here .preorder ++ left ++ here .inorder ++ right ++ here .postorder

/-- The places in an order. -/
def walk? (arena : Arena) : Order → Option (List Nat)
  | .levels => levels? arena.cells arena.root.toList
  | order => below? arena.cells order arena.root

open SearchTree in
/-- What an operation leaves of an arena. -/
def perform? (arena : Arena) : Op → Option Arena
  | .insert value => arena.insert? value
  | .delete value => arena.delete? value
  | .search value => (locate? arena.cells value none arena.root).map fun _ => arena
  | .traverse order => (arena.walk? order).map fun _ => arena

end Arena

/-! ## Sides of a node -/

namespace Side

/-- The other side. -/
def other : Side → Side
  | left => right
  | right => left

/-- A node with one subtree on a side and one on the other. -/
def branch (side : Side) (node : Node) (near far : Binary) : Binary :=
  match side with
  | left => .branch node near far
  | right => .branch node far near

variable {side : Side} {node : Node} {near far : Binary}

theorem mem_numbers_branch {number : Nat} : number ∈ (side.branch node near far).numbers ↔
    number = node.number ∨ number ∈ near.numbers ∨ number ∈ far.numbers := by
  cases side with
  | left =>
    rw [branch, Binary.numbers_branch, List.mem_append, List.mem_cons]
    exact or_left_comm
  | right =>
    rw [branch, Binary.numbers_branch, List.mem_append, List.mem_cons, or_left_comm]
    exact or_congr_right or_comm

theorem length_numbers_branch : (side.branch node near far).numbers.length =
    near.numbers.length + far.numbers.length + 1 := by
  cases side with
  | left => rw [branch, Binary.numbers_branch, List.length_append, List.length_cons, Nat.add_assoc]
  | right =>
    rw [branch, Binary.numbers_branch, List.length_append, List.length_cons, ← Nat.add_assoc,
      Nat.add_comm far.numbers.length]

theorem nodup_numbers_branch : (side.branch node near far).numbers.Nodup ↔
    near.numbers.Nodup ∧ far.numbers.Nodup ∧ node.number ∉ near.numbers ∧
      node.number ∉ far.numbers ∧ near.numbers.Disjoint far.numbers := by
  cases side with
  | left =>
    rw [branch, Binary.numbers_branch, List.nodup_append', List.nodup_cons,
      List.disjoint_cons_right]
    tauto
  | right =>
    rw [branch, Binary.numbers_branch, List.nodup_append', List.nodup_cons,
      List.disjoint_cons_right, List.disjoint_comm]
    tauto

end Side

namespace Cell

variable {side : Side} {cell : Cell}

@[simp] theorem child_link_other (side : Side) (child : Option Nat) (cell : Cell) :
    (cell.link side child).child side.other = cell.child side.other := by
  cases side <;> rfl

theorem relink_eq {old : Nat} {child : Option Nat} (h : cell.child side = some old)
    (hother : cell.child side.other ≠ some old) :
    cell.relink old child = cell.link side child := by
  cases side with
  | left => exact congrArg (fun side => cell.link side child) (if_pos h)
  | right => exact congrArg (fun side => cell.link side child) (if_neg hother)

end Cell

namespace Arena

/-! ## Ways down a tree -/

/-- From a place on the nodes hang as in a tree. -/
inductive Holds (cells : List Cell) : Option Nat → Binary → Prop where
  | leaf : Holds cells none .leaf
  | branch {i : Nat} {cell : Cell} {node : Node} {l r : Binary} (hcell : cells[i]? = some cell)
      (hnumber : node.number = i + 1) (hvalue : cell.value = node.value)
      (hleft : Holds cells cell.left l) (hright : Holds cells cell.right r) :
      Holds cells (some i) (.branch node l r)

variable {cells cells' : List Cell} {cell : Cell} {i j : Nat} {link : Option Nat} {side : Side}
  {node new : Node} {t near near' far : Binary} {value : Literal}

/-- A node with a subtree on either side. -/
theorem Holds.ofSide (side : Side) (hcell : cells[i]? = some cell)
    (hnumber : node.number = i + 1) (hvalue : cell.value = node.value)
    (hnear : Holds cells (cell.child side) near) (hfar : Holds cells (cell.child side.other) far) :
    Holds cells (some i) (side.branch node near far) := by
  cases side with
  | left => exact .branch hcell hnumber hvalue hnear hfar
  | right => exact .branch hcell hnumber hvalue hfar hnear

/-- Induction along the way that turns to a side at every node. -/
@[elab_as_elim]
theorem Holds.along (turn : Cell → Side) {motive : Option Nat → Binary → Prop}
    (h : Holds cells link t) (leaf : motive none .leaf)
    (branch : ∀ {i : Nat} {cell : Cell} {node : Node} {near far : Binary}, cells[i]? = some cell →
      node.number = i + 1 → cell.value = node.value → Holds cells (cell.child (turn cell)) near →
      Holds cells (cell.child (turn cell).other) far → motive (cell.child (turn cell)) near →
      motive (some i) ((turn cell).branch node near far)) : motive link t := by
  induction h with
  | leaf => exact leaf
  | @branch i cell node l r hcell hnumber hvalue hleft hright ihl ihr =>
    have hstep := @branch i cell node
    generalize turn cell = side at hstep
    cases side with
    | left => exact hstep hcell hnumber hvalue hleft hright ihl
    | right => exact hstep hcell hnumber hvalue hright hleft ihr

theorem Holds.mem_numbers (h : Holds cells (some i) t) : i + 1 ∈ t.numbers := by
  cases h with
  | branch hcell hnumber hvalue hleft hright => simp [hnumber]

theorem ne_of_mem_numbers (hnumber : node.number = i + 1) (hnode : node.number ∉ t.numbers)
    (hj : j + 1 ∈ t.numbers) : j ≠ i := by
  rintro rfl
  exact hnode (hnumber ▸ hj)

theorem Holds.numbers_subset (h : Holds cells link t) :
    t.numbers ⊆ List.range' 1 cells.length := by
  induction h with
  | leaf => exact List.nil_subset _
  | branch hcell hnumber hvalue hleft hright ihl ihr =>
    have hlt := (List.getElem?_eq_some_iff.mp hcell).1
    rw [Binary.numbers_branch]
    refine List.append_subset_of_subset_of_subset ihl (List.cons_subset.mpr ⟨?_, ihr⟩)
    rw [List.mem_range'_1, hnumber]
    omega

theorem Holds.lt_length (h : Holds cells link t) (hi : i + 1 ∈ t.numbers) : i < cells.length := by
  have hrange := List.mem_range'_1.mp (h.numbers_subset hi)
  omega

/-- There are at least as many places as nodes that hang from one of them. -/
theorem Holds.length_numbers_le (h : Holds cells link t) (hdistinct : t.numbers.Nodup) :
    t.numbers.length ≤ cells.length := by
  have hle := (hdistinct.subperm h.numbers_subset).length_le
  rwa [List.length_range'] at hle

theorem Holds.parts {l r : Binary} (h : Holds cells (some i) (.branch node l r))
    (hcell : cells[i]? = some cell) : node.number = i + 1 ∧ cell.value = node.value ∧
      Holds cells cell.left l ∧ Holds cells cell.right r := by
  cases h with
  | branch hcell' hnumber hvalue hleft hright =>
    obtain rfl := Option.some.inj (hcell.symm.trans hcell')
    exact ⟨hnumber, hvalue, hleft, hright⟩

/-- What changes elsewhere does not change the tree. -/
theorem Holds.frame (h : Holds cells link t)
    (hsame : ∀ j, j + 1 ∈ t.numbers → cells'[j]? = cells[j]?) : Holds cells' link t := by
  induction h with
  | leaf => exact .leaf
  | @branch i cell node l r hcell hnumber hvalue hleft hright ihl ihr =>
    simp only [Binary.numbers_branch, List.mem_append, List.mem_cons] at hsame
    refine .branch ?_ hnumber hvalue (ihl fun j hj => hsame j (Or.inl hj))
      (ihr fun j hj => hsame j (Or.inr (Or.inr hj)))
    rw [hsame i (Or.inr (Or.inl hnumber.symm)), hcell]

theorem Holds.frame_modify (h : Holds cells link t) (f : Cell → Cell) (hi : i + 1 ∉ t.numbers) :
    Holds (cells.modify i f) link t := by
  refine h.frame fun j hj => List.getElem?_modify_ne _ _ ?_
  rintro rfl
  exact hi hj

theorem getElem?_modify_self (hcell : cells[i]? = some cell) (f : Cell → Cell) :
    (cells.modify i f)[i]? = some (f cell) := by
  rw [List.getElem?_modify_eq, hcell]
  rfl

theorem change?_eq (h : i < cells.length) (f : Cell → Cell) :
    change? cells i f = some (cells.modify i f) := if_pos h

theorem length_change? {f : Cell → Cell} (h : change? cells i f = some cells') :
    cells'.length = cells.length := by
  obtain ⟨-, h⟩ := (Option.ite_none_right_eq_some ..).mp h
  rw [← Option.some.inj h, List.length_modify]

/-! ## Insertion -/

theorem insert_branch (hvalue : cell.value = node.value) :
    ((cell.sideOf new.value).branch node near far).insert new =
      (cell.sideOf new.value).branch node (near.insert new) far := by
  rw [Cell.sideOf, hvalue]
  by_cases hbefore : new.value.before node.value = true
  · rw [if_pos hbefore, Side.branch, Binary.insert, if_pos hbefore]
    rfl
  · rw [if_neg hbefore, Side.branch, Binary.insert, if_neg hbefore]
    rfl

/-- The cells with one more that is linked from a node. -/
def grown (cells : List Cell) (value : Literal) (i : Nat) (side : Side) : List Cell :=
  (cells ++ [Cell.mk value none none]).modify i (Cell.link side (some cells.length))

theorem getElem?_grown_ne (hj : j < cells.length) (hne : i ≠ j) :
    (grown cells value i side)[j]? = cells[j]? := by
  rw [grown, List.getElem?_modify_ne _ _ hne, List.getElem?_append_left hj]

theorem getElem?_grown_self (hcell : cells[i]? = some cell) :
    (grown cells value i side)[i]? = some (cell.link side (some cells.length)) := by
  have hlt := (List.getElem?_eq_some_iff.mp hcell).1
  rw [grown, List.getElem?_modify_eq, List.getElem?_append_left hlt, hcell]
  rfl

theorem getElem?_grown_length (hi : i < cells.length) :
    (grown cells value i side)[cells.length]? = some ⟨value, none, none⟩ := by
  rw [grown, List.getElem?_modify_ne _ _ (by omega)]
  simp

theorem Holds.frame_grown (h : Holds cells link t) (hi : i + 1 ∉ t.numbers) :
    Holds (grown cells value i side) link t := by
  refine h.frame fun j hj => getElem?_grown_ne (h.lt_length hj) ?_
  rintro rfl
  exact hi hj

/-- The way down to the free place of a new node ends, and linking the node there inserts it. -/
theorem Holds.insert (h : Holds cells link t) (hdistinct : t.numbers.Nodup)
    (hnew : new.number = cells.length + 1) : ∀ i steps, link = some i → t.numbers.length ≤ steps →
    ∃ j side, descend?.go cells new.value steps i = some (j, side) ∧ j + 1 ∈ t.numbers ∧
      Holds (grown cells new.value j side) link (t.insert new) := by
  revert hdistinct
  refine h.along (Cell.sideOf new.value) ?leaf ?branch
  case leaf => nofun
  case branch =>
    intro i cell node near far hcell hnumber hvalue hnear hfar ih hdistinct _ steps hlink hsteps
    cases hlink
    rw [Side.length_numbers_branch] at hsteps
    obtain ⟨steps, rfl⟩ : ∃ n, steps = n + 1 := ⟨steps - 1, by omega⟩
    obtain ⟨hneard, -, hnodenear, hnodefar, hapart⟩ := Side.nodup_numbers_branch.mp hdistinct
    have hlt : i < cells.length := (List.getElem?_eq_some_iff.mp hcell).1
    rw [insert_branch hvalue, descend?.go, hcell, Option.bind_eq_bind, Option.bind_some]
    -- the way ends at a cell without a child on that side, and otherwise goes on below it
    cases hchild : cell.child (cell.sideOf new.value) with
    | none =>
      rw [hchild] at hnear
      cases hnear
      refine ⟨i, _, rfl, Side.mem_numbers_branch.mpr (Or.inl hnumber.symm), ?_⟩
      refine .ofSide _ (getElem?_grown_self hcell) hnumber ?_ ?_ ?_
      · rw [Cell.value_link, hvalue]
      · rw [Cell.child_link]
        exact .branch (getElem?_grown_length hlt) hnew rfl .leaf .leaf
      · rw [Cell.child_link_other]
        exact hfar.frame_grown (hnumber ▸ hnodefar)
    | some k =>
      obtain ⟨j, side, hdescend, hj, hheld⟩ := ih hneard k steps hchild (by omega)
      -- the new link is set below, so that this cell and its other side stay as they are
      have hji := ne_of_mem_numbers hnumber hnodenear hj
      refine ⟨j, side, hdescend, Side.mem_numbers_branch.mpr (Or.inr (Or.inl hj)), ?_⟩
      exact .ofSide _ ((getElem?_grown_ne hlt hji).trans hcell) hnumber hvalue hheld
        (hfar.frame_grown (hapart hj))

/-! ## Arenas of search trees -/

variable {arena : Arena} {t : SearchTree}

/-- The arena holds a search tree and all nodes created for it. -/
structure Keeps (arena : Arena) (t : SearchTree) : Prop where
  holds : Holds arena.cells arena.root t.tree
  created : arena.cells.length = t.created

theorem keeps_empty : Keeps {} {} := ⟨.leaf, rfl⟩

theorem Keeps.insert (h : arena.Keeps t) (hdistinct : t.tree.numbers.Nodup) (value : Literal) :
    ∃ arena', arena.insert? value = some arena' ∧ arena'.Keeps (t.insert value) := by
  obtain ⟨tree, created⟩ := t
  obtain ⟨cells, root⟩ := arena
  obtain ⟨hholds, rfl⟩ := h
  dsimp only at hholds
  cases root with
  | none =>
    cases hholds
    refine ⟨⟨cells ++ [⟨value, none, none⟩], some cells.length⟩, rfl, ?_, ?_⟩
    · exact .branch List.getElem?_concat_length rfl rfl .leaf .leaf
    · exact List.length_append
  | some root =>
    have hnew : (Node.mk (cells.length + 1) value).number = cells.length + 1 := rfl
    -- the new cell is appended first, and the free place gets a link to it
    obtain ⟨j, side, hdescend, hj, hheld⟩ :=
      hholds.insert hdistinct hnew root _ rfl (hholds.length_numbers_le hdistinct)
    rw [← descend?] at hdescend
    have hlt : j < (cells ++ [Cell.mk value none none]).length := by
      rw [List.length_append]
      exact Nat.lt_add_right 1 (hholds.lt_length hj)
    refine ⟨⟨grown cells value j side, some root⟩, ?_, hheld, ?_⟩
    · rw [insert?]
      simp only [Option.bind_eq_bind, hdescend, Option.bind_some, change?_eq hlt]
      rfl
    · rw [grown, List.length_modify]
      exact List.length_append

end Arena

end Storyboard.Tree
