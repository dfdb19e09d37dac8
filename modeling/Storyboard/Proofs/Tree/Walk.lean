import Storyboard.Proofs.Tree.ArenaRemoval

/-!
# Walks through an arena

The walks through the arena of a tree end and visit the places of the nodes that the tree lists.
For the level order the places wait in line; the line holds what is left of one level and what has
come up of the next (`levels?_line`).
-/

namespace Storyboard.Tree

/-- The place of a node among all that were created. -/
def Node.place (node : Node) : Nat := node.number - 1

theorem Node.place_eq {node : Node} {i : Nat} (h : node.number = i + 1) : node.place = i := by
  rw [place, h, Nat.add_sub_cancel]

namespace Binary

/-- The tree, if it has a node. -/
def forest : Binary → List Binary
  | leaf => []
  | t => [t]

/-- The trees below the root. -/
def children : Binary → List Binary
  | leaf => []
  | branch _ l r => l.forest ++ r.forest

/-- The levels of trees side by side. -/
def forestLevels (ts : List Binary) : List (List Node) :=
  ts.foldr (fun t later => joinLevels t.levels later) []

/-- The roots of trees. -/
def roots (ts : List Binary) : List Node := ts.flatMap fun t => t.root?.toList

/-- The number of all nodes of trees. -/
def count (ts : List Binary) : Nat := (ts.map fun t => t.inorder.length).sum

variable {t : Binary} {ts : List Binary}

theorem joinLevels_nil_right (levels : List (List Node)) : joinLevels levels [] = levels := by
  cases levels <;> rfl

theorem joinLevels_assoc (a b c : List (List Node)) :
    joinLevels (joinLevels a b) c = joinLevels a (joinLevels b c) := by
  induction a generalizing b c with
  | nil => rfl
  | cons level rest ih =>
    cases b with
    | nil => rfl
    | cons level' rest' =>
      cases c with
      | nil => rfl
      | cons level'' rest'' =>
        simp only [joinLevels, ih, List.append_assoc]

theorem forestLevels_append (ts us : List Binary) :
    forestLevels (ts ++ us) = joinLevels (forestLevels ts) (forestLevels us) := by
  induction ts with
  | nil => rfl
  | cons t ts ih => rw [List.cons_append, forestLevels, List.foldr_cons, ← forestLevels, ih,
      ← joinLevels_assoc]; rfl

theorem forestLevels_forest (t : Binary) : forestLevels t.forest = t.levels := by
  cases t with
  | leaf => rfl
  | branch node l r => exact joinLevels_nil_right _

theorem levels_branch (node : Node) (l r : Binary) :
    (branch node l r).levels = [node] :: forestLevels (branch node l r).children := by
  rw [children, forestLevels_append, forestLevels_forest, forestLevels_forest, levels]

theorem count_append (ts us : List Binary) : count (ts ++ us) = count ts + count us := by
  rw [count, List.map_append, List.sum_append]
  rfl

theorem count_cons (t : Binary) (ts : List Binary) :
    count (t :: ts) = t.inorder.length + count ts := List.sum_cons

theorem roots_cons (t : Binary) (ts : List Binary) :
    roots (t :: ts) = t.root?.toList ++ roots ts := List.flatMap_cons

theorem count_forest (t : Binary) : count t.forest = t.inorder.length := by
  cases t with
  | leaf => rfl
  | branch node l r => exact Nat.add_zero _

theorem count_children_lt (hne : t ≠ leaf) : count t.children < t.inorder.length := by
  cases t with
  | leaf => exact absurd rfl hne
  | branch node l r =>
    rw [children, count_append, count_forest, count_forest, inorder, List.length_append,
      List.length_cons]
    omega

/-- The first level of trees are their roots, and the others are the levels of the trees below. -/
theorem forestLevels_eq_cons (hts : ∀ t ∈ ts, t ≠ leaf) (hne : ts ≠ []) :
    forestLevels ts = roots ts :: forestLevels (ts.flatMap children) := by
  induction ts with
  | nil => exact absurd rfl hne
  | cons t rest ih =>
    rw [List.forall_mem_cons] at hts
    obtain ⟨node, l, r, rfl⟩ : ∃ node l r, t = branch node l r := by
      cases t with
      | leaf => exact absurd rfl hts.1
      | branch node l r => exact ⟨node, l, r, rfl⟩
    rw [forestLevels, List.foldr_cons, ← forestLevels, levels_branch, List.flatMap_cons,
      forestLevels_append]
    cases rest with
    | nil =>
      show [node] :: _ = [node] :: joinLevels _ []
      rw [joinLevels_nil_right]
    | cons t' rest' =>
      rw [ih hts.2 (List.cons_ne_nil t' rest')]
      rfl

end Binary

namespace Arena

variable {cells : List Cell} {cell : Cell} {i : Nat} {link : Option Nat} {t : Binary}
  {is js : List Nat} {ts us : List Binary}

/-- The places from which trees hang. -/
def HoldsAll (cells : List Cell) (is : List Nat) (ts : List Binary) : Prop :=
  List.Forall₂ (fun i t => Holds cells (some i) t) is ts

theorem Holds.forest (h : Holds cells link t) : HoldsAll cells link.toList t.forest := by
  cases h with
  | leaf => exact .nil
  | branch hcell hnumber hvalue hleft hright =>
    exact .cons (.branch hcell hnumber hvalue hleft hright) .nil

theorem HoldsAll.append (h : HoldsAll cells is ts) (h' : HoldsAll cells js us) :
    HoldsAll cells (is ++ js) (ts ++ us) := List.rel_append h h'

theorem Holds.ne_leaf (h : Holds cells (some i) t) : t ≠ .leaf := by
  rintro rfl
  cases h

theorem HoldsAll.ne_leaf (h : HoldsAll cells is ts) : ∀ t ∈ ts, t ≠ .leaf := by
  induction h with
  | nil => nofun
  | cons hhead _ ih => exact List.forall_mem_cons.mpr ⟨hhead.ne_leaf, ih⟩

theorem Holds.children (h : Holds cells (some i) t) (hcell : cells[i]? = some cell) :
    HoldsAll cells (cell.left.toList ++ cell.right.toList) t.children := by
  cases h with
  | branch hcell' hnumber hvalue hleft hright =>
    obtain rfl := Option.some.inj (hcell.symm.trans hcell')
    exact hleft.forest.append hright.forest

/-- One place is visited; the places of its children wait in line behind all others. -/
theorem levels?_cons {steps : Nat} {nodes : List Node} (h : Holds cells (some i) t)
    (hlater : ∀ ks, HoldsAll cells ks t.children →
      levels?.go cells steps (is ++ (js ++ ks)) = some (nodes.map Node.place)) :
    levels?.go cells (steps + 1) (i :: is ++ js) =
      some ((t.root?.toList ++ nodes).map Node.place) := by
  cases h with
  | @branch i cell node l r hcell hnumber hvalue hleft hright =>
    have hrest := hlater _ ((Holds.branch hcell hnumber hvalue hleft hright).children hcell)
    rw [← List.append_assoc, ← List.append_assoc] at hrest
    rw [List.cons_append, levels?.go, hcell]
    simp only [Option.bind_eq_bind, Option.bind_some, hrest]
    show some (i :: _) = some (node.place :: _)
    rw [Node.place_eq hnumber]
    rfl

open Binary in
/-- The places that wait in line are those of a level, and behind them those that have come up of the
next one. -/
theorem levels?_line {steps : Nat} (h : HoldsAll cells is ts) (h' : HoldsAll cells js us)
    (hsteps : count (ts ++ us) ≤ steps) : levels?.go cells steps (is ++ js) =
      some ((roots ts ++ (forestLevels (us ++ ts.flatMap children)).flatten).map Node.place) := by
  induction steps using Nat.strong_induction_on generalizing is js ts us with
  | _ steps ih =>
    have hstep : ∀ {i is t ts js us}, Holds cells (some i) t → HoldsAll cells is ts →
        HoldsAll cells js us → count (t :: ts ++ us) ≤ steps →
        levels?.go cells steps (i :: is ++ js) =
          some ((roots (t :: ts) ++
            (forestLevels (us ++ (t :: ts).flatMap children)).flatten).map Node.place) := by
      intro i is t ts js us ht hts hus hn
      have hbelow := count_children_lt ht.ne_leaf
      rw [List.cons_append, count_cons, count_append] at hn
      obtain ⟨steps, rfl⟩ : ∃ n, steps = n + 1 := ⟨steps - 1, by omega⟩
      have hless : count (ts ++ (us ++ t.children)) ≤ steps := by
        rw [count_append, count_append]
        omega
      rw [levels?_cons ht fun ks hks => ih steps steps.lt_succ_self hts (hus.append hks) hless,
        roots_cons, List.flatMap_cons, List.append_assoc, List.append_assoc]
    cases h with
    | cons hhead hrest => exact hstep hhead hrest h' hsteps
    | nil =>
      cases h' with
      | nil =>
        rw [List.append_nil, levels?.go]
        rfl
      | cons hhead hrest =>
        -- a level has been visited, and the next one begins
        have hlevel := hstep hhead hrest .nil (by rwa [List.append_nil])
        have hne := HoldsAll.ne_leaf (.cons hhead hrest)
        rw [List.append_nil, List.nil_append] at hlevel
        rw [List.nil_append, hlevel, List.flatMap_nil, List.append_nil,
          forestLevels_eq_cons hne (List.cons_ne_nil _ _)]
        rfl

/-- The places below a link are those that the tree lists. -/
theorem Holds.below? (h : Holds cells link t) {order : Order} (horder : order ≠ .levels)
    {depth : Nat} (hdepth : t.numbers.length ≤ depth) :
    below?.go cells order depth link = some ((t.walk order).map Node.place) := by
  induction h generalizing depth with
  | leaf =>
    rw [below?.go]
    cases order <;> rfl
  | @branch i cell node l r hcell hnumber hvalue hleft hright ihl ihr =>
    have hplace := Node.place_eq hnumber
    rw [Binary.numbers_branch, List.length_append, List.length_cons] at hdepth
    obtain ⟨depth, rfl⟩ : ∃ n, depth = n + 1 := ⟨depth - 1, by omega⟩
    have hl := @ihl depth (by omega)
    have hr := @ihr depth (by omega)
    rw [below?.go, hcell]
    simp only [Option.bind_eq_bind, Option.bind_some, hl, hr]
    cases order with
    | inorder => simp [Binary.walk, Binary.inorder, hplace]
    | preorder => simp [Binary.walk, Binary.preorder, hplace]
    | postorder => simp [Binary.walk, Binary.postorder, hplace]
    | levels => exact absurd rfl horder

/-- Every walk through the arena of a tree ends and visits the places that the tree lists. -/
theorem Keeps.walk? {arena : Arena} {t : SearchTree} (h : arena.Keeps t)
    (hdistinct : t.tree.numbers.Nodup) (order : Order) :
    arena.walk? order = some ((t.tree.walk order).map Node.place) := by
  have hlength := h.holds.length_numbers_le hdistinct
  have hbelow : ∀ order ≠ Order.levels, below? arena.cells order arena.root =
      some ((t.tree.walk order).map Node.place) := fun _ horder => h.holds.below? horder hlength
  cases order with
  | inorder => exact hbelow .inorder nofun
  | preorder => exact hbelow .preorder nofun
  | postorder => exact hbelow .postorder nofun
  | levels =>
    rw [Binary.numbers, List.length_map, ← Binary.count_forest] at hlength
    have hline := levels?_line .nil h.holds.forest hlength
    rwa [List.flatMap_nil, List.append_nil, Binary.forestLevels_forest] at hline

/-- The arena serves as the tree: it holds its nodes, its walks end and list them, its searches end
and find what the tree finds, and the deletion of a value that is not found leaves it as it is. -/
structure Serves (arena : Arena) (t : SearchTree) : Prop where
  keeps : arena.Keeps t
  walks : ∀ order, arena.walk? order = some ((t.tree.walk order).map Node.place)
  searches : ∀ value, ∃ found, locate? arena.cells value none arena.root = some found ∧
    found.isSome = (t.tree.find? value).isSome
  delete_missing : ∀ value, t.tree.find? value = none → arena.delete? value = some arena

theorem Keeps.serves {arena : Arena} {t : SearchTree} (h : arena.Keeps t)
    (hdistinct : t.tree.numbers.Nodup) : arena.Serves t where
  keeps := h
  walks := h.walk? hdistinct
  searches := h.locate hdistinct
  delete_missing := by
    intro value hfind
    obtain ⟨-, hdelete⟩ | ⟨tree, removal, -, hremove, -⟩ := h.delete hdistinct value
    · exact hdelete
    · have hsome := Binary.remove?_isSome value t.tree
      rw [hremove, hfind] at hsome
      cases hsome

end Arena

end Storyboard.Tree
