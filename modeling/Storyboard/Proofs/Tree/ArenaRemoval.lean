import Storyboard.Proofs.Tree.Arena

/-!
# Removal from an arena

A node with at most one child is unlinked from the node above it; a node with two children stays and
takes over the value of its successor, which is unlinked.  `Removed` tells these cases apart, and
`Removed.below` carries them up the way on which the node was found.
-/

namespace Storyboard.Tree.Arena

variable {cells cells' : List Cell} {cell : Cell} {i j : Nat} {link : Option Nat}
  {side : Side} {node : Node} {t near near' far l r : Binary} {value : Literal}

/-! ## The successor -/

/-- The way to the leftmost node ends; linking its right child in its place takes it out. -/
theorem Holds.popLeftmost (h : Holds cells link t) (hdistinct : t.numbers.Nodup) :
    ∀ above i steps, link = some i → t.numbers.length ≤ steps →
      ∃ p s next rest, leftmost?.go cells steps above i = some (p, s) ∧
      cells[s]? = some next ∧ t.popLeftmost? = some (next.value, rest) ∧
      ((p = above ∧ Holds cells next.right rest) ∨
        (p + 1 ∈ t.numbers ∧ Holds (cells.modify p (Cell.link .left next.right)) link rest)) := by
  revert hdistinct
  refine h.along (fun _ => .left) ?leaf ?branch
  case leaf => nofun
  case branch =>
    intro i cell node near far hcell hnumber hvalue hnear hfar ih hdistinct above _ steps hlink
      hsteps
    cases hlink
    rw [Side.length_numbers_branch] at hsteps
    obtain ⟨steps, rfl⟩ : ∃ n, steps = n + 1 := ⟨steps - 1, by omega⟩
    obtain ⟨hneard, -, hnodenear, hnodefar, hapart⟩ := Side.nodup_numbers_branch.mp hdistinct
    rw [leftmost?.go, hcell, Option.bind_eq_bind, Option.bind_some]
    -- a node without a left child is the leftmost one, and its right child takes its place
    cases hchild : cell.left with
    | none =>
      rw [Cell.child, hchild] at hnear
      cases hnear
      exact ⟨above, i, cell, far, rfl, hcell, by rw [hvalue]; rfl, Or.inl ⟨rfl, hfar⟩⟩
    | some k =>
      obtain ⟨p, s, next, rest, hleftmost, hnext, hpop, hrest⟩ :=
        ih hneard i k steps hchild (by omega)
      refine ⟨p, s, next, .branch node rest far, hleftmost, hnext, ?_, Or.inr ?_⟩
      · rw [Side.branch, Binary.popLeftmost?, hpop]
      -- the leftmost node hangs at this node, or at one further down with another number
      obtain ⟨rfl, hheld⟩ | ⟨hp, hheld⟩ := hrest
      · refine ⟨Side.mem_numbers_branch.mpr (Or.inl hnumber.symm), ?_⟩
        have hrest : p + 1 ∉ rest.numbers :=
          fun hmem => hnodenear (hnumber ▸ Binary.numbers_popLeftmost?_subset hpop hmem)
        exact .ofSide .left (getElem?_modify_self hcell _) hnumber hvalue
          (hheld.frame_modify _ hrest) (hfar.frame_modify _ (hnumber ▸ hnodefar))
      · refine ⟨Side.mem_numbers_branch.mpr (Or.inr (Or.inl hp)), ?_⟩
        have hpi := ne_of_mem_numbers hnumber hnodenear hp
        exact .ofSide .left ((List.getElem?_modify_ne _ _ hpi).trans hcell) hnumber hvalue hheld
          (hfar.frame_modify _ (hapart hp))

theorem length_takeSuccessor? (h : takeSuccessor? cells i j = some cells') :
    cells'.length = cells.length := by
  obtain ⟨⟨p, s⟩, -, h⟩ := Option.bind_eq_some_iff.mp h
  obtain ⟨next, -, h⟩ := Option.bind_eq_some_iff.mp h
  obtain ⟨unlinked, hunlinked, h⟩ := Option.bind_eq_some_iff.mp h
  rw [length_change? h, length_change? hunlinked]

/-- The nodes with another child of `p` where the successor of `i` was. -/
def unlinked (cells : List Cell) (i p : Nat) (child : Option Nat) : List Cell :=
  cells.modify p (Cell.link (if p = i then .right else .left) child)

/-- The successor of a node with two children is unlinked from the node above it, which may be the
node itself. -/
theorem Holds.unlinkSuccessor (h : Holds cells (some i) (.branch node l r))
    (hdistinct : (Side.left.branch node l r).numbers.Nodup) (hcell : cells[i]? = some cell)
    (hlink : cell.right = some j) :
    ∃ p s next rest cell', leftmost? cells i j = some (p, s) ∧ cells[s]? = some next ∧
      r.popLeftmost? = some (next.value, rest) ∧ p + 1 ∈ (Side.left.branch node l r).numbers ∧
      (unlinked cells i p next.right)[i]? = some cell' ∧
      Holds (unlinked cells i p next.right) cell'.left l ∧
      Holds (unlinked cells i p next.right) cell'.right rest := by
  obtain ⟨hnumber, -, hleft, hright⟩ := h.parts hcell
  obtain ⟨-, hdr, hnodel, hnoder, hapart⟩ := Side.nodup_numbers_branch.mp hdistinct
  obtain ⟨p, s, next, rest, hleftmost, hnext, hpop, hrest⟩ :=
    hright.popLeftmost hdr i j _ hlink (hright.length_numbers_le hdr)
  rw [← leftmost?] at hleftmost
  -- the successor is the right child itself, or it hangs further down
  obtain ⟨hpi, hheld⟩ | ⟨hp, hheld⟩ := hrest
  · have hnoderest : p + 1 ∉ rest.numbers := by
      rw [hnumber, ← hpi] at hnoder
      exact fun hmem => hnoder (Binary.numbers_popLeftmost?_subset hpop hmem)
    refine ⟨p, s, next, rest, cell.link .right next.right, hleftmost, hnext, hpop, ?_⟩
    rw [unlinked, if_pos hpi]
    subst hpi
    refine ⟨Side.mem_numbers_branch.mpr (Or.inl hnumber.symm), getElem?_modify_self hcell _, ?_, ?_⟩
    · exact hleft.frame_modify _ (hnumber ▸ hnodel)
    · exact hheld.frame_modify _ hnoderest
  · have hpi := ne_of_mem_numbers hnumber hnoder hp
    refine ⟨p, s, next, rest, cell, hleftmost, hnext, hpop, ?_⟩
    rw [unlinked, if_neg hpi]
    refine ⟨Side.mem_numbers_branch.mpr (Or.inr (Or.inr hp)),
      (List.getElem?_modify_ne _ _ hpi).trans hcell, ?_, hheld⟩
    exact hleft.frame_modify _ fun hmem => hapart hmem hp

/-- A node with two children takes over the value of its successor, which is unlinked. -/
theorem Holds.takeSuccessor (h : Holds cells (some i) (.branch node l r))
    (hdistinct : (Side.left.branch node l r).numbers.Nodup) (hcell : cells[i]? = some cell)
    (hlink : cell.right = some j) :
    ∃ cells' successor rest, takeSuccessor? cells i j = some cells' ∧
      r.popLeftmost? = some (successor, rest) ∧
      Holds cells' (some i) (.branch { node with value := successor } l rest) ∧
      ∀ k, k + 1 ∉ (Side.left.branch node l r).numbers → cells'[k]? = cells[k]? := by
  obtain ⟨p, s, next, rest, cell', hleftmost, hnext, hpop, hp, hcell', hleft, hright⟩ :=
    h.unlinkSuccessor hdistinct hcell hlink
  obtain ⟨-, -, hnodel, hnoder, -⟩ := Side.nodup_numbers_branch.mp hdistinct
  obtain ⟨hnumber, -⟩ := h.parts hcell
  have hi : i + 1 ∈ (Side.left.branch node l r).numbers :=
    Side.mem_numbers_branch.mpr (Or.inl hnumber.symm)
  have hlt : i < (unlinked cells i p next.right).length := by
    rw [unlinked, List.length_modify]
    exact h.lt_length hi
  -- the value is written last, so the cell may have been relinked before
  refine ⟨(unlinked cells i p next.right).modify i fun cell => { cell with value := next.value },
    next.value, rest, ?_, hpop, ?_, fun k hk => ?_⟩
  · rw [takeSuccessor?, hleftmost]
    simp only [Option.bind_eq_bind, Option.bind_some, hnext, change?_eq (h.lt_length hp)]
    exact change?_eq hlt _
  · have hnoderest : i + 1 ∉ rest.numbers :=
      fun hmem => hnoder (hnumber ▸ Binary.numbers_popLeftmost?_subset hpop hmem)
    exact .ofSide .left (getElem?_modify_self hcell' _) hnumber rfl
      (hleft.frame_modify _ (hnumber ▸ hnodel)) (hright.frame_modify _ hnoderest)
  · have hik : i ≠ k := by
      rintro rfl
      exact hk hi
    have hpk : p ≠ k := by
      rintro rfl
      exact hk hp
    rw [List.getElem?_modify_ne _ _ hik, unlinked, List.getElem?_modify_ne _ _ hpk]

/-- What has become of the nodes below a link when the node at `i` was removed: `above` is the node
above it, or `parent` where `i` is linked itself. -/
inductive Removed (cells : List Cell) (parent above : Option Nat) (i : Nat) (link : Option Nat)
    (t t' : Binary) : Prop where
  /-- The node that was linked has at most one child, which is to take its place. -/
  | top {cell : Cell} {only : Option Nat} (hlink : link = some i) (habove : above = parent)
      (hcell : cells[i]? = some cell) (honly : cell.HasOnly only) (hheld : Holds cells only t')
  /-- A node with at most one child, which takes its place below another one. -/
  | inside {p : Nat} {cell : Cell} {only : Option Nat} (habove : above = some p)
      (hp : p + 1 ∈ t.numbers) (hcell : cells[i]? = some cell) (honly : cell.HasOnly only)
      (hheld : Holds (cells.modify p (Cell.relink i only)) link t')
  /-- A node with two children, which takes the value of its successor. -/
  | replaced {cell : Cell} {k j : Nat} {cells' : List Cell} (hcell : cells[i]? = some cell)
      (hleft : cell.left = some k) (hright : cell.right = some j)
      (htake : takeSuccessor? cells i j = some cells') (hheld : Holds cells' link t')
      (hsame : ∀ k, k + 1 ∉ t.numbers → cells'[k]? = cells[k]?)

theorem Holds.removeRoot (h : Holds cells (some i) (.branch node l r))
    (hdistinct : (Side.left.branch node l r).numbers.Nodup) (parent : Option Nat) :
    Removed cells parent parent i (some i) (.branch node l r)
      (Binary.removeRoot node l r).1 := by
  obtain ⟨cell, hcell⟩ : ∃ cell, cells[i]? = some cell := by
    cases h with
    | branch hcell _ _ _ _ => exact ⟨_, hcell⟩
  obtain ⟨hnumber, -, hleft, hright⟩ := h.parts hcell
  -- only a node with two children stays where it is
  cases hr : cell.right with
  | none =>
    rw [hr] at hright
    cases hright
    rw [Binary.removeRoot_leaf_right]
    exact .top rfl rfl hcell (Or.inl ⟨rfl, hr⟩) hleft
  | some j =>
    cases hl : cell.left with
    | none =>
      rw [hl] at hleft
      cases hleft
      rw [Binary.removeRoot_leaf_left]
      exact .top rfl rfl hcell (Or.inr ⟨hl, rfl⟩) hright
    | some k =>
      obtain ⟨cells', successor, rest, htake, hpop, hheld, hsame⟩ :=
        h.takeSuccessor hdistinct hcell hr
      have hne : l ≠ .leaf := by
        rintro rfl
        rw [hl] at hleft
        cases hleft
      rw [Binary.removeRoot_of_popLeftmost? hne hpop]
      exact .replaced hcell hl hr htake hheld hsame

/-- A removal below a node is one below the link to it. -/
theorem Removed.below {parent above : Option Nat} (hcell : cells[i]? = some cell)
    (hnumber : node.number = i + 1) (hvalue : cell.value = node.value)
    (hnear : Holds cells (cell.child side) near) (hfar : Holds cells (cell.child side.other) far)
    (hdistinct : (side.branch node near far).numbers.Nodup) (hsub : near'.numbers ⊆ near.numbers)
    (h : Removed cells (some i) above j (cell.child side) near near') :
    Removed cells parent above j (some i) (side.branch node near far)
      (side.branch node near' far) := by
  obtain ⟨-, -, hnodenear, hnodefar, hapart⟩ := Side.nodup_numbers_branch.mp hdistinct
  cases h with
  | top hlink habove hcellj honly hheld =>
    -- the trees below the two links share no number, so only one link is changed
    have hother : cell.child side.other ≠ some j := by
      intro hfarlink
      rw [hlink] at hnear
      rw [hfarlink] at hfar
      exact hapart hnear.mem_numbers hfar.mem_numbers
    refine .inside habove (Side.mem_numbers_branch.mpr (Or.inl hnumber.symm)) hcellj honly ?_
    refine .ofSide side (getElem?_modify_self hcell _) hnumber ?_ ?_ ?_ <;>
      rw [Cell.relink_eq hlink hother]
    · rw [Cell.value_link, hvalue]
    · rw [Cell.child_link]
      exact hheld.frame_modify _ fun hmem => hnodenear (hnumber ▸ hsub hmem)
    · rw [Cell.child_link_other]
      exact hfar.frame_modify _ (hnumber ▸ hnodefar)
  | @inside p cell' only habove hp hcellj honly hheld =>
    refine .inside habove (Side.mem_numbers_branch.mpr (Or.inr (Or.inl hp))) hcellj honly ?_
    -- the relinked cell is not that of this node
    have hpi := ne_of_mem_numbers hnumber hnodenear hp
    exact .ofSide side ((List.getElem?_modify_ne _ _ hpi).trans hcell) hnumber hvalue hheld
      (hfar.frame_modify _ (hapart hp))
  | replaced hcellj hleft hright htake hheld hsame =>
    refine .replaced hcellj hleft hright htake ?_ fun k hk => hsame k fun hmem =>
      hk (Side.mem_numbers_branch.mpr (Or.inr (Or.inl hmem)))
    exact .ofSide side ((hsame i (hnumber ▸ hnodenear)).trans hcell) hnumber hvalue hheld
      (hfar.frame fun k hk => hsame k fun hmem => hapart hmem hk)

theorem remove?_branch (hvalue : cell.value = node.value)
    (hsame : ¬ value.same cell.value = true) :
    ((cell.sideOf value).branch node near far).remove? value =
      (near.remove? value).map fun (near', removal) =>
        ((cell.sideOf value).branch node near' far, removal) := by
  rw [hvalue] at hsame
  rw [Cell.sideOf, hvalue]
  by_cases hbefore : value.before node.value = true
  · rw [if_pos hbefore, Side.branch, Binary.remove?, if_neg hsame, if_pos hbefore]
    rfl
  · rw [if_neg hbefore, Side.branch, Binary.remove?, if_neg hsame, if_neg hbefore]
    rfl

theorem Holds.removeSame (h : Holds cells (some i) (side.branch node near far))
    (hdistinct : (side.branch node near far).numbers.Nodup)
    (hsame : value.same node.value = true) (parent : Option Nat) :
    ∃ t' removal, (side.branch node near far).remove? value = some (t', removal) ∧
      Removed cells parent parent i (some i) (side.branch node near far) t' := by
  cases side with
  | left => exact ⟨_, _, if_pos hsame, h.removeRoot hdistinct parent⟩
  | right => exact ⟨_, _, if_pos hsame, h.removeRoot hdistinct parent⟩

/-- The search for a value ends, and with the node that is found the tree removes the value. -/
theorem Holds.remove (h : Holds cells link t) (hdistinct : t.numbers.Nodup) (value : Literal) :
    ∀ parent steps, t.numbers.length ≤ steps →
    (locate?.go cells value steps parent link = some none ∧ t.remove? value = none) ∨
    ∃ above i t' removal, locate?.go cells value steps parent link = some (some (above, i)) ∧
      t.remove? value = some (t', removal) ∧ Removed cells parent above i link t t' := by
  revert hdistinct
  refine h.along (Cell.sideOf value) ?leaf ?branch
  case leaf =>
    intro _ parent steps _
    exact Or.inl ⟨by rw [locate?.go], rfl⟩
  case branch =>
    intro i cell node near far hcell hnumber hvalue hnear hfar ih hdistinct parent steps hsteps
    rw [Side.length_numbers_branch] at hsteps
    obtain ⟨steps, rfl⟩ : ∃ n, steps = n + 1 := ⟨steps - 1, by omega⟩
    rw [locate?.go, hcell, Option.bind_eq_bind, Option.bind_some]
    by_cases hsame : value.same cell.value = true
    · have hheld := Holds.ofSide _ hcell hnumber hvalue hnear hfar
      obtain ⟨t', removal, hremove, hremoved⟩ :=
        hheld.removeSame hdistinct (hvalue ▸ hsame) parent
      rw [if_pos hsame]
      exact Or.inr ⟨parent, i, t', removal, rfl, hremove, hremoved⟩
    · rw [if_neg hsame, remove?_branch hvalue hsame]
      -- the search and the removal go down on the same side
      obtain ⟨hneard, -⟩ := Side.nodup_numbers_branch.mp hdistinct
      obtain ⟨hlocate, hremove⟩ | ⟨above, j, near', removal, hlocate, hremove, hremoved⟩ :=
        ih hneard (some i) steps (by omega)
      · exact Or.inl ⟨hlocate, by rw [hremove]; rfl⟩
      · refine Or.inr ⟨above, j, _, removal, hlocate, by rw [hremove]; rfl, ?_⟩
        exact hremoved.below hcell hnumber hvalue hnear hfar hdistinct
          (Binary.numbers_remove? hremove).subset

/-! ## Deletion -/

variable {arena : Arena} {t : SearchTree}

theorem delete?_of_hasOnly {above only : Option Nat}
    (hlocate : locate? arena.cells value none arena.root = some (some (above, i)))
    (hcell : arena.cells[i]? = some cell) (honly : cell.HasOnly only) :
    arena.delete? value = arena.replaceChild? above i only := by
  rw [delete?, hlocate]
  simp only [Option.bind_eq_bind, Option.bind_some, hcell]
  obtain ⟨rfl, hright⟩ | ⟨hleft, rfl⟩ := honly
  · rw [hright]
    cases cell.left <;> rfl
  · rw [hleft]
    cases cell.right <;> rfl

theorem Keeps.remove (h : arena.Keeps t) (hdistinct : t.tree.numbers.Nodup) (value : Literal) :
    (locate? arena.cells value none arena.root = some none ∧ t.tree.remove? value = none) ∨
    ∃ above i tree removal, locate? arena.cells value none arena.root = some (some (above, i)) ∧
      t.tree.remove? value = some (tree, removal) ∧
      Removed arena.cells none above i arena.root t.tree tree :=
  h.holds.remove hdistinct value none _ (h.holds.length_numbers_le hdistinct)

/-- A deletion changes nothing where the tree has no node to remove, and otherwise removes it. -/
theorem Keeps.delete (h : arena.Keeps t) (hdistinct : t.tree.numbers.Nodup) (value : Literal) :
    (t.tree.remove? value = none ∧ arena.delete? value = some arena) ∨
    ∃ tree removal arena', t.tree.remove? value = some (tree, removal) ∧
      arena.delete? value = some arena' ∧ arena'.Keeps { t with tree } := by
  have hcreated := h.created
  obtain ⟨hlocate, hremove⟩ | ⟨above, i, tree, removal, hlocate, hremove, hremoved⟩ :=
    h.remove hdistinct value
  · refine Or.inl ⟨hremove, ?_⟩
    rw [delete?, hlocate]
    rfl
  · refine Or.inr ⟨tree, removal, ?_⟩
    -- the node is the root, hangs below another one, or is overwritten by its successor
    cases hremoved with
    | @top cell only hlink habove hcell honly hheld =>
      refine ⟨{ arena with root := only }, hremove, ?_, hheld, hcreated⟩
      rw [delete?_of_hasOnly hlocate hcell honly, habove]
      rfl
    | @inside p cell only habove hp hcell honly hheld =>
      refine ⟨{ arena with cells := arena.cells.modify p (Cell.relink i only) }, hremove, ?_, hheld,
        ?_⟩
      · rw [delete?_of_hasOnly hlocate hcell honly, habove, replaceChild?]
        simp only [change?_eq (h.holds.lt_length hp)]
        rfl
      · rw [List.length_modify, hcreated]
    | @replaced cell k j cells' hcell hleft hright htake hheld hsame =>
      refine ⟨{ arena with cells := cells' }, hremove, ?_, hheld, ?_⟩
      · rw [delete?, hlocate]
        simp only [Option.bind_eq_bind, Option.bind_some, hcell, hleft, hright, htake]
        rfl
      · rw [length_takeSuccessor? htake, hcreated]

/-- The search for a value ends; it finds a node where the tree has one. -/
theorem Keeps.locate (h : arena.Keeps t) (hdistinct : t.tree.numbers.Nodup) (value : Literal) :
    ∃ found, locate? arena.cells value none arena.root = some found ∧
      found.isSome = (t.tree.find? value).isSome := by
  rw [← Binary.remove?_isSome]
  obtain ⟨hlocate, hremove⟩ | ⟨above, i, tree, removal, hlocate, hremove, -⟩ :=
    h.remove hdistinct value
  · exact ⟨none, hlocate, by rw [hremove]; rfl⟩
  · exact ⟨some (above, i), hlocate, by rw [hremove]; rfl⟩

end Storyboard.Tree.Arena
