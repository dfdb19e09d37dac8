import Mathlib
import Storyboard.Proofs.Tree.Ordered

/-!
# Trees as nodes and links

Seen from outside, a tree is a root and links between numbered nodes.  Each node of the tree except
the root is the end of exactly one link (`heads_perm`), so where the numbers differ, the links form a
rooted tree, and the nodes that they reach are those that every walk lists.
-/

namespace Storyboard.Tree.Binary

open scoped List

variable {t : Binary} {node root : Node}

/-- The links from nodes to their children. -/
def links : Binary → List (Node × Node)
  | leaf => []
  | branch node left right =>
    (left.root?.toList ++ right.root?.toList).map (Prod.mk node) ++ (left.links ++ right.links)

/-- Links lead from the root to a node. -/
def Reaches (t : Binary) (node : Node) : Prop :=
  ∃ root, t.root? = some root ∧ Relation.ReflTransGen (fun a b => (a, b) ∈ t.links) root node

/-- No link leads to the root and no two links lead to the same node. -/
structure IsRooted (t : Binary) : Prop where
  apart : ∀ root, t.root? = some root → ∀ link ∈ t.links, link.2.number ≠ root.number
  once : (t.links.map fun link => link.2.number).Nodup

/-! ## Links -/

/-- The root and the ends of the links are all the nodes, each once. -/
theorem heads_perm (t : Binary) : (t.root?.toList ++ t.links.map Prod.snd).Perm t.inorder := by
  induction t with
  | leaf => exact List.Perm.refl _
  | branch node left right ihl ihr =>
    have hlinks : (branch node left right).links.map Prod.snd =
        left.root?.toList ++ (right.root?.toList ++
          (left.links.map Prod.snd ++ right.links.map Prod.snd)) := by
      simp [links, Function.comp_def]
    have hswap : (right.root?.toList ++ (left.links.map Prod.snd ++ right.links.map Prod.snd)).Perm
        (left.links.map Prod.snd ++ (right.root?.toList ++ right.links.map Prod.snd)) :=
      List.perm_append_comm_assoc _ _ _
    calc (branch node left right).root?.toList ++ (branch node left right).links.map Prod.snd
        = node :: (left.root?.toList ++ (right.root?.toList ++
            (left.links.map Prod.snd ++ right.links.map Prod.snd))) := by rw [hlinks]; rfl
      _ ~ node :: ((left.root?.toList ++ left.links.map Prod.snd) ++
            (right.root?.toList ++ right.links.map Prod.snd)) := by
          rw [List.append_assoc]
          exact (hswap.append_left _).cons node
      _ ~ node :: (left.inorder ++ right.inorder) := (ihl.append ihr).cons node
      _ ~ (branch node left right).inorder := List.perm_middle.symm

theorem mem_inorder_iff :
    node ∈ t.inorder ↔ t.root? = some node ∨ ∃ link ∈ t.links, link.2 = node := by
  rw [← (heads_perm t).mem_iff, List.mem_append, Option.mem_toList, List.mem_map]

/-- Where the numbers of the nodes differ, the links form a rooted tree. -/
theorem isRooted_of_nodup (h : t.numbers.Nodup) : t.IsRooted := by
  have hnumbers : ((t.root?.toList ++ t.links.map Prod.snd).map Node.number).Nodup :=
    ((heads_perm t).map Node.number).nodup_iff.mpr h
  rw [List.map_append, List.map_map] at hnumbers
  have hapart := (List.nodup_append'.mp hnumbers).2.2
  refine ⟨?_, hnumbers.of_append_right⟩
  intro root hroot link hlink heq
  refine hapart (List.mem_map_of_mem (Option.mem_toList.mpr hroot)) ?_
  rw [← heq]
  exact List.mem_map_of_mem hlink

/-! ## Reachable nodes -/

theorem reaches_root (h : t.root? = some root) : t.Reaches root := ⟨root, h, .refl⟩

/-- What is reached in a subtree is reached through the link to it. -/
theorem Reaches.below {sub : Binary} (h : sub.Reaches node)
    (hlinks : ∀ link ∈ sub.links, link ∈ t.links) (hroot : t.root? = some root)
    (hsub : ∀ top, sub.root? = some top → (root, top) ∈ t.links) :
    t.Reaches node := by
  obtain ⟨top, htop, hpath⟩ := h
  refine ⟨root, hroot, .head (hsub top htop) ?_⟩
  exact Relation.ReflTransGen.mono (fun a b hab => hlinks (a, b) hab) _ _ hpath

/-- The nodes that are reached are the nodes of the tree. -/
theorem reaches_iff : t.Reaches node ↔ node ∈ t.inorder := by
  constructor
  · rintro ⟨root, hroot, hpath⟩
    rw [mem_inorder_iff]
    cases hpath with
    | refl => exact Or.inl hroot
    | tail _ hlink => exact Or.inr ⟨_, hlink, rfl⟩
  · intro h
    induction t with
    | leaf => nomatch h
    | branch top left right ihl ihr =>
      rw [inorder, List.mem_append, List.mem_cons] at h
      obtain hmem | rfl | hmem := h
      · refine (ihl hmem).below (fun link hlink => ?_) rfl (fun lroot hlroot => ?_)
        · simp [links, hlink]
        · simp [links, hlroot]
      · exact reaches_root rfl
      · refine (ihr hmem).below (fun link hlink => ?_) rfl (fun rroot hrroot => ?_)
        · simp [links, hlink]
        · simp [links, hrroot]

/-! ## Walks -/

theorem preorder_perm (t : Binary) : t.preorder.Perm t.inorder := by
  induction t with
  | leaf => exact List.Perm.refl _
  | branch node left right ihl ihr =>
    exact ((ihl.append ihr).cons node).trans List.perm_middle.symm

theorem postorder_perm (t : Binary) : t.postorder.Perm t.inorder := by
  induction t with
  | leaf => exact List.Perm.refl _
  | branch node left right ihl ihr =>
    refine ihl.append ((ihr.append_right [node]).trans ?_)
    exact List.perm_append_singleton node right.inorder

/-- Joining levels keeps their nodes. -/
theorem joinLevels_perm (levels levels' : List (List Node)) :
    (joinLevels levels levels').flatten.Perm (levels.flatten ++ levels'.flatten) := by
  fun_induction joinLevels levels levels' with
  | case1 levels => exact List.Perm.refl _
  | case2 levels => rw [List.flatten_nil, List.append_nil]
  | case3 upper rest upper' rest' ih =>
    rw [List.flatten_cons, List.flatten_cons, List.flatten_cons, List.append_assoc,
      List.append_assoc]
    refine List.Perm.append_left upper ((ih.append_left upper').trans ?_)
    exact List.perm_append_comm_assoc _ _ _

theorem levels_perm (t : Binary) : t.levels.flatten.Perm t.inorder := by
  induction t with
  | leaf => exact List.Perm.refl _
  | branch node left right ihl ihr =>
    have hjoined := (joinLevels_perm left.levels right.levels).trans (ihl.append ihr)
    exact (hjoined.cons node).trans List.perm_middle.symm

/-- Every order visits the same nodes. -/
theorem walk_perm (t : Binary) (order : Order) : (t.walk order).Perm t.inorder := by
  cases order with
  | inorder => exact List.Perm.refl _
  | preorder => exact preorder_perm t
  | postorder => exact postorder_perm t
  | levels => exact levels_perm t

/-- Every order lists each node that is reached, and where the numbers differ, lists it once. -/
theorem walk_lists_reached (h : t.numbers.Nodup) (order : Order) :
    ((t.walk order).map Node.number).Nodup ∧ ∀ node, node ∈ t.walk order ↔ t.Reaches node := by
  refine ⟨((walk_perm t order).map Node.number).nodup_iff.mpr h, fun node => ?_⟩
  rw [(walk_perm t order).mem_iff, reaches_iff]

end Storyboard.Tree.Binary
