import Mathlib
import Storyboard.Proofs.Literal.Order
import Storyboard.Tree.Binary

/-!
# Ordered binary trees

In a search tree everything to the left of a node comes strictly before it and nothing to its right
does.  Insertion and removal keep this; an insertion adds its value to the values of the tree and a
removal takes one occurrence of its value away, wherever in the tree the node stands and whatever
hangs below it.
-/

namespace Storyboard.Tree.Binary

open scoped List

/-- The values from left to right. -/
def values (t : Binary) : List Literal := t.inorder.map Node.value

/-- The numbers of the nodes from left to right. -/
def numbers (t : Binary) : List Nat := t.inorder.map Node.number

/-- Left subtrees are strictly smaller than their node, right subtrees not smaller. -/
inductive Ordered : Binary → Prop where
  | leaf : Ordered leaf
  | branch {node : Node} {l r : Binary} (smaller : ∀ v ∈ l.values, v.before node.value = true)
      (notSmaller : ∀ v ∈ r.values, ¬ v.before node.value = true)
      (hleft : Ordered l) (hright : Ordered r) : Ordered (branch node l r)

variable {node new : Node} {l r rest t t' : Binary} {value v : Literal}

@[simp] theorem values_leaf : leaf.values = [] := rfl

@[simp] theorem values_branch : (branch node l r).values =
    l.values ++ node.value :: r.values := by
  rw [values, inorder, List.map_append, List.map_cons]
  rfl

@[simp] theorem numbers_branch : (branch node l r).numbers =
    l.numbers ++ node.number :: r.numbers := by
  rw [numbers, inorder, List.map_append, List.map_cons]
  rfl

/-- No value of the tree holds a double. -/
def IsFloatFree (t : Binary) : Prop := ∀ v ∈ t.values, v.isFloatFree = true

theorem IsFloatFree.left (h : (branch node l r).IsFloatFree) : l.IsFloatFree := by
  intro v hv
  exact h v (by simp [hv])

theorem IsFloatFree.right (h : (branch node l r).IsFloatFree) : r.IsFloatFree := by
  intro v hv
  exact h v (by simp [hv])

theorem IsFloatFree.root (h : (branch node l r).IsFloatFree) :
    node.value.isFloatFree = true :=
  h node.value (by simp)

/-- The values of an ordered tree are sorted. -/
theorem Ordered.pairwise (ht : t.Ordered) (hfree : t.IsFloatFree) :
    t.values.Pairwise fun a b => ¬ b.before a = true := by
  induction ht with
  | leaf => exact List.Pairwise.nil
  | @branch node left right hsmall hnot hleft hright ihl ihr =>
    rw [values_branch, List.pairwise_append, List.pairwise_cons]
    refine ⟨ihl hfree.left, ⟨hnot, ihr hfree.right⟩, ?_⟩
    intro a ha b hb hba
    have hroot : ¬ b.before node.value = true := by
      rcases List.mem_cons.mp hb with rfl | hb
      · exact Literal.not_before_self _
      · exact hnot b hb
    have hbfree : b.isFloatFree = true := hfree b (by
      rw [values_branch]
      exact List.mem_append_right _ hb)
    exact hroot (Literal.before_trans hbfree (hfree.left a ha) hfree.root hba (hsmall a ha))

/-! ## Insertion -/

/-- An insertion adds its node and keeps all others. -/
theorem inorder_insert : (t.insert new).inorder.Perm (new :: t.inorder) := by
  induction t with
  | leaf => exact List.Perm.refl _
  | branch node left right ihl ihr =>
    rw [insert]
    split
    · exact ihl.append_right _
    · calc left.inorder ++ node :: (right.insert new).inorder
          _ ~ left.inorder ++ node :: new :: right.inorder :=
            (ihr.cons node).append_left left.inorder
          _ ~ left.inorder ++ new :: node :: right.inorder :=
            (List.Perm.swap new node right.inorder).append_left left.inorder
          _ ~ new :: (left.inorder ++ node :: right.inorder) := List.perm_middle

theorem values_insert : (t.insert new).values.Perm (new.value :: t.values) :=
  inorder_insert.map Node.value

theorem numbers_insert : (t.insert new).numbers.Perm (new.number :: t.numbers) :=
  inorder_insert.map Node.number

theorem mem_values_insert : v ∈ (t.insert new).values ↔ v = new.value ∨ v ∈ t.values := by
  rw [values_insert.mem_iff, List.mem_cons]

theorem Ordered.insert (ht : t.Ordered) : (t.insert new).Ordered := by
  induction ht with
  | leaf => exact .branch nofun nofun .leaf .leaf
  | branch hsmall hnot hleft hright ihl ihr =>
    rw [Binary.insert]
    split
    case isTrue hbefore =>
      refine .branch (fun v hv => ?_) hnot ihl hright
      rcases mem_values_insert.mp hv with rfl | hv
      · exact hbefore
      · exact hsmall v hv
    case isFalse hbefore =>
      refine .branch hsmall (fun v hv => ?_) hleft ihr
      rcases mem_values_insert.mp hv with rfl | hv
      · exact hbefore
      · exact hnot v hv

theorem IsFloatFree.insert (ht : t.IsFloatFree) (hnew : new.value.isFloatFree = true) :
    (t.insert new).IsFloatFree := by
  intro v hv
  rcases mem_values_insert.mp hv with rfl | hv
  · exact hnew
  · exact ht v hv

/-! ## Search -/

/-- A search finds exactly the values of the tree. -/
theorem Ordered.find?_isSome (ht : t.Ordered) (hfree : t.IsFloatFree)
    (hvalue : value.isFloatFree = true) : (t.find? value).isSome = true ↔ value ∈ t.values := by
  induction ht with
  | leaf => simp [find?]
  | @branch node left right hsmall hnot hleft hright ihl ihr =>
    rw [find?, values_branch, List.mem_append, List.mem_cons]
    by_cases hsame : value.same node.value = true
    · rw [if_pos hsame]
      simp [(Literal.same_iff hvalue hfree.root).mp hsame]
    have hne : value ≠ node.value := fun h => hsame ((Literal.same_iff hvalue hfree.root).mpr h)
    rw [if_neg hsame]
    by_cases hbefore : value.before node.value = true
    · have hright : value ∉ right.values := fun hmem => hnot value hmem hbefore
      rw [if_pos hbefore, ihl hfree.left]
      simp [hne, hright]
    · have hleft : value ∉ left.values := fun hmem => hbefore (hsmall value hmem)
      rw [if_neg hbefore, ihr hfree.right]
      simp [hne, hleft]

/-- A removal finds what a search finds, in every tree. -/
theorem remove?_isSome (value : Literal) (t : Binary) :
    (t.remove? value).isSome = (t.find? value).isSome := by
  induction t with
  | leaf => rfl
  | branch node left right ihl ihr =>
    rw [remove?, find?]
    split
    · rfl
    · split
      · rw [Option.isSome_map, ihl]
      · rw [Option.isSome_map, ihr]

/-! ## The leftmost node -/

theorem popLeftmost?_eq_none : t.popLeftmost? = none ↔ t = leaf := by
  cases t with
  | leaf => simp [popLeftmost?]
  | branch node left right =>
    rw [popLeftmost?]
    split <;> simp

/-- The leftmost node is the first one, and the others stay as they were. -/
theorem popLeftmost?_eq_some (h : t.popLeftmost? = some (v, rest)) :
    ∃ node : Node, node.value = v ∧ t.inorder = node :: rest.inorder := by
  induction t generalizing rest with
  | leaf => cases h
  | branch node left right ihl =>
    rw [popLeftmost?] at h
    split at h
    case h_1 value rest' hleft =>
      cases h
      obtain ⟨first, hfirst, hinorder⟩ := ihl hleft
      exact ⟨first, hfirst, by rw [inorder, hinorder, inorder, List.cons_append]⟩
    case h_2 hleft =>
      cases h
      refine ⟨node, rfl, ?_⟩
      rw [popLeftmost?_eq_none.mp hleft]
      rfl

theorem values_popLeftmost? (h : t.popLeftmost? = some (v, rest)) :
    t.values = v :: rest.values := by
  obtain ⟨node, rfl, hinorder⟩ := popLeftmost?_eq_some h
  rw [values, hinorder]
  rfl

theorem numbers_popLeftmost? (h : t.popLeftmost? = some (v, rest)) :
    ∃ number, t.numbers = number :: rest.numbers := by
  obtain ⟨node, -, hinorder⟩ := popLeftmost?_eq_some h
  refine ⟨node.number, ?_⟩
  rw [numbers, hinorder]
  rfl

theorem numbers_popLeftmost?_subset (h : t.popLeftmost? = some (v, rest)) :
    rest.numbers ⊆ t.numbers := by
  obtain ⟨number, hnumbers⟩ := numbers_popLeftmost? h
  rw [hnumbers]
  exact List.subset_cons_self number rest.numbers

theorem Ordered.popLeftmost? (ht : t.Ordered) (h : t.popLeftmost? = some (v, rest)) :
    rest.Ordered := by
  induction ht generalizing rest with
  | leaf => cases h
  | branch hsmall hnot hleft hright ihl =>
    rw [Binary.popLeftmost?] at h
    split at h
    case h_1 u rest' hpop =>
      cases h
      refine .branch (fun u hu => hsmall u ?_) hnot (ihl hpop) hright
      rw [values_popLeftmost? hpop]
      exact List.mem_cons_of_mem _ hu
    case h_2 =>
      cases h
      exact hright

/-! ## Removal -/

theorem removeRoot_leaf_left : (removeRoot node leaf r).1 = r := by
  cases h : r.popLeftmost? with
  | none =>
    rw [popLeftmost?_eq_none.mp h]
    rfl
  | some popped => simp only [removeRoot, h]

theorem removeRoot_leaf_right : (removeRoot node l leaf).1 = l := by
  cases l <;> rfl

theorem removeRoot_of_popLeftmost? (hl : l ≠ leaf) (h : r.popLeftmost? = some (v, rest)) :
    (removeRoot node l r).1 = branch { node with value := v } l rest := by
  cases l with
  | leaf => exact absurd rfl hl
  | branch lnode lleft lright => simp only [removeRoot, h]

/-- The two ways in which a root is removed: the tree falls together to one subtree, or the root
takes the first value of the right subtree. -/
theorem removeRoot_cases (node : Node) (l r : Binary) :
    (l = leaf ∧ (removeRoot node l r).1 = r) ∨ (r = leaf ∧ (removeRoot node l r).1 = l) ∨
    ∃ successor rest, r.popLeftmost? = some (successor, rest) ∧
      (removeRoot node l r).1 = branch { node with value := successor } l rest := by
  by_cases hl : l = leaf
  · subst hl
    exact Or.inl ⟨rfl, removeRoot_leaf_left⟩
  · refine Or.inr ?_
    cases h : r.popLeftmost? with
    | none =>
      obtain rfl := popLeftmost?_eq_none.mp h
      exact Or.inl ⟨rfl, removeRoot_leaf_right⟩
    | some popped => exact Or.inr ⟨popped.1, popped.2, rfl, removeRoot_of_popLeftmost? hl h⟩

/-- Removing the root takes its value away and keeps all others in their order. -/
theorem values_removeRoot : (removeRoot node l r).1.values = l.values ++ r.values := by
  obtain ⟨rfl, h⟩ | ⟨rfl, h⟩ | ⟨successor, rest, hpop, h⟩ := removeRoot_cases node l r
  · rw [h, values_leaf, List.nil_append]
  · rw [h, values_leaf, List.append_nil]
  · rw [h, values_branch, values_popLeftmost? hpop]

theorem numbers_removeRoot : (removeRoot node l r).1.numbers.Sublist
    (branch node l r).numbers := by
  obtain ⟨rfl, h⟩ | ⟨rfl, h⟩ | ⟨successor, rest, hpop, h⟩ := removeRoot_cases node l r
  · rw [h]
    exact List.sublist_cons_self node.number r.numbers
  · rw [h, numbers_branch]
    exact List.sublist_append_left l.numbers [node.number]
  · obtain ⟨first, hnumbers⟩ := numbers_popLeftmost? hpop
    rw [h, numbers_branch, numbers_branch, hnumbers]
    exact ((List.sublist_cons_self first rest.numbers).cons_cons node.number).append_left _

theorem Ordered.removeRoot (ht : (Binary.branch node l r).Ordered)
    (hfree : (Binary.branch node l r).IsFloatFree) :
    (removeRoot node l r).1.Ordered := by
  obtain _ | ⟨hsmall, hnot, hleft, hright⟩ := ht
  obtain ⟨-, h⟩ | ⟨-, h⟩ | ⟨successor, rest, hpop, h⟩ := removeRoot_cases node l r
  · rwa [h]
  · rwa [h]
  · rw [h]
    have hvalues := values_popLeftmost? hpop
    have hmem : successor ∈ r.values := by rw [hvalues]; exact List.mem_cons_self
    have hsorted := hright.pairwise hfree.right
    rw [hvalues, List.pairwise_cons] at hsorted
    refine .branch (fun u hu => ?_) hsorted.1 hleft (hright.popLeftmost? hpop)
    exact Literal.before_of_not_before (hfree.left u hu) hfree.root (hfree.right _ hmem)
      (hsmall u hu) (hnot _ hmem)

variable {removal : Removal}

/-- Where a removal takes place: at the root, or in the subtree on whose side the value lies. -/
theorem remove?_branch_eq_some (h : (branch node l r).remove? value = some (t', removal)) :
    (value.same node.value = true ∧ t' = (removeRoot node l r).1) ∨
    (∃ l', l.remove? value = some (l', removal) ∧ t' = branch node l' r) ∨
    ∃ r', r.remove? value = some (r', removal) ∧ t' = branch node l r' := by
  rw [remove?] at h
  split at h
  case isTrue hsame =>
    exact Or.inl ⟨hsame, (congrArg Prod.fst (Option.some_inj.mp h)).symm⟩
  case isFalse =>
    split at h
    · obtain ⟨⟨left', removal'⟩, hremove, heq⟩ := Option.map_eq_some_iff.mp h
      cases heq
      exact Or.inr (Or.inl ⟨left', hremove, rfl⟩)
    · obtain ⟨⟨right', removal'⟩, hremove, heq⟩ := Option.map_eq_some_iff.mp h
      cases heq
      exact Or.inr (Or.inr ⟨right', hremove, rfl⟩)

/-- A removal takes one occurrence of its value away and keeps all other values in their order. -/
theorem values_remove? (h : t.remove? value = some (t', removal)) :
    ∃ before found after, value.same found = true ∧ t.values = before ++ found :: after ∧
      t'.values = before ++ after := by
  induction t generalizing t' with
  | leaf => cases h
  | branch node left right ihl ihr =>
    obtain ⟨hsame, rfl⟩ | ⟨l', hremove, rfl⟩ | ⟨r', hremove, rfl⟩ := remove?_branch_eq_some h
    · exact ⟨left.values, node.value, right.values, hsame, values_branch, values_removeRoot⟩
    · obtain ⟨before, found, after, hsame, hold, hnew⟩ := ihl hremove
      refine ⟨before, found, after ++ node.value :: right.values, hsame, ?_, ?_⟩
      · rw [values_branch, hold, List.append_assoc, List.cons_append]
      · rw [values_branch, hnew, List.append_assoc]
    · obtain ⟨before, found, after, hsame, hold, hnew⟩ := ihr hremove
      refine ⟨left.values ++ node.value :: before, found, after, hsame, ?_, ?_⟩
      · rw [values_branch, hold, List.append_assoc, List.cons_append]
      · rw [values_branch, hnew, List.append_assoc, List.cons_append]

theorem mem_of_mem_remove? (h : t.remove? value = some (t', removal)) (hv : v ∈ t'.values) :
    v ∈ t.values := by
  obtain ⟨before, found, after, -, hold, hnew⟩ := values_remove? h
  rw [hnew, List.mem_append] at hv
  rw [hold, List.mem_append, List.mem_cons]
  exact hv.imp_right Or.inr

/-- The node that goes is the only change to the numbers. -/
theorem numbers_remove? (h : t.remove? value = some (t', removal)) :
    t'.numbers.Sublist t.numbers := by
  induction t generalizing t' with
  | leaf => cases h
  | branch node left right ihl ihr =>
    obtain ⟨-, rfl⟩ | ⟨l', hremove, rfl⟩ | ⟨r', hremove, rfl⟩ := remove?_branch_eq_some h
    · exact numbers_removeRoot
    · rw [numbers_branch, numbers_branch]
      exact (ihl hremove).append_right _
    · rw [numbers_branch, numbers_branch]
      exact ((ihr hremove).cons_cons node.number).append_left _

theorem IsFloatFree.remove? (ht : t.IsFloatFree) (h : t.remove? value = some (t', removal)) :
    t'.IsFloatFree :=
  fun _ hv => ht _ (mem_of_mem_remove? h hv)

theorem Ordered.remove? (ht : t.Ordered) (hfree : t.IsFloatFree)
    (h : t.remove? value = some (t', removal)) : t'.Ordered := by
  induction ht generalizing t' with
  | leaf => cases h
  | branch hsmall hnot hleft hright ihl ihr =>
    obtain ⟨-, rfl⟩ | ⟨l', hremove, rfl⟩ | ⟨r', hremove, rfl⟩ := remove?_branch_eq_some h
    · exact Ordered.removeRoot (.branch hsmall hnot hleft hright) hfree
    · refine .branch (fun u hu => ?_) hnot (ihl hfree.left hremove) hright
      exact hsmall u (mem_of_mem_remove? hremove hu)
    · refine .branch hsmall (fun u hu => ?_) hleft (ihr hfree.right hremove)
      exact hnot u (mem_of_mem_remove? hremove hu)

end Storyboard.Tree.Binary
