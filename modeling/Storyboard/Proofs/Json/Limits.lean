import Mathlib
import Storyboard.Json.Reader

/-!
# Limits of a reader

A reader of JSON is given fuel for its steps and a limit for the nesting of what it reads.  Both
only make it give up: what it has read with less it reads with more.
-/

namespace Storyboard.Json

/-! ## Reading with more fuel -/

mutual

/-- More fuel does not change what is read. -/
theorem valueAt_mono : ∀ {fuel : Nat} {cs : List Char} {result : Tree × List Char},
    valueAt fuel cs = some result → valueAt (fuel + 1) cs = some result
  | 0, _, _, h => nomatch h
  | fuel + 1, cs, result, h => by
    rw [valueAt] at h ⊢
    split at h
    next => cases h
    next c rest hskip =>
      dsimp only
      -- only items and members are read with the fuel that is left
      split_ifs at h ⊢ with hquote hbracket hbrace hnumber
      · exact h
      · split at h
        next => exact h
        next =>
          obtain ⟨items, hitems, rfl⟩ := Option.map_eq_some_iff.mp h
          rw [itemsAt_mono hitems]
          rfl
      · split at h
        next => exact h
        next =>
          obtain ⟨members, hmembers, rfl⟩ := Option.map_eq_some_iff.mp h
          rw [membersAt_mono hmembers]
          rfl
      · exact h
      · exact h

@[inherit_doc valueAt_mono]
theorem itemsAt_mono : ∀ {fuel : Nat} {cs : List Char} {result : List Tree × List Char},
    itemsAt fuel cs = some result → itemsAt (fuel + 1) cs = some result
  | 0, _, _, h => nomatch h
  | fuel + 1, cs, result, h => by
    rw [itemsAt] at h ⊢
    split at h
    next => cases h
    next item rest hitem =>
      rw [valueAt_mono hitem]
      dsimp only
      split at h
      next => exact h
      next =>
        obtain ⟨items, hitems, rfl⟩ := Option.map_eq_some_iff.mp h
        rw [itemsAt_mono hitems]
        rfl
      next => cases h

@[inherit_doc valueAt_mono]
theorem membersAt_mono : ∀ {fuel : Nat} {cs : List Char}
    {result : List (List Piece × Tree) × List Char},
    membersAt fuel cs = some result → membersAt (fuel + 1) cs = some result
  | 0, _, _, h => nomatch h
  | fuel + 1, cs, result, h => by
    rw [membersAt] at h ⊢
    split at h
    next rest hskip =>
      split at h
      next => cases h
      next key rest' hkey =>
        split at h
        next rest'' hcolon =>
          split at h
          next => cases h
          next value after hvalue =>
            rw [valueAt_mono hvalue]
            dsimp only
            split at h
            next => exact h
            next =>
              obtain ⟨members, hmembers, rfl⟩ := Option.map_eq_some_iff.mp h
              rw [membersAt_mono hmembers]
              rfl
            next => cases h
        next => cases h
    next => cases h

end

theorem valueAt_le {fuel more : Nat} (hle : fuel ≤ more) {cs : List Char}
    {result : Tree × List Char} (h : valueAt fuel cs = some result) :
    valueAt more cs = some result := by
  induction hle with
  | refl => exact h
  | step _ ih => exact valueAt_mono ih

/-! ## Reading with a higher limit -/

mutual

/-- What a tree denotes does not depend on how much deeper it might nest. -/
theorem value?_succ : ∀ {limit : Nat} {tree : Tree} {value : Json},
    tree.value? limit = some value → tree.value? (limit + 1) = some value
  | _, .null, _, h | _, .bool _, _, h | _, .number _, _, h | _, .string _, _, h => by
    rw [Tree.value?] at h ⊢
    exact h
  | 0, .array _, _, h | 0, .object _, _, h => by
    rw [Tree.value?] at h
    cases h
  | limit + 1, .array items, _, h => by
    rw [Tree.value?] at h ⊢
    obtain ⟨values, hvalues, rfl⟩ := Option.map_eq_some_iff.mp h
    rw [itemValues?_succ hvalues, Option.map_some]
  | limit + 1, .object members, _, h => by
    rw [Tree.value?] at h ⊢
    obtain ⟨values, hvalues, rfl⟩ := Option.map_eq_some_iff.mp h
    rw [memberValues?_succ hvalues, Option.map_some]

@[inherit_doc value?_succ]
theorem itemValues?_succ : ∀ {limit : Nat} {items : List Tree} {values : List Json},
    itemValues? limit items = some values → itemValues? (limit + 1) items = some values
  | _, [], _, h => h
  | limit, item :: rest, values, h => by
    rw [itemValues?] at h ⊢
    cases hitem : item.value? limit with
    | none =>
      rw [hitem] at h
      cases h
    | some value =>
      rw [hitem] at h
      obtain ⟨others, hothers, rfl⟩ := Option.map_eq_some_iff.mp h
      rw [value?_succ hitem]
      dsimp only
      rw [itemValues?_succ hothers, Option.map_some]

@[inherit_doc value?_succ]
theorem memberValues?_succ : ∀ {limit : Nat} {members : List (List Piece × Tree)}
    {values : List (String × Json)}, memberValues? limit members = some values →
      memberValues? (limit + 1) members = some values
  | _, [], _, h => h
  | limit, (key, tree) :: rest, values, h => by
    rw [memberValues?] at h ⊢
    cases hkey : joinString? key with
    | none =>
      rw [hkey] at h
      cases h
    | some name =>
      cases htree : tree.value? limit with
      | none =>
        rw [hkey, htree] at h
        cases h
      | some value =>
        rw [hkey, htree] at h
        obtain ⟨others, hothers, rfl⟩ := Option.map_eq_some_iff.mp h
        rw [value?_succ htree]
        dsimp only
        rw [memberValues?_succ hothers, Option.map_some]

end

end Storyboard.Json
