import Mathlib.Data.List.Basic
import Mathlib.Data.List.Nodup
import Mathlib.Data.List.Perm.Basic
import Mathlib.Data.String.Basic
import Storyboard.Literal.Writer
import Storyboard.Story.Step

/-!
# Canonical values

Sorting members puts them in another order and nothing else, as long as every key stands once.  The
value of a literal is canonical: its objects are sorted when they are made.
-/

namespace Storyboard

/-! ## Maps with distinct keys -/

namespace Ordered

variable {α : Type} {key : String} {value : α} {entries : List (String × α)}

/-- What a write leaves behind is what was written, or stood there before. -/
theorem mem_put {entry : String × α} (h : entry ∈ put key value entries) :
    entry = (key, value) ∨ entry ∈ entries := by
  induction entries with
  | nil => exact Or.inl (List.mem_singleton.mp h)
  | cons head rest ih =>
    obtain ⟨k, v⟩ := head
    rw [put] at h
    split at h
    next hk =>
      rcases List.mem_cons.mp h with rfl | hrest
      · exact Or.inl (by rw [hk])
      · exact Or.inr (List.mem_cons_of_mem _ hrest)
    next =>
      rcases List.mem_cons.mp h with rfl | hrest
      · exact Or.inr List.mem_cons_self
      · exact (ih hrest).imp_right (List.mem_cons_of_mem _)

/-- A new key goes to the end. -/
theorem put_of_not_mem (h : key ∉ entries.map Prod.fst) :
    put key value entries = entries ++ [(key, value)] := by
  induction entries with
  | nil => rfl
  | cons head rest ih =>
    obtain ⟨k, v⟩ := head
    rw [List.map_cons, List.mem_cons, not_or] at h
    rw [put, if_neg fun heq => h.1 heq.symm, ih h.2]
    rfl

theorem find?_eq_lookup (key : String) (entries : List (String × α)) :
    find? key entries = entries.lookup key := by
  induction entries with
  | nil => rfl
  | cons entry rest ih =>
    obtain ⟨k, v⟩ := entry
    rw [find?, List.lookup_cons, ih]
    by_cases h : k = key
    · rw [if_pos h, beq_iff_eq.mpr h.symm]
    · rw [if_neg h, beq_false_of_ne (Ne.symm h)]

end Ordered

/-- Every key stands once. -/
def KeysOnce {α : Type} (members : List (String × α)) : Prop := (members.map Prod.fst).Nodup

namespace KeysOnce

variable {α : Type} {members : List (String × α)}

theorem lookup_eq_some_iff (h : KeysOnce members) {key : String} {value : α} :
    members.lookup key = some value ↔ (key, value) ∈ members := by
  induction members with
  | nil => simp
  | cons member rest ih =>
    obtain ⟨k, v⟩ := member
    rw [KeysOnce, List.map_cons, List.nodup_cons] at h
    by_cases hk : key = k
    · subst hk
      simp only [List.lookup_cons_self, Option.some.injEq, List.mem_cons, Prod.mk.injEq, true_and]
      constructor
      · rintro rfl
        exact Or.inl rfl
      · rintro (rfl | hmem)
        · rfl
        · exact absurd (List.mem_map_of_mem hmem) h.1
    · rw [List.lookup_cons, beq_false_of_ne hk]
      dsimp only
      rw [ih h.2, List.mem_cons, Prod.mk.injEq]
      exact ⟨Or.inr, fun hor => hor.resolve_left fun heq => hk heq.1⟩

theorem perm (h : KeysOnce members) {others : List (String × α)} (hperm : others.Perm members) :
    KeysOnce others :=
  ((hperm.map Prod.fst).nodup_iff).mpr h

/-- Reading a map does not depend on its order. -/
theorem lookup_perm (h : KeysOnce members) {others : List (String × α)}
    (hperm : others.Perm members) (key : String) : others.lookup key = members.lookup key := by
  apply Option.ext
  intro value
  rw [(h.perm hperm).lookup_eq_some_iff, h.lookup_eq_some_iff, hperm.mem_iff]

/-- A map keeps its keys apart when something is written into it. -/
theorem put (h : KeysOnce members) (key : String) (value : α) :
    KeysOnce (Ordered.put key value members) := by
  induction members with
  | nil => exact List.nodup_singleton key
  | cons member rest ih =>
    obtain ⟨k, v⟩ := member
    rw [KeysOnce, List.map_cons, List.nodup_cons] at h
    rw [Ordered.put]
    split
    next => exact List.nodup_cons.mpr h
    next hk =>
      refine List.nodup_cons.mpr ⟨fun hmem => ?_, ih h.2⟩
      obtain ⟨entry, hentry, heq⟩ := List.mem_map.mp hmem
      rcases Ordered.mem_put hentry with rfl | hold
      · exact hk heq.symm
      · exact h.1 (List.mem_map.mpr ⟨entry, hold, heq⟩)

/-- Writing the members of a map one after the other gives the map. -/
theorem ofList_eq (h : KeysOnce members) : Ordered.ofList members = members := by
  have hfold : ∀ written : List (String × α), KeysOnce (written ++ members) →
      members.foldl (fun entries pair => Ordered.put pair.1 pair.2 entries) written =
        written ++ members := by
    clear h
    induction members with
    | nil => intro written _; rw [List.append_nil]; rfl
    | cons member rest ih =>
      intro written h
      have hfresh : member.1 ∉ written.map Prod.fst := by
        rw [KeysOnce, List.map_append, List.map_cons] at h
        exact fun hmem => (List.nodup_append.mp h).2.2 _ hmem _ List.mem_cons_self rfl
      rw [List.append_cons] at h
      rw [List.foldl_cons, Ordered.put_of_not_mem hfresh, ih _ h, ← List.append_cons]
  exact hfold [] h

end KeysOnce

namespace Json

theorem insertMember_perm {key : String} {value : Json} {members : List (String × Json)}
    (h : key ∉ members.map Prod.fst) :
    (insertMember key value members).Perm ((key, value) :: members) := by
  induction members with
  | nil => exact .refl _
  | cons member rest ih =>
    obtain ⟨k, v⟩ := member
    rw [List.map_cons, List.mem_cons, not_or] at h
    rw [insertMember, if_neg fun heq => h.1 heq.symm]
    split
    · exact .refl _
    · exact ((ih h.2).cons _).trans (.swap _ _ _)

theorem foldl_insertMember_perm (members sorted : List (String × Json))
    (h : KeysOnce (sorted ++ members)) :
    (members.foldl (fun sorted member => insertMember member.1 member.2 sorted) sorted).Perm
      (sorted ++ members) := by
  induction members generalizing sorted with
  | nil => rw [List.append_nil]; exact .refl _
  | cons member rest ih =>
    have hfresh : member.1 ∉ sorted.map Prod.fst := by
      rw [KeysOnce, List.map_append, List.map_cons] at h
      exact fun hmem => (List.nodup_append.mp h).2.2 _ hmem _ List.mem_cons_self rfl
    have hstep : (insertMember member.1 member.2 sorted).Perm (member :: sorted) :=
      insertMember_perm hfresh
    have hmoved : (insertMember member.1 member.2 sorted ++ rest).Perm (sorted ++ member :: rest) :=
      (hstep.append_right rest).trans List.perm_middle.symm
    exact (ih _ (h.perm hmoved)).trans hmoved

/-- Sorting members with distinct keys only puts them in order. -/
theorem sortMembers_perm {members : List (String × Json)} (h : KeysOnce members) :
    (sortMembers members).Perm members :=
  foldl_insertMember_perm members [] h

/-! ## Sorted members -/

/-- The keys are in increasing order. -/
def KeysSorted (members : List (String × Json)) : Prop :=
  members.Pairwise fun a b => a.1 < b.1

theorem mem_insertMember {key : String} {value : Json} {members : List (String × Json)}
    {member : String × Json} (h : member ∈ insertMember key value members) :
    member = (key, value) ∨ member ∈ members := by
  induction members with
  | nil => exact Or.inl (List.mem_singleton.mp h)
  | cons head rest ih =>
    obtain ⟨k, v⟩ := head
    rw [insertMember] at h
    split at h
    next =>
      exact (List.mem_cons.mp h).imp_right (List.mem_cons_of_mem _)
    next =>
      split at h
      next => exact List.mem_cons.mp h
      next =>
        rcases List.mem_cons.mp h with rfl | hrest
        · exact Or.inr List.mem_cons_self
        · exact (ih hrest).imp_right (List.mem_cons_of_mem _)

theorem insertMember_sorted {members : List (String × Json)} (h : KeysSorted members) (key : String)
    (value : Json) : KeysSorted (insertMember key value members) := by
  induction members with
  | nil => exact List.pairwise_singleton _ _
  | cons head rest ih =>
    obtain ⟨k, v⟩ := head
    obtain ⟨hhead, hrest⟩ := List.pairwise_cons.mp h
    rw [insertMember]
    split
    next hk =>
      subst hk
      exact List.pairwise_cons.mpr ⟨hhead, hrest⟩
    next hk =>
      split
      next hlt =>
        refine List.pairwise_cons.mpr ⟨fun member hmem => ?_, h⟩
        rcases List.mem_cons.mp hmem with rfl | hmem
        · exact hlt
        · exact lt_trans hlt (hhead member hmem)
      next hlt =>
        refine List.pairwise_cons.mpr ⟨fun member hmem => ?_, ih hrest⟩
        rcases mem_insertMember hmem with rfl | hmem
        · exact lt_of_le_of_ne (not_lt.mp hlt) hk
        · exact hhead member hmem

theorem sortMembers_sorted (members : List (String × Json)) : KeysSorted (sortMembers members) := by
  have hfold : ∀ sorted : List (String × Json), KeysSorted sorted →
      KeysSorted (members.foldl (fun sorted member => insertMember member.1 member.2 sorted)
        sorted) := by
    induction members with
    | nil => exact fun _ h => h
    | cons member rest ih => exact fun sorted h => ih _ (insertMember_sorted h _ _)
  exact hfold [] List.Pairwise.nil

theorem mem_sortMembers {members : List (String × Json)} {member : String × Json}
    (h : member ∈ sortMembers members) : member ∈ members := by
  have hfold : ∀ sorted : List (String × Json),
      member ∈ members.foldl (fun sorted member => insertMember member.1 member.2 sorted) sorted →
        member ∈ sorted ∨ member ∈ members := by
    clear h
    induction members with
    | nil => exact fun _ h => Or.inl h
    | cons head rest ih =>
      intro sorted h
      rcases ih _ h with h | h
      · rcases mem_insertMember h with rfl | h
        · exact Or.inr List.mem_cons_self
        · exact Or.inl h
      · exact Or.inr (List.mem_cons_of_mem _ h)
  exact (hfold [] h).resolve_left List.not_mem_nil

/-- A key that comes last goes to the end. -/
theorem insertMember_last {key : String} {value : Json} {members : List (String × Json)}
    (h : ∀ member ∈ members, member.1 < key) :
    insertMember key value members = members ++ [(key, value)] := by
  induction members with
  | nil => rfl
  | cons head rest ih =>
    obtain ⟨k, v⟩ := head
    rw [List.forall_mem_cons] at h
    rw [insertMember, if_neg h.1.ne, if_neg h.1.not_gt, ih h.2]
    rfl

/-- Members in order are left as they are. -/
theorem sortMembers_of_sorted {members : List (String × Json)} (h : KeysSorted members) :
    sortMembers members = members := by
  have hfold : ∀ sorted : List (String × Json), KeysSorted (sorted ++ members) →
      members.foldl (fun sorted member => insertMember member.1 member.2 sorted) sorted =
        sorted ++ members := by
    clear h
    induction members with
    | nil => intro sorted _; rw [List.append_nil]; rfl
    | cons member rest ih =>
      intro sorted h
      have hlast : ∀ m ∈ sorted, m.1 < member.1 := fun m hm =>
        (List.pairwise_append.mp h).2.2 m hm member List.mem_cons_self
      rw [List.append_cons] at h
      rw [List.foldl_cons, insertMember_last hlast, ih _ h, ← List.append_cons]
  exact hfold [] h

/-! ## Canonical form -/

/-- Every object in the value has its keys in increasing order, each once. -/
def IsCanonical (value : Json) : Prop := value.canonical = value

theorem canonicalItems_eq {items : List Json} (h : ∀ item ∈ items, item.IsCanonical) :
    canonicalItems items = items := by
  induction items with
  | nil => rfl
  | cons item rest ih =>
    rw [List.forall_mem_cons] at h
    rw [canonicalItems, h.1, ih h.2]

theorem canonicalMembers_eq {members : List (String × Json)}
    (h : ∀ member ∈ members, member.2.IsCanonical) : canonicalMembers members = members := by
  induction members with
  | nil => rfl
  | cons member rest ih =>
    rw [List.forall_mem_cons] at h
    rw [canonicalMembers, h.1, ih h.2]

theorem isCanonical_arr {items : List Json} (h : ∀ item ∈ items, item.IsCanonical) :
    (arr items).IsCanonical := by
  rw [IsCanonical, canonical, canonicalItems_eq h]

theorem isCanonical_object {members : List (String × Json)}
    (h : ∀ member ∈ members, member.2.IsCanonical) : (object members).IsCanonical := by
  rw [IsCanonical, object, canonical,
    canonicalMembers_eq fun member hmem => h member (mem_sortMembers hmem),
    sortMembers_of_sorted (sortMembers_sorted members)]

@[simp] theorem isCanonical_bool (b : Bool) : (bool b).IsCanonical := rfl

@[simp] theorem isCanonical_str (s : String) : (str s).IsCanonical := rfl

@[simp] theorem isCanonical_ofNat (n : Nat) : (ofNat n).IsCanonical := rfl

theorem isCanonical_ofFloat (x : Float) : (ofFloat x).IsCanonical := by
  unfold ofFloat
  split <;> rfl

end Json

namespace Literal

mutual

/-- The value of a literal is canonical. -/
theorem isCanonical_toJson : ∀ literal : Literal, literal.toJson.IsCanonical
  | none => rfl
  | bool _ => rfl
  | int _ => rfl
  | float x => Json.isCanonical_ofFloat x
  | text _ => rfl
  | tuple items => Json.isCanonical_arr (isCanonical_jsonItems items)
  | list items => Json.isCanonical_arr (isCanonical_jsonItems items)
  | dict entries => Json.isCanonical_object (isCanonical_jsonMembers entries)

@[inherit_doc isCanonical_toJson]
theorem isCanonical_jsonItems : ∀ items : List Literal, ∀ item ∈ jsonItems items, item.IsCanonical
  | [], _, h => absurd h List.not_mem_nil
  | literal :: rest, item, h => by
    rw [jsonItems] at h
    rcases List.mem_cons.mp h with rfl | h
    · exact isCanonical_toJson literal
    · exact isCanonical_jsonItems rest item h

@[inherit_doc isCanonical_toJson]
theorem isCanonical_jsonMembers : ∀ entries : List (Literal × Literal),
    ∀ member ∈ jsonMembers entries, member.2.IsCanonical
  | [], _, h => absurd h List.not_mem_nil
  | (_, value) :: rest, member, h => by
    rw [jsonMembers] at h
    rcases List.mem_cons.mp h with rfl | h
    · exact isCanonical_toJson value
    · exact isCanonical_jsonMembers rest member h

end

attribute [simp] isCanonical_toJson

/-- The array of items is canonical. -/
@[simp]
theorem isCanonical_array (items : List Literal) : (Json.arr (jsonItems items)).IsCanonical :=
  Json.isCanonical_arr (isCanonical_jsonItems items)

@[simp]
theorem isCanonical_toJson? (value : Option Literal) : (toJson? value).IsCanonical := by
  cases value with
  | none => rfl
  | some value => exact isCanonical_toJson value

end Literal

end Storyboard
