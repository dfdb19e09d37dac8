import Mathlib.Tactic.MkIffOfInductiveProp
import Storyboard.Proofs.Json.Canonical

/-!
# Flat objects

A step or a header is written as one object: the members of its fields, and behind them its extras,
under keys of their own.  Reading puts the members of an object in another order.  A field does not
notice, and the extras come back as the same map.
-/

namespace Storyboard

/-! ## Maps of canonical values -/

/-- Every key stands once, and every value is canonical. -/
@[mk_iff]
structure IsDataMap (entries : List (String × Json)) : Prop where
  once : KeysOnce entries
  canonical : ∀ entry ∈ entries, entry.2.IsCanonical

namespace IsDataMap

variable {entries : List (String × Json)}

theorem nil : IsDataMap [] := ⟨List.nodup_nil, nofun⟩

theorem put (h : IsDataMap entries) (key : String) {value : Json} (hvalue : value.IsCanonical) :
    IsDataMap (Ordered.put key value entries) := by
  refine ⟨h.once.put key value, fun entry hentry => ?_⟩
  rcases Ordered.mem_put hentry with rfl | hold
  · exact hvalue
  · exact h.canonical entry hold

/-- A map that was sorted and read again is only in another order. -/
theorem reread (h : IsDataMap entries) :
    variables? (Json.obj entries).canonical = some (Json.sortMembers entries) := by
  have hperm := Json.sortMembers_perm h.once
  have hsorted : Json.canonicalMembers (Json.sortMembers entries) = Json.sortMembers entries :=
    Json.canonicalMembers_eq fun entry hentry => h.canonical entry (hperm.mem_iff.mp hentry)
  rw [Json.canonical, variables?, Json.canonicalMembers_eq h.canonical, hsorted,
    (h.once.perm hperm).ofList_eq]

end IsDataMap

theorem canonicalMembers_eq_map (members : List (String × Json)) :
    Json.canonicalMembers members = members.map fun member => (member.1, member.2.canonical) := by
  induction members with
  | nil => rfl
  | cons member rest ih => rw [Json.canonicalMembers, ih, List.map_cons]

theorem KeysOnce.canonicalMembers {members : List (String × Json)} (h : KeysOnce members) :
    KeysOnce (Json.canonicalMembers members) := by
  rw [KeysOnce, canonicalMembers_eq_map, List.map_map]
  exact h

theorem lookup_canonicalMembers (key : String) (members : List (String × Json)) :
    (Json.canonicalMembers members).lookup key = (members.lookup key).map Json.canonical := by
  induction members with
  | nil => rfl
  | cons member rest ih =>
    obtain ⟨k, v⟩ := member
    rw [Json.canonicalMembers, List.lookup_cons, List.lookup_cons, ih]
    cases key == k <;> rfl

/-! ## Fields and extras -/

/-- Members under some of the keys, each once, and extras under other keys. -/
structure IsFlat (keys : List String) (fields extra : List (String × Json)) : Prop where
  keys_nodup : keys.Nodup
  fields_sublist : (fields.map Prod.fst).Sublist keys
  extra_map : IsDataMap extra
  extra_apart : ∀ entry ∈ extra, entry.1 ∉ keys

/-- The members of an object as they stand after it was written and read. -/
def rereadMembers (members : List (String × Json)) : List (String × Json) :=
  Json.sortMembers (Json.canonicalMembers members)

theorem canonical_obj (members : List (String × Json)) :
    (Json.obj members).canonical = .obj (rereadMembers members) := by
  rw [Json.canonical, rereadMembers]

theorem KeysOnce.reread_perm {members : List (String × Json)} (h : KeysOnce members) :
    (rereadMembers members).Perm (Json.canonicalMembers members) :=
  Json.sortMembers_perm h.canonicalMembers

/-- Members with distinct keys hold no field twice. -/
theorem KeysOnce.eachOnce {members : List (String × Json)} (h : KeysOnce members)
    (keys : List String) : eachOnce keys members = true := by
  rw [Storyboard.eachOnce, List.all_eq_true]
  intro key _
  rw [decide_eq_true_eq]
  have hnodup : ((members.filter fun member => member.1 == key).map Prod.fst).Nodup :=
    h.sublist (List.filter_sublist.map Prod.fst)
  have hconst : (members.filter fun member => member.1 == key).map Prod.fst =
      List.replicate (members.filter fun member => member.1 == key).length key := by
    rw [List.eq_replicate_iff]
    refine ⟨List.length_map _, fun k hk => ?_⟩
    obtain ⟨member, hmember, rfl⟩ := List.mem_map.mp hk
    exact beq_iff_eq.mp (List.mem_filter.mp hmember).2
  rw [hconst, List.nodup_replicate] at hnodup
  exact hnodup

namespace IsFlat

variable {keys : List String} {fields extra : List (String × Json)}

theorem keysOnce (h : IsFlat keys fields extra) : KeysOnce (fields ++ extra) := by
  rw [KeysOnce, List.map_append, List.nodup_append]
  refine ⟨h.keys_nodup.sublist h.fields_sublist, h.extra_map.once, ?_⟩
  rintro a ha b hb rfl
  obtain ⟨entry, hentry, rfl⟩ := List.mem_map.mp hb
  exact h.extra_apart entry hentry (h.fields_sublist.subset ha)

theorem eachOnce_reread (h : IsFlat keys fields extra) :
    eachOnce keys (rereadMembers (fields ++ extra)) = true :=
  (h.keysOnce.canonicalMembers.perm h.keysOnce.reread_perm).eachOnce keys

/-- Under the key of a field stands no extra. -/
theorem lookup (h : IsFlat keys fields extra) {key : String} (hkey : key ∈ keys) :
    (fields ++ extra).lookup key = fields.lookup key := by
  have hextra : extra.lookup key = none := by
    rw [List.lookup_eq_none_iff]
    intro entry hentry
    rw [bne_iff_ne]
    rintro rfl
    exact h.extra_apart entry hentry hkey
  rw [List.lookup_append, hextra, Option.or_none]

/-- Under the key of a field stands what was written there. -/
theorem lookup_reread (h : IsFlat keys fields extra) {key : String} (hkey : key ∈ keys) :
    (rereadMembers (fields ++ extra)).lookup key = (fields.lookup key).map Json.canonical := by
  rw [h.keysOnce.canonicalMembers.lookup_perm h.keysOnce.reread_perm, lookup_canonicalMembers,
    h.lookup hkey]

/-- The members under other keys are the extras. -/
theorem filter_members (h : IsFlat keys fields extra) :
    ((fields ++ extra).filter fun member => !keys.contains member.1) = extra := by
  have hfields : (fields.filter fun member => !keys.contains member.1) = [] := by
    rw [List.filter_eq_nil_iff]
    intro member hmember
    have hkey := h.fields_sublist.subset (List.mem_map_of_mem hmember)
    simpa using hkey
  have hextra : (extra.filter fun entry => !keys.contains entry.1) = extra := by
    rw [List.filter_eq_self]
    intro entry hentry
    simpa using h.extra_apart entry hentry
  rw [List.filter_append, hfields, hextra, List.nil_append]

/-- The members that have no field are the extras. -/
theorem otherMembers_eq (h : IsFlat keys fields extra) :
    otherMembers keys (fields ++ extra) = extra := by
  rw [otherMembers, h.filter_members, ← canonicalMembers_eq_map,
    Json.canonicalMembers_eq h.extra_map.canonical, h.extra_map.once.ofList_eq]

/-- The members that have no field are the extras, in some order. -/
theorem otherMembers_reread_perm (h : IsFlat keys fields extra) :
    (otherMembers keys (rereadMembers (fields ++ extra))).Perm extra := by
  have hothers : ((rereadMembers (fields ++ extra)).filter
      fun member => !keys.contains member.1).Perm extra := by
    refine (h.keysOnce.reread_perm.filter _).trans ?_
    have hmap : (Json.canonicalMembers (fields ++ extra)).filter
          (fun member => !keys.contains member.1) =
        Json.canonicalMembers ((fields ++ extra).filter fun member => !keys.contains member.1) := by
      rw [canonicalMembers_eq_map, canonicalMembers_eq_map, List.filter_map]
      rfl
    rw [hmap, h.filter_members, Json.canonicalMembers_eq h.extra_map.canonical]
  have hcanonical : ((rereadMembers (fields ++ extra)).filter
      fun member => !keys.contains member.1).map (fun member => (member.1, member.2.canonical)) =
        (rereadMembers (fields ++ extra)).filter fun member => !keys.contains member.1 := by
    rw [← canonicalMembers_eq_map]
    exact Json.canonicalMembers_eq fun member hmember =>
      h.extra_map.canonical member (hothers.mem_iff.mp hmember)
  rw [otherMembers, hcanonical, (h.extra_map.once.perm hothers).ofList_eq]
  exact hothers

end IsFlat

end Storyboard
