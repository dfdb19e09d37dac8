import Mathlib
import Storyboard.Literal.Order

/-!
# The order of literals without doubles

Comparing a number with a double goes through the doubles, where different integers may meet.
Where no double stands, comparing is a linear order: literals of different kinds are told apart by
the places of their kinds, literals of one kind by what they are made of, and only equal literals
compare equal.
-/

namespace Storyboard.Literal

/-! ## Literals without doubles -/

mutual

/-- No double stands in the literal. -/
def isFloatFree : Literal → Bool
  | float _ => false
  | tuple items | list items => areFloatFree items
  | dict entries => entriesAreFloatFree entries
  | _ => true

@[inherit_doc isFloatFree]
def areFloatFree : List Literal → Bool
  | [] => true
  | item :: rest => isFloatFree item && areFloatFree rest

@[inherit_doc isFloatFree]
def entriesAreFloatFree : List (Literal × Literal) → Bool
  | [] => true
  | (key, value) :: rest => isFloatFree key && isFloatFree value && entriesAreFloatFree rest

end

/-! ## Kinds -/

variable {a b c : Literal}

/-- Literals of different kinds are compared by their kinds. -/
theorem cmp_of_rank_ne (h : a.rank ≠ b.rank) : cmp a b = compare a.rank b.rank := by
  cases a <;> cases b <;> first | rfl | exact absurd rfl h

theorem rank_eq_of_cmp_eq (h : cmp a b = .eq) : a.rank = b.rank := by
  by_contra hne
  rw [cmp_of_rank_ne hne, Nat.compare_eq_eq] at h
  exact hne h

theorem cmp_of_rank_lt (h : a.rank < b.rank) : cmp a b = .lt := by
  rw [cmp_of_rank_ne h.ne, Nat.compare_eq_lt]
  exact h

theorem rank_le_of_cmp_lt (h : cmp a b = .lt) : a.rank ≤ b.rank := by
  by_contra hlt
  rw [cmp_of_rank_ne (by omega), Nat.compare_eq_lt] at h
  omega

/-! ## Reflexivity and symmetry -/

mutual

/-- A literal compares equal to itself. -/
theorem cmp_self : ∀ a : Literal, cmp a a = .eq
  | .none => rfl
  | .bool b => by rw [cmp, Nat.compare_eq_eq]
  | .int n => by rw [cmp, Std.compare_eq_iff_eq]
  | .float x => by rw [cmp, compareFloats, Std.compare_eq_iff_eq]
  | .text s => by rw [cmp, Std.compare_eq_iff_eq]
  | .tuple items | .list items => by rw [cmp, cmpItems_self items]
  | .dict entries => by rw [cmp, cmpEntries_self entries]

@[inherit_doc cmp_self]
theorem cmpItems_self : ∀ items : List Literal, cmpItems items items = .eq
  | [] => rfl
  | item :: rest => by rw [cmpItems, cmp_self item, cmpItems_self rest]; rfl

@[inherit_doc cmp_self]
theorem cmpEntries_self : ∀ entries : List (Literal × Literal), cmpEntries entries entries = .eq
  | [] => rfl
  | (key, value) :: rest => by
    rw [cmpEntries, cmp_self key, cmp_self value, cmpEntries_self rest]
    rfl

end

theorem compareFloats_swap (x y : Float) : (compareFloats x y).swap = compareFloats y x :=
  Std.OrientedOrd.eq_swap.symm

mutual

/-- Comparing the other way round gives the opposite. -/
theorem cmp_swap : ∀ a b : Literal, (cmp a b).swap = cmp b a
  | .none, b => by cases b <;> rfl
  | .bool x, b => by
    cases b with
    | bool y => exact Std.OrientedOrd.eq_swap.symm
    | _ => rfl
  | .int n, b => by
    cases b with
    | int m => exact Std.OrientedOrd.eq_swap.symm
    | float y => exact compareFloats_swap _ _
    | _ => rfl
  | .float x, b => by
    cases b with
    | int m => exact compareFloats_swap _ _
    | float y => exact compareFloats_swap _ _
    | _ => rfl
  | .text s, b => by
    cases b with
    | text t => exact Std.OrientedOrd.eq_swap.symm
    | _ => rfl
  | .tuple as, b => by
    cases b with
    | tuple bs => rw [cmp, cmp, cmpItems_swap as bs]
    | _ => rfl
  | .list as, b => by
    cases b with
    | list bs => rw [cmp, cmp, cmpItems_swap as bs]
    | _ => rfl
  | .dict as, b => by
    cases b with
    | dict bs => rw [cmp, cmp, cmpEntries_swap as bs]
    | _ => rfl

@[inherit_doc cmp_swap]
theorem cmpItems_swap : ∀ as bs : List Literal, (cmpItems as bs).swap = cmpItems bs as
  | [], [] => rfl
  | [], _ :: _ => rfl
  | _ :: _, [] => rfl
  | a :: as, b :: bs => by
    rw [cmpItems, cmpItems, Ordering.swap_then, cmp_swap a b, cmpItems_swap as bs]

@[inherit_doc cmp_swap]
theorem cmpEntries_swap : ∀ as bs : List (Literal × Literal),
    (cmpEntries as bs).swap = cmpEntries bs as
  | [], [] => rfl
  | [], _ :: _ => rfl
  | _ :: _, [] => rfl
  | (k, v) :: as, (k', v') :: bs => by
    rw [cmpEntries, cmpEntries, Ordering.swap_then, Ordering.swap_then, cmp_swap k k',
      cmp_swap v v', cmpEntries_swap as bs]

end

/-! ## Equal literals -/

mutual

/-- Literals without doubles that compare equal are equal. -/
theorem eq_of_cmp : ∀ a b : Literal, a.isFloatFree = true → b.isFloatFree = true →
    cmp a b = .eq → a = b
  | .none, b, _, _, h => by
    cases b with
    | none => rfl
    | _ => nomatch rank_eq_of_cmp_eq h
  | .bool x, b, _, _, h => by
    cases b with
    | bool y => cases x <;> cases y <;> first | rfl | nomatch h
    | _ => nomatch rank_eq_of_cmp_eq h
  | .int n, b, _, hb, h => by
    cases b with
    | int m =>
      have hnm : n.toInt = m.toInt := Std.compare_eq_iff_eq.mp h
      rw [Int64.toInt_inj.mp hnm]
    | float y => nomatch hb
    | _ => nomatch rank_eq_of_cmp_eq h
  | .text s, b, _, _, h => by
    cases b with
    | text t => rw [Std.compare_eq_iff_eq.mp h]
    | _ => nomatch rank_eq_of_cmp_eq h
  | .tuple as, b, ha, hb, h => by
    cases b with
    | tuple bs => rw [eq_of_cmpItems as bs ha hb h]
    | _ => nomatch rank_eq_of_cmp_eq h
  | .list as, b, ha, hb, h => by
    cases b with
    | list bs => rw [eq_of_cmpItems as bs ha hb h]
    | _ => nomatch rank_eq_of_cmp_eq h
  | .dict as, b, ha, hb, h => by
    cases b with
    | dict bs => rw [eq_of_cmpEntries as bs ha hb h]
    | _ => nomatch rank_eq_of_cmp_eq h

@[inherit_doc eq_of_cmp]
theorem eq_of_cmpItems : ∀ as bs : List Literal, areFloatFree as = true → areFloatFree bs = true →
    cmpItems as bs = .eq → as = bs
  | [], [], _, _, _ => rfl
  | a :: as, b :: bs, ha, hb, h => by
    rw [areFloatFree, Bool.and_eq_true] at ha hb
    rw [cmpItems, Ordering.then_eq_eq] at h
    rw [eq_of_cmp a b ha.1 hb.1 h.1, eq_of_cmpItems as bs ha.2 hb.2 h.2]

@[inherit_doc eq_of_cmp]
theorem eq_of_cmpEntries : ∀ as bs : List (Literal × Literal), entriesAreFloatFree as = true →
    entriesAreFloatFree bs = true → cmpEntries as bs = .eq → as = bs
  | [], [], _, _, _ => rfl
  | (k, v) :: as, (k', v') :: bs, ha, hb, h => by
    rw [entriesAreFloatFree, Bool.and_eq_true, Bool.and_eq_true] at ha hb
    rw [cmpEntries, Ordering.then_eq_eq, Ordering.then_eq_eq] at h
    rw [eq_of_cmp k k' ha.1.1 hb.1.1 h.1.1, eq_of_cmp v v' ha.1.2 hb.1.2 h.1.2,
      eq_of_cmpEntries as bs ha.2 hb.2 h.2]

end

/-! ## Transitivity -/

/-- What is compared first and then by the rest is transitive when both comparisons are, and what is
equal in the first place may be exchanged there. -/
theorem then_trans {ab bc ac ab' bc' ac' : Ordering} (hfirst : ab = .lt → bc = .lt → ac = .lt)
    (hleft : ab = .eq → ac = bc) (hright : bc = .eq → ac = ab)
    (hrest : ab' = .lt → bc' = .lt → ac' = .lt) (hab : ab.then ab' = .lt)
    (hbc : bc.then bc' = .lt) : ac.then ac' = .lt := by
  rw [Ordering.then_eq_lt] at hab hbc ⊢
  rcases hab with hab | ⟨hab, hab'⟩
  · rcases hbc with hbc | ⟨hbc, -⟩
    · exact Or.inl (hfirst hab hbc)
    · exact Or.inl ((hright hbc).trans hab)
  · rcases hbc with hbc | ⟨hbc, hbc'⟩
    · exact Or.inl ((hleft hab).trans hbc)
    · exact Or.inr ⟨(hleft hab).trans hbc, hrest hab' hbc'⟩

mutual

/-- Coming before is transitive among literals without doubles. -/
theorem cmp_trans : ∀ a b c : Literal, a.isFloatFree = true → b.isFloatFree = true →
    c.isFloatFree = true → cmp a b = .lt → cmp b c = .lt → cmp a c = .lt
  | a, b, c, ha, hb, hc, hab, hbc => by
    have hrank : a.rank < c.rank ∨ (a.rank = b.rank ∧ b.rank = c.rank) := by
      have h₁ := rank_le_of_cmp_lt hab
      have h₂ := rank_le_of_cmp_lt hbc
      omega
    rcases hrank with hlt | ⟨h₁, h₂⟩
    · exact cmp_of_rank_lt hlt
    · -- three literals of one kind
      cases a with
      | none => cases b with
        | none => nomatch hab
        | _ => nomatch h₁
      | bool x => cases b with
        | bool y => cases c with
          | bool z =>
            rw [cmp, Nat.compare_eq_lt] at hab hbc ⊢
            exact hab.trans hbc
          | _ => nomatch h₂
        | _ => nomatch h₁
      | int n => cases b with
        | int m => cases c with
          | int k =>
            rw [cmp] at hab hbc ⊢
            exact Std.TransCmp.lt_trans hab hbc
          | float z => nomatch hc
          | _ => nomatch h₂
        | float y => nomatch hb
        | _ => nomatch h₁
      | float x => nomatch ha
      | text s => cases b with
        | text t => cases c with
          | text u =>
            rw [cmp] at hab hbc ⊢
            exact Std.TransCmp.lt_trans hab hbc
          | _ => nomatch h₂
        | _ => nomatch h₁
      | tuple as => cases b with
        | tuple bs => cases c with
          | tuple cs => exact cmpItems_trans as bs cs ha hb hc hab hbc
          | _ => nomatch h₂
        | _ => nomatch h₁
      | list as => cases b with
        | list bs => cases c with
          | list cs => exact cmpItems_trans as bs cs ha hb hc hab hbc
          | _ => nomatch h₂
        | _ => nomatch h₁
      | dict as => cases b with
        | dict bs => cases c with
          | dict cs => exact cmpEntries_trans as bs cs ha hb hc hab hbc
          | _ => nomatch h₂
        | _ => nomatch h₁

@[inherit_doc cmp_trans]
theorem cmpItems_trans : ∀ as bs cs : List Literal, areFloatFree as = true →
    areFloatFree bs = true → areFloatFree cs = true → cmpItems as bs = .lt →
      cmpItems bs cs = .lt → cmpItems as cs = .lt
  | [], _ :: _, _ :: _, _, _, _, _, _ => rfl
  | a :: as, b :: bs, c :: cs, ha, hb, hc, hab, hbc => by
    rw [areFloatFree, Bool.and_eq_true] at ha hb hc
    rw [cmpItems] at hab hbc ⊢
    refine then_trans (cmp_trans a b c ha.1 hb.1 hc.1) ?_ ?_
      (cmpItems_trans as bs cs ha.2 hb.2 hc.2) hab hbc
    · exact fun heq => by rw [eq_of_cmp a b ha.1 hb.1 heq]
    · exact fun heq => by rw [eq_of_cmp b c hb.1 hc.1 heq]

@[inherit_doc cmp_trans]
theorem cmpEntries_trans : ∀ as bs cs : List (Literal × Literal), entriesAreFloatFree as = true →
    entriesAreFloatFree bs = true → entriesAreFloatFree cs = true → cmpEntries as bs = .lt →
      cmpEntries bs cs = .lt → cmpEntries as cs = .lt
  | [], _ :: _, _ :: _, _, _, _, _, _ => rfl
  | (ka, va) :: as, (kb, vb) :: bs, (kc, vc) :: cs, ha, hb, hc, hab, hbc => by
    rw [entriesAreFloatFree, Bool.and_eq_true, Bool.and_eq_true] at ha hb hc
    rw [cmpEntries, Ordering.then_assoc] at hab hbc ⊢
    refine then_trans (cmp_trans ka kb kc ha.1.1 hb.1.1 hc.1.1) ?_ ?_
      (then_trans (cmp_trans va vb vc ha.1.2 hb.1.2 hc.1.2) ?_ ?_
        (cmpEntries_trans as bs cs ha.2 hb.2 hc.2)) hab hbc
    · exact fun heq => by rw [eq_of_cmp ka kb ha.1.1 hb.1.1 heq]
    · exact fun heq => by rw [eq_of_cmp kb kc hb.1.1 hc.1.1 heq]
    · exact fun heq => by rw [eq_of_cmp va vb ha.1.2 hb.1.2 heq]
    · exact fun heq => by rw [eq_of_cmp vb vc hb.1.2 hc.1.2 heq]

end

/-! ## The order -/

theorem before_iff : a.before b = true ↔ cmp a b = .lt := by
  rw [before, beq_iff_eq]

/-- Literals without doubles are the same exactly when they are equal. -/
theorem same_iff (ha : a.isFloatFree = true) (hb : b.isFloatFree = true) :
    a.same b = true ↔ a = b := by
  rw [same, beq_iff_eq]
  constructor
  · exact eq_of_cmp a b ha hb
  · rintro rfl
    exact cmp_self a

/-- No literal comes before itself. -/
theorem not_before_self (a : Literal) : ¬ a.before a = true := by
  rw [before_iff, cmp_self]
  nofun

theorem before_trans (ha : a.isFloatFree = true) (hb : b.isFloatFree = true)
    (hc : c.isFloatFree = true) (hab : a.before b = true) (hbc : b.before c = true) :
    a.before c = true := by
  rw [before_iff] at hab hbc ⊢
  exact cmp_trans a b c ha hb hc hab hbc

/-- Of two different literals without doubles one comes before the other. -/
theorem before_trichotomy (ha : a.isFloatFree = true) (hb : b.isFloatFree = true) :
    a.before b = true ∨ a = b ∨ b.before a = true := by
  rw [before_iff, before_iff, ← cmp_swap a b]
  cases h : cmp a b with
  | lt => exact Or.inl rfl
  | eq => exact Or.inr (Or.inl (eq_of_cmp a b ha hb h))
  | gt => exact Or.inr (Or.inr rfl)

/-- What comes before a literal comes before everything that does not. -/
theorem before_of_not_before (ha : a.isFloatFree = true) (hb : b.isFloatFree = true)
    (hc : c.isFloatFree = true) (hab : a.before b = true) (hcb : ¬ c.before b = true) :
    a.before c = true := by
  obtain h | rfl | h := before_trichotomy hb hc
  · exact before_trans ha hb hc hab h
  · exact hab
  · exact absurd h hcb

/-- Of two literals only one comes before the other. -/
theorem not_before_of_before (h : a.before b = true) : ¬ b.before a = true := by
  rw [before_iff] at h
  rw [before_iff, ← cmp_swap a b, h]
  nofun

/-! ## Sorting -/

section

variable {α : Type} (key : α → Literal)

theorem insertFromEnd_perm (value : α) (reversed : List α) :
    (insertFromEnd key value reversed).Perm (value :: reversed) := by
  induction reversed with
  | nil => exact .refl _
  | cons last rest ih =>
    rw [insertFromEnd]
    split
    next => exact (ih.cons last).trans (.swap value last rest)
    next => exact .refl _

/-- Sorting by a key only moves the values. -/
theorem sortBy_perm (values : List α) : (sortBy key values).Perm values := by
  have hfold : ∀ (rest reversed : List α),
      (rest.foldl (fun reversed value => insertFromEnd key value reversed) reversed).Perm
        (reversed ++ rest) := by
    intro rest
    induction rest with
    | nil =>
      intro reversed
      rw [List.append_nil]
      exact .refl _
    | cons value rest ih =>
      intro reversed
      have hinsert := (insertFromEnd_perm key value reversed).append_right rest
      exact (ih _).trans (hinsert.trans List.perm_middle.symm)
  exact (List.reverse_perm _).trans (hfold values [])

/-- Inserting from the end keeps the greatest key first. -/
theorem insertFromEnd_pairwise {value : α} {reversed : List α}
    (hvalue : (key value).isFloatFree = true)
    (hfree : ∀ other ∈ reversed, (key other).isFloatFree = true)
    (h : reversed.Pairwise fun a b => ¬ (key a).before (key b) = true) :
    (insertFromEnd key value reversed).Pairwise fun a b => ¬ (key a).before (key b) = true := by
  induction reversed with
  | nil => exact List.pairwise_singleton _ _
  | cons last rest ih =>
    obtain ⟨hlast, hrest⟩ := List.forall_mem_cons.mp hfree
    obtain ⟨hbehind, hsorted⟩ := List.pairwise_cons.mp h
    rw [insertFromEnd]
    split
    next hbefore =>
      refine List.pairwise_cons.mpr ⟨fun other hother => ?_, ih hrest hsorted⟩
      rcases List.mem_cons.mp ((insertFromEnd_perm key value rest).mem_iff.mp hother) with
        rfl | hother
      · exact not_before_of_before hbefore
      · exact hbehind other hother
    next hbefore =>
      refine List.pairwise_cons.mpr ⟨fun other hother hlt => hbefore ?_, h⟩
      rcases List.mem_cons.mp hother with rfl | hother
      · exact hlt
      · exact before_of_not_before hvalue (hrest other hother) hlast hlt (hbehind other hother)

/-- Sorting by a key puts no value behind one with a greater key. -/
theorem sortBy_pairwise {values : List α}
    (hfree : ∀ value ∈ values, (key value).isFloatFree = true) :
    (sortBy key values).Pairwise fun a b => ¬ (key b).before (key a) = true := by
  have hfold : ∀ rest reversed : List α, (∀ value ∈ rest ++ reversed, (key value).isFloatFree = true) →
      (reversed.Pairwise fun a b => ¬ (key a).before (key b) = true) →
      (rest.foldl (fun reversed value => insertFromEnd key value reversed) reversed).Pairwise
        fun a b => ¬ (key a).before (key b) = true := by
    intro rest
    induction rest with
    | nil => exact fun _ _ h => h
    | cons value rest ih =>
      intro reversed hall h
      rw [List.cons_append, List.forall_mem_cons, List.forall_mem_append] at hall
      obtain ⟨hvalue, hrest, hreversed⟩ := hall
      refine ih _ (List.forall_mem_append.mpr ⟨hrest, fun other hother => ?_⟩)
        (insertFromEnd_pairwise key hvalue hreversed h)
      rcases List.mem_cons.mp ((insertFromEnd_perm key value reversed).mem_iff.mp hother) with
        rfl | hother
      · exact hvalue
      · exact hreversed other hother
  rw [sortBy, List.pairwise_reverse]
  exact hfold values [] (by rwa [List.append_nil]) .nil

end

end Storyboard.Literal
