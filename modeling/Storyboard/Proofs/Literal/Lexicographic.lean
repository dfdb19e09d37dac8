import Storyboard.Proofs.Literal.Order

/-!
# Literals in a linear order

Where no double stands, comparing is a linear order (`cmp_orders_linearly`): one kind comes before
the next, and two containers of one kind stand in the lexicographic order of what they hold, the
entries of dictionaries being compared by their keys first.  So equal literals may stand for each
other wherever values are kept in order.
-/

namespace Storyboard.Literal

/-- One literal comes before another. -/
def Precedes (a b : Literal) : Prop := cmp a b = .lt

/-! ## Transitivity with equality -/

theorem cmp_eq_iff {a b : Literal} (ha : a.isFloatFree = true) (hb : b.isFloatFree = true) :
    cmp a b = .eq ↔ a = b := by
  refine ⟨eq_of_cmp a b ha hb, ?_⟩
  rintro rfl
  exact cmp_self a

theorem isLE_cmp_iff {a b : Literal} (ha : a.isFloatFree = true) (hb : b.isFloatFree = true) :
    (cmp a b).isLE = true ↔ Precedes a b ∨ a = b := by
  rw [Ordering.isLE_iff_eq_lt_or_eq_eq, cmp_eq_iff ha hb, Precedes]

/-- Coming not after is transitive among literals without doubles. -/
theorem isLE_cmp_trans {a b c : Literal} (ha : a.isFloatFree = true) (hb : b.isFloatFree = true)
    (hc : c.isFloatFree = true) (hab : (cmp a b).isLE = true) (hbc : (cmp b c).isLE = true) :
    (cmp a c).isLE = true := by
  rcases (isLE_cmp_iff ha hb).mp hab with hlt | rfl
  · rcases (isLE_cmp_iff hb hc).mp hbc with hlt' | rfl
    · exact (isLE_cmp_iff ha hc).mpr (Or.inl (cmp_trans a b c ha hb hc hlt hlt'))
    · exact hab
  · exact hbc

/-! ## Containers -/

/-- Sequences without doubles are compared lexicographically. -/
theorem cmpItems_eq_lt_iff {as bs : List Literal} (has : areFloatFree as = true)
    (hbs : areFloatFree bs = true) : cmpItems as bs = .lt ↔ as.Lex Precedes bs := by
  induction as generalizing bs with
  | nil =>
    cases bs with
    | nil => exact iff_of_false nofun List.not_lex_nil
    | cons b bs => exact iff_of_true rfl .nil
  | cons a as ih =>
    cases bs with
    | nil => exact iff_of_false nofun List.not_lex_nil
    | cons b bs =>
      rw [areFloatFree, Bool.and_eq_true] at has hbs
      rw [cmpItems, Ordering.then_eq_lt, List.cons_lex_cons_iff, cmp_eq_iff has.1 hbs.1,
        ih has.2 hbs.2, Precedes]

/-- So are sequences of entries, each compared by its key and then by its value. -/
theorem cmpEntries_eq_lt_iff {as bs : List (Literal × Literal)}
    (has : entriesAreFloatFree as = true) (hbs : entriesAreFloatFree bs = true) :
    cmpEntries as bs = .lt ↔ as.Lex (Prod.Lex Precedes Precedes) bs := by
  induction as generalizing bs with
  | nil =>
    cases bs with
    | nil => exact iff_of_false nofun List.not_lex_nil
    | cons b bs => exact iff_of_true rfl .nil
  | cons a as ih =>
    obtain ⟨k, v⟩ := a
    cases bs with
    | nil => exact iff_of_false nofun List.not_lex_nil
    | cons b bs =>
      obtain ⟨k', v'⟩ := b
      rw [entriesAreFloatFree, Bool.and_eq_true, Bool.and_eq_true] at has hbs
      obtain ⟨⟨hk, hv⟩, has⟩ := has
      obtain ⟨⟨hk', hv'⟩, hbs⟩ := hbs
      rw [cmpEntries, Ordering.then_eq_lt, Ordering.then_eq_lt, Ordering.then_eq_eq,
        List.cons_lex_cons_iff, Prod.lex_iff, Prod.mk.injEq, cmp_eq_iff hk hk', cmp_eq_iff hv hv',
        ih has hbs, Precedes, Precedes]

/-! ## Kinds -/

/-- Any literals of the seven kinds without doubles stand in the order of the kinds. -/
theorem kinds_pairwise (b : Bool) (n : Int64) (s : String) (items others : List Literal)
    (entries : List (Literal × Literal)) :
    [.none, .bool b, .int n, .text s, .tuple items, .list others, .dict entries].Pairwise
      Precedes := by
  have hranks : ([.none, .bool b, .int n, .text s, .tuple items, .list others,
      .dict entries].map rank).Pairwise (· < ·) := by
    simp [rank]
  rw [List.pairwise_map] at hranks
  exact hranks.imp cmp_of_rank_lt

/-! ## The order -/

/-- Comparing literals without doubles is reflexive, turns round with its arguments, is transitive
and finds only equal literals equal.  The kinds come in their order, and sequences and dictionaries
are ordered lexicographically. -/
theorem cmp_orders_linearly :
    (∀ a b : Literal, a.isFloatFree = true → b.isFloatFree = true →
      cmp a a = .eq ∧ cmp b a = (cmp a b).swap ∧ (cmp a b = .eq ↔ a = b)) ∧
    (∀ a b c : Literal, a.isFloatFree = true → b.isFloatFree = true → c.isFloatFree = true →
      (cmp a b).isLE = true → (cmp b c).isLE = true → (cmp a c).isLE = true) ∧
    (∀ (b : Bool) (n : Int64) (s : String) (items others : List Literal)
      (entries : List (Literal × Literal)),
      [.none, .bool b, .int n, .text s, .tuple items, .list others, .dict entries].Pairwise
        Precedes) ∧
    (∀ as bs : List Literal, areFloatFree as = true → areFloatFree bs = true →
      (Precedes (.tuple as) (.tuple bs) ↔ as.Lex Precedes bs) ∧
      (Precedes (.list as) (.list bs) ↔ as.Lex Precedes bs)) ∧
    ∀ as bs : List (Literal × Literal), entriesAreFloatFree as = true →
      entriesAreFloatFree bs = true →
      (Precedes (.dict as) (.dict bs) ↔ as.Lex (Prod.Lex Precedes Precedes) bs) := by
  refine ⟨fun a b ha hb => ⟨cmp_self a, (cmp_swap a b).symm, cmp_eq_iff ha hb⟩,
    fun a b c ha hb hc => isLE_cmp_trans ha hb hc, kinds_pairwise, fun as bs has hbs => ?_,
    fun as bs has hbs => cmpEntries_eq_lt_iff has hbs⟩
  have hitems := cmpItems_eq_lt_iff has hbs
  exact ⟨hitems, hitems⟩

/-- Dictionaries of one key, told apart by lists of which one is where the other starts. -/
theorem cmp_orders_linearly_nested :
    ∃ shorter longer : Literal, shorter = .dict [(.text "k", .list [.int (-1)])] ∧
      longer = .dict [(.text "k", .list [.int (-1), .tuple [.none, .bool true]])] ∧
      shorter.isFloatFree = true ∧ longer.isFloatFree = true ∧ Precedes shorter longer ∧
      cmp longer shorter = .gt := by
  refine ⟨_, _, rfl, rfl, by decide, by decide, ?_, ?_⟩
  · have hlists := (cmp_orders_linearly.2.2.2.1 [.int (-1)] [.int (-1), .tuple [.none, .bool true]]
      (by decide) (by decide)).2.mpr (.cons .nil)
    exact (cmp_orders_linearly.2.2.2.2 _ _ (by decide) (by decide)).mpr (.rel (.right _ hlists))
  · exact (cmp_orders_linearly.1 (.dict [(.text "k", .list [.int (-1)])]) _ (by decide)
      (by decide)).2.1.trans (by decide)

end Storyboard.Literal
