import Storyboard.Graph.ShortestPaths
import Storyboard.Proofs.Decimal.Value
import Storyboard.Proofs.Graph.Traversal

/-!
# Walks by their weight

The weights of a search are read as rational numbers (`Arithmetic.Reads`).  A sum is what it should be as
long as some weight stands for it, so all that a search needs is that the total weight of every simple walk
is a weight (`ExactWeights`).  Natural numbers with a small total are such weights.
-/

namespace Storyboard.Graph

variable {W : Type} {arithmetic : Arithmetic W} {value? : W → Option ℚ} {graph : Adjacency W}
  {start node : String}

/-- The arithmetic of weights is that of the numbers that they stand for, wherever some weight stands for
the sum. -/
structure Arithmetic.Reads (arithmetic : Arithmetic W) (value? : W → Option ℚ) : Prop where
  zero : value? arithmetic.zero = some 0
  one : value? arithmetic.one = some 1
  add : ∀ {x y z : W} {a b : ℚ}, value? x = some a → value? y = some b →
    value? z = some (a + b) → value? (arithmetic.add x y) = some (a + b)
  atMost : ∀ {x y : W} {a b : ℚ}, value? x = some a → value? y = some b →
    (arithmetic.atMost x y ↔ a ≤ b)
  below : ∀ {x y : W} {a b : ℚ}, value? x = some a → value? y = some b →
    (arithmetic.below x y ↔ a < b)

theorem float_reads : Arithmetic.float.Reads Decimal.value? where
  zero := Decimal.value?_zero
  one := Decimal.value?_one
  add := Decimal.value?_add
  atMost ha hb := decide_eq_true_iff.trans (Decimal.le_iff_value_le ha hb)
  below ha hb := decide_eq_true_iff.trans (Decimal.lt_iff_value_lt ha hb)

/-- The weight of an edge as a number; an edge that has none weighs one. -/
def Edge.number (value? : W → Option ℚ) (edge : Edge W) : ℚ :=
  edge.weight.elim 1 fun weight => (value? weight).getD 0

/-- The total weight of some edges. -/
def total (value? : W → Option ℚ) (edges : List (Edge W)) : ℚ :=
  (edges.map (Edge.number value?)).sum

theorem total_concat (edges : List (Edge W)) (edge : Edge W) :
    total value? (edges ++ [edge]) = total value? edges + edge.number value? := by
  unfold total
  rw [List.map_append, List.sum_append, List.map_singleton, List.sum_singleton]

theorem exists_natCast_total {edges : List (Edge W)}
    (h : ∀ edge ∈ edges, ∃ n : ℕ, edge.number value? = n) :
    ∃ n : ℕ, total value? edges = n := by
  induction edges with
  | nil => exact ⟨0, Nat.cast_zero.symm⟩
  | cons edge rest ih =>
    obtain ⟨hedge, hrest⟩ := List.forall_mem_cons.mp h
    obtain ⟨n, hn⟩ := hedge
    obtain ⟨k, hk⟩ := ih hrest
    refine ⟨n + k, ?_⟩
    show (edge.number value? :: rest.map (Edge.number value?)).sum = _
    rw [List.sum_cons, hn, Nat.cast_add]
    exact congrArg _ hk

namespace Adjacency

/-- The least total weight of a walk to the node. -/
def IsDistance (graph : Adjacency W) (value? : W → Option ℚ) (start node : String)
    (distance : ℚ) : Prop :=
  IsLeast {weight | ∃ edges, graph.Walk start edges node ∧ total value? edges = weight} distance

/-- A walk that meets no node twice. -/
structure SimpleWalk (graph : Adjacency W) (start : String) (edges : List (Edge W))
    (node : String) : Prop where
  walk : graph.Walk start edges node
  nodup : (start :: edges.map Edge.target).Nodup

/-- A walk meets its end and the sources of its edges. -/
theorem Walk.eq_or_exists_source {edges : List (Edge W)} {other : String}
    (h : graph.Walk start edges node) (hmem : other ∈ start :: edges.map Edge.target) :
    other = node ∨ ∃ edge ∈ edges, edge.source = other := by
  induction h with
  | nil => exact Or.inl (List.mem_singleton.mp hmem)
  | @concat edges edge _ _ ih =>
    rw [List.map_append, ← List.cons_append, List.mem_append, List.map_singleton,
      List.mem_singleton] at hmem
    rcases hmem with hmem | hmem
    · right
      rcases ih hmem with rfl | ⟨earlier, hearlier, hsource⟩
      · exact ⟨edge, List.mem_append_right _ List.mem_cons_self, rfl⟩
      · exact ⟨earlier, List.mem_append_left _ hearlier, hsource⟩
    · exact Or.inl hmem

/-- A simple walk goes on to a node that is none of its own. -/
theorem SimpleWalk.concat {edges : List (Edge W)} {edge : Edge W}
    (h : graph.SimpleWalk start edges edge.source) (hmem : edge ∈ graph.edges)
    (htarget : edge.target ≠ edge.source) (hnew : ∀ earlier ∈ edges, earlier.source ≠ edge.target) :
    graph.SimpleWalk start (edges ++ [edge]) edge.target where
  walk := .concat h.walk hmem
  nodup := by
    rw [List.map_append, ← List.cons_append]
    refine nodup_concat h.nodup fun hmet => ?_
    rcases h.walk.eq_or_exists_source hmet with heq | ⟨earlier, hearlier, hsource⟩
    · exact htarget heq
    · exact hnew earlier hearlier hsource

theorem Walk.subset {edges : List (Edge W)} (h : graph.Walk start edges node) :
    edges ⊆ graph.edges := by
  induction h with
  | nil => exact List.nil_subset _
  | concat _ hmem ih => exact List.append_subset.mpr ⟨ih, List.cons_subset.mpr ⟨hmem, List.nil_subset _⟩⟩

/-- A simple walk takes no edge twice. -/
theorem SimpleWalk.subperm {edges : List (Edge W)} (h : graph.SimpleWalk start edges node) :
    edges.Subperm graph.edges :=
  List.subperm_of_subset (List.nodup_cons.mp h.nodup).2.of_map h.walk.subset

/-- A simple walk back to its start takes no edge. -/
theorem SimpleWalk.eq_nil {edges : List (Edge W)} (h : graph.SimpleWalk start edges start) :
    edges = [] := by
  obtain ⟨hwalk, hnodup⟩ := h
  generalize hend : start = last at hwalk
  cases hwalk with
  | nil => rfl
  | concat =>
    rw [hend, List.nodup_cons, List.map_append] at hnodup
    exact absurd (List.mem_append_right _ (List.mem_singleton.mpr rfl)) hnodup.1

end Adjacency

/-- No weight is negative, and the total weight of every simple walk from the start is a weight. -/
structure ExactWeights (value? : W → Option ℚ) (graph : Adjacency W) (start : String) : Prop where
  weight : ∀ edge ∈ graph.edges, ∀ w, edge.weight = some w → ∃ a, value? w = some a ∧ 0 ≤ a
  sums : ∀ edges node, graph.SimpleWalk start edges node →
    ∃ w, value? w = some (total value? edges)

namespace ExactWeights

variable {edge : Edge W}

theorem value?_weight (h : ExactWeights value? graph start) (reads : arithmetic.Reads value?)
    (hmem : edge ∈ graph.edges) : value? (arithmetic.weight edge) = some (edge.number value?) := by
  unfold Arithmetic.weight Edge.number
  cases hweight : edge.weight with
  | none => exact reads.one
  | some w =>
    obtain ⟨a, ha, -⟩ := h.weight edge hmem w hweight
    show value? w = some ((value? w).getD 0)
    rw [ha]
    rfl

theorem number_nonneg (h : ExactWeights value? graph start) (hmem : edge ∈ graph.edges) :
    0 ≤ edge.number value? := by
  unfold Edge.number
  cases hweight : edge.weight with
  | none => exact zero_le_one
  | some w =>
    obtain ⟨a, ha, hnonneg⟩ := h.weight edge hmem w hweight
    show 0 ≤ (value? w).getD 0
    rw [ha]
    exact hnonneg

end ExactWeights

/-! ## Natural weights -/

/-- Natural numbers whose total fits the mantissa of a double are exact weights. -/
theorem exactWeights_of_natural {graph : Adjacency Float}
    (hnatural : ∀ edge ∈ graph.edges, ∀ w, edge.weight = some w →
      ∃ n : ℕ, Decimal.value? w = some (n : ℚ))
    (htotal : total Decimal.value? graph.edges ≤ 2 ^ 53) :
    ExactWeights Decimal.value? graph start := by
  have hnumber : ∀ edge ∈ graph.edges, ∃ n : ℕ, edge.number Decimal.value? = n := by
    intro edge hmem
    unfold Edge.number
    cases hweight : edge.weight with
    | none => exact ⟨1, Nat.cast_one.symm⟩
    | some w =>
      obtain ⟨n, hn⟩ := hnatural edge hmem w hweight
      refine ⟨n, ?_⟩
      show (Decimal.value? w).getD 0 = n
      rw [hn]
      rfl
  have hnonneg : ∀ number ∈ graph.edges.map (Edge.number Decimal.value?), 0 ≤ number := by
    intro number hmem
    obtain ⟨edge, hedge, rfl⟩ := List.mem_map.mp hmem
    obtain ⟨n, hn⟩ := hnumber edge hedge
    rw [hn]
    exact Nat.cast_nonneg n
  refine ⟨fun edge hmem w hweight => ?_, fun edges node hsimple => ?_⟩
  · obtain ⟨n, hn⟩ := hnatural edge hmem w hweight
    exact ⟨n, hn, Nat.cast_nonneg n⟩
  · obtain ⟨n, hn⟩ := exists_natCast_total fun edge hmem => hnumber edge (hsimple.walk.subset hmem)
    -- the walk takes some of the edges, each once, so its total is no larger than theirs
    obtain ⟨taken, hperm, hsub⟩ := hsimple.subperm
    have hle : total Decimal.value? edges ≤ total Decimal.value? graph.edges := by
      unfold total
      rw [← (hperm.map _).sum_eq]
      exact (hsub.map _).sum_le_sum hnonneg
    have hbound : n ≤ 2 ^ 53 := by
      rw [hn] at hle
      exact_mod_cast hle.trans htotal
    rw [hn]
    exact Decimal.exists_value?_natCast hbound

end Storyboard.Graph
