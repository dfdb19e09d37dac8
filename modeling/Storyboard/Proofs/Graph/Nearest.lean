import Storyboard.Proofs.Graph.Settled
import Storyboard.Proofs.Graph.Weighing

/-!
# Shortest paths find the least weights

A known distance is always the weight of some simple walk through finished nodes.  What every turn keeps
besides is that an edge from a finished node has been relaxed for good, and that no finished node is farther
than an open one (`Nearest`): a turn finishes the closest of the open ones, and what it relaxes is no closer,
since no edge has a negative weight.

When no node is left to finish, every edge on a walk has been relaxed, so a distance is at most the weight of
any walk.
-/

namespace Storyboard.Graph

variable {W : Type} {arithmetic : Arithmetic W} {value? : W → Option ℚ} {graph : Adjacency W}
  {start node : String} {d between next last : Distances W} {moments : List (PathMoment W)}

/-! ## Distances as numbers -/

namespace Distances

/-- The distance of a node as a number. -/
def number? (value? : W → Option ℚ) (d : Distances W) (node : String) : Option ℚ :=
  (d.distance? node).bind value?

theorem number?_eq {distance : W} (h : d.distance? node = some distance) :
    d.number? value? node = value? distance := by
  unfold number?
  rw [h]
  rfl

theorem number?_congr (h : next.distance? node = d.distance? node) :
    next.number? value? node = d.number? value? node := by
  unfold number?
  rw [h]

/-- The first node is at most as far as the second one. -/
def NoFarther (value? : W → Option ℚ) (d : Distances W) (node other : String) : Prop :=
  ∀ a b, d.number? value? node = some a → d.number? value? other = some b → a ≤ b

/-- The closest of some nodes is at most as far as each of them. -/
theorem closestOf_least (reads : arithmetic.Reads value?) {best : String × W}
    {others : List (String × W)} (hbest : ∃ a, value? best.2 = some a)
    (hothers : ∀ other ∈ others, ∃ b, value? other.2 = some b) :
    ∃ a, value? (closestOf arithmetic best others).2 = some a ∧
      ∀ other ∈ best :: others, ∀ b, value? other.2 = some b → a ≤ b := by
  induction others generalizing best with
  | nil =>
    obtain ⟨a, ha⟩ := hbest
    refine ⟨a, ha, fun other hmem b hb => ?_⟩
    obtain rfl := List.mem_singleton.mp hmem
    exact (Option.some.inj (ha.symm.trans hb)).le
  | cons other rest ih =>
    obtain ⟨hother, hrest⟩ := List.forall_mem_cons.mp hothers
    obtain ⟨a, ha⟩ := hbest
    obtain ⟨b, hb⟩ := hother
    -- the better of the first two goes on, and is at most as far as both
    obtain ⟨better, hbetter, c, hc, hca, hcb⟩ : ∃ better : String × W,
        (if arithmetic.atMost best.2 other.2 then best else other) = better ∧
          ∃ c, value? better.2 = some c ∧ c ≤ a ∧ c ≤ b := by
      by_cases hle : arithmetic.atMost best.2 other.2
      · exact ⟨best, if_pos hle, a, ha, le_rfl, (reads.atMost ha hb).mp hle⟩
      · exact ⟨other, if_neg hle, b, hb, (not_le.mp (mt (reads.atMost ha hb).mpr hle)).le, le_rfl⟩
    have hknown : ∃ c, value? better.2 = some c := ⟨c, hc⟩
    obtain ⟨least, hleast, hbound⟩ := ih hknown hrest
    have hlc : least ≤ c := hbound better List.mem_cons_self c hc
    rw [closestOf, hbetter]
    refine ⟨least, hleast, fun candidate hmem x hx => ?_⟩
    rcases List.mem_cons.mp hmem with rfl | hmem
    · obtain rfl : a = x := Option.some.inj (ha.symm.trans hx)
      exact hlc.trans hca
    · rcases List.mem_cons.mp hmem with rfl | hmem
      · obtain rfl : b = x := Option.some.inj (hb.symm.trans hx)
        exact hlc.trans hcb
      · exact hbound candidate (List.mem_cons_of_mem _ hmem) x hx

/-- The closest candidate is at most as far as each of them. -/
theorem closest?_least (reads : arithmetic.Reads value?) {pair : String × W}
    (hknown : ∀ candidate ∈ d.candidates, ∃ a, value? candidate.2 = some a)
    (h : d.closest? arithmetic = some pair) :
    ∃ a, value? pair.2 = some a ∧
      ∀ candidate ∈ d.candidates, ∀ b, value? candidate.2 = some b → a ≤ b := by
  unfold closest? at h
  split at h
  next => cases h
  next first rest hcandidates =>
    obtain rfl := Option.some.inj h
    rw [hcandidates] at hknown ⊢
    obtain ⟨hfirst, hrest⟩ := List.forall_mem_cons.mp hknown
    exact closestOf_least reads hfirst hrest

end Distances

/-! ## Relaxing edges -/

/-- Relaxing edges of a node at distance `a` lowers distances: those that change are of open nodes at the
far end of an edge, and become what the edge makes of `a`. -/
structure Lowers (value? : W → Option ℚ) (a : ℚ) (d : Distances W) (edges : List (Edge W))
    (next : Distances W) : Prop where
  origin : ∀ node distance, next.distance? node = some distance →
    d.distance? node = some distance ∨ node ∉ d.finished ∧
      ∃ edge ∈ edges, edge.target = node ∧ value? distance = some (a + edge.number value?)
  lower : ∀ node b, d.number? value? node = some b → ∃ c, next.number? value? node = some c ∧ c ≤ b
  reach : ∀ edge ∈ edges, edge.target ∉ d.finished →
    ∃ c, next.number? value? edge.target = some c ∧ c ≤ a + edge.number value?

namespace Lowers

variable {a : ℚ} {edge : Edge W} {rest : List (Edge W)}

theorem refl (value? : W → Option ℚ) (a : ℚ) (d : Distances W) : Lowers value? a d [] d where
  origin _ _ h := Or.inl h
  lower _ b h := ⟨b, h, le_rfl⟩
  reach _ h := absurd h List.not_mem_nil

theorem cons (hfirst : Lowers value? a d [edge] between)
    (hfinished : between.finished = d.finished) (hrest : Lowers value? a between rest next) :
    Lowers value? a d (edge :: rest) next where
  origin node distance h := by
    rcases hrest.origin node distance h with hbetween | ⟨hopen, other, hmem, hother⟩
    · rcases hfirst.origin node distance hbetween with hd | ⟨hopen, other, hmem, hother⟩
      · exact Or.inl hd
      · obtain rfl := List.mem_singleton.mp hmem
        exact Or.inr ⟨hopen, other, List.mem_cons_self, hother⟩
    · exact Or.inr ⟨hfinished ▸ hopen, other, List.mem_cons_of_mem _ hmem, hother⟩
  lower node b h := by
    obtain ⟨c, hc, hcb⟩ := hfirst.lower node b h
    obtain ⟨e, he, hec⟩ := hrest.lower node c hc
    exact ⟨e, he, hec.trans hcb⟩
  reach other hmem hopen := by
    rcases List.mem_cons.mp hmem with rfl | hmem
    · obtain ⟨c, hc, hcb⟩ := hfirst.reach other List.mem_cons_self hopen
      obtain ⟨e, he, hec⟩ := hrest.lower other.target c hc
      exact ⟨e, he, hec.trans hcb⟩
    · exact hrest.reach other hmem (hfinished ▸ hopen)

/-- An edge back to a finished node changes nothing. -/
theorem skip (h : edge.target ∈ d.finished) : Lowers value? a d [edge] d where
  origin _ _ h := Or.inl h
  lower _ b h := ⟨b, h, le_rfl⟩
  reach other hmem hopen := by
    obtain rfl := List.mem_singleton.mp hmem
    exact absurd h hopen

/-- An edge that is no way to come closer changes nothing. -/
theorem keep {b : ℚ} (hb : d.number? value? edge.target = some b)
    (hle : b ≤ a + edge.number value?) : Lowers value? a d [edge] d where
  origin _ _ h := Or.inl h
  lower _ b h := ⟨b, h, le_rfl⟩
  reach other hmem _ := by
    obtain rfl := List.mem_singleton.mp hmem
    exact ⟨b, hb, hle⟩

theorem improve {distance : W} (hopen : edge.target ∉ d.finished)
    (hvalue : value? distance = some (a + edge.number value?))
    (hcloser : ∀ b, d.number? value? edge.target = some b → a + edge.number value? ≤ b) :
    Lowers value? a d [edge] (d.improve edge.target distance) := by
  have hself : (d.improve edge.target distance).number? value? edge.target =
      some (a + edge.number value?) := by
    rw [Distances.number?_eq (Distances.distance?_improve_self d _ _), hvalue]
  constructor
  case origin =>
    intro node other h
    by_cases heq : node = edge.target
    · subst heq
      rw [Distances.distance?_improve_self] at h
      cases h
      exact Or.inr ⟨hopen, edge, List.mem_singleton.mpr rfl, rfl, hvalue⟩
    · rw [Distances.distance?_improve_ne heq] at h
      exact Or.inl h
  case lower =>
    intro node b h
    by_cases heq : node = edge.target
    · subst heq
      exact ⟨_, hself, hcloser b h⟩
    · have hkept := Distances.distance?_improve_ne heq d distance
      exact ⟨b, (Distances.number?_congr hkept).trans h, le_rfl⟩
  case reach =>
    intro other hmem _
    obtain rfl := List.mem_singleton.mp hmem
    exact ⟨_, hself, le_rfl⟩

end Lowers

theorem RelaxesEach.lowers {distance : W} {a : ℚ} {edges : List (Edge W)}
    (h : RelaxesEach arithmetic distance d edges moments next) (reads : arithmetic.Reads value?)
    (hknown : ∀ node known, d.distance? node = some known → ∃ b, value? known = some b)
    (hsum : ∀ edge ∈ edges, edge.target ∉ d.finished →
      value? (arithmetic.add distance (arithmetic.weight edge)) = some (a + edge.number value?)) :
    Lowers value? a d edges next := by
  induction h with
  | done => exact .refl value? a _
  | skip finished _ ih =>
    exact (Lowers.skip finished).cons rfl (ih hknown (List.forall_mem_cons.mp hsum).2)
  | @improve d _ edge _ candidate _ unfinished candidate_eq closer _ ih =>
    obtain ⟨hedge, hrest⟩ := List.forall_mem_cons.mp hsum
    have hvalue := hedge unfinished
    rw [← candidate_eq] at hvalue
    refine (Lowers.improve unfinished hvalue fun b hb => ?_).cons rfl (ih ?_ hrest)
    · obtain ⟨known, hdistance, hb⟩ := Option.bind_eq_some_iff.mp hb
      -- the candidate was closer in the arithmetic, so it is no larger as a number
      exact ((reads.below hvalue hb).mp (closer known hdistance)).le
    · intro node known hdistance
      by_cases heq : node = edge.target
      · subst heq
        rw [Distances.distance?_improve_self] at hdistance
        cases hdistance
        exact ⟨_, hvalue⟩
      · rw [Distances.distance?_improve_ne heq] at hdistance
        exact hknown node known hdistance
  | @keep d _ edge _ known _ unfinished distance_eq farther _ ih =>
    obtain ⟨hedge, hrest⟩ := List.forall_mem_cons.mp hsum
    obtain ⟨b, hb⟩ := hknown edge.target known distance_eq
    have hle : b ≤ a + edge.number value? :=
      not_lt.mp (mt (reads.below (hedge unfinished) hb).mpr farther)
    have hnumber : d.number? value? edge.target = some b := (Distances.number?_eq distance_eq).trans hb
    exact (Lowers.keep hnumber hle).cons rfl (ih hknown hrest)

/-! ## Turns -/

/-- What every turn keeps: a known distance is the weight of a simple walk through finished nodes, an edge
from a finished node leaves nothing to improve, and no finished node is farther than one that was finished
later or is open. -/
structure Nearest (value? : W → Option ℚ) (graph : Adjacency W) (start : String)
    (d : Distances W) : Prop where
  walked : ∀ node distance, d.distance? node = some distance →
    ∃ edges, graph.SimpleWalk start edges node ∧ (∀ edge ∈ edges, edge.source ∈ d.finished) ∧
      value? distance = some (total value? edges)
  relaxed : ∀ edge ∈ graph.edges, edge.source ∈ d.finished → ∀ a,
    d.number? value? edge.source = some a →
      ∃ b, d.number? value? edge.target = some b ∧ b ≤ a + edge.number value?
  settled : ∀ node ∈ d.finished, ∀ other ∉ d.finished, d.NoFarther value? node other
  sorted : d.finished.Pairwise (d.NoFarther value?)

namespace Nearest

theorem exists_value? (h : Nearest value? graph start d) {distance : W}
    (hdistance : d.distance? node = some distance) : ∃ a, value? distance = some a := by
  obtain ⟨edges, -, -, hvalue⟩ := h.walked node distance hdistance
  exact ⟨_, hvalue⟩

theorem exists_number? (h : Nearest value? graph start d) (hknown : (d.distance? node).isSome) :
    ∃ a, d.number? value? node = some a := by
  obtain ⟨distance, hdistance⟩ := Option.isSome_iff_exists.mp hknown
  obtain ⟨a, ha⟩ := h.exists_value? hdistance
  exact ⟨a, (Distances.number?_eq hdistance).trans ha⟩

theorem starting (reads : arithmetic.Reads value?) :
    Nearest value? graph start (.starting arithmetic graph.nodes start) where
  walked node distance h := by
    by_cases heq : node = start
    · subst heq
      rw [distance?_starting_self] at h
      cases h
      exact ⟨[], ⟨.nil, List.nodup_singleton node⟩, fun _ h => absurd h List.not_mem_nil, reads.zero⟩
    · rw [distance?_starting_ne heq] at h
      cases h
  relaxed _ _ h := absurd h List.not_mem_nil
  settled _ h := absurd h List.not_mem_nil
  sorted := List.Pairwise.nil

end Nearest

/-- A walk through finished nodes goes on along an edge to an open node, and the sum at that edge is
exact. -/
theorem ExactWeights.sum_exact (weights : ExactWeights value? graph start)
    (reads : arithmetic.Reads value?) {edges : List (Edge W)} {distance : W}
    (hwalk : graph.SimpleWalk start edges node)
    (hsources : ∀ edge ∈ edges, edge.source ∈ d.finished)
    (hvalue : value? distance = some (total value? edges)) (edge : Edge W)
    (hedge : edge ∈ graph.edgesFrom node) (hopen : edge.target ∉ (d.finish node).finished) :
    graph.SimpleWalk start (edges ++ [edge]) edge.target ∧
      value? (arithmetic.add distance (arithmetic.weight edge)) =
        some (total value? (edges ++ [edge])) := by
  obtain ⟨hmem, rfl⟩ := mem_edgesFrom.mp hedge
  rw [Distances.finished_finish, List.mem_append, List.mem_singleton, not_or] at hopen
  have hlonger := hwalk.concat hmem hopen.2 fun earlier hearlier heq =>
    hopen.1 (heq ▸ hsources earlier hearlier)
  refine ⟨hlonger, ?_⟩
  obtain ⟨w, hw⟩ := weights.sums _ _ hlonger
  rw [total_concat] at hw ⊢
  exact reads.add hvalue (weights.value?_weight reads hmem) hw

/-- The node of a turn is at most as far as every other open node. -/
theorem PathTurn.closest_least {distance : W} {a : ℚ}
    (h : PathTurn arithmetic graph d node distance moments next)
    (spread : Spread graph start d) (nearest : Nearest value? graph start d)
    (reads : arithmetic.Reads value?) (ha : value? distance = some a) {other : String}
    (hopen : other ∉ d.finished) {b : ℚ} (hb : d.number? value? other = some b) : a ≤ b := by
  have hkeys : d.keys.Nodup := spread.keys ▸ graph.nodes_nodup
  have hvalues : ∀ candidate ∈ d.candidates, ∃ a, value? candidate.2 = some a :=
    fun candidate hmem => nearest.exists_value? ((Distances.mem_candidates hkeys).mp hmem).2
  obtain ⟨least, hleast, hbound⟩ := Distances.closest?_least reads hvalues h.closest
  obtain rfl : a = least := Option.some.inj (ha.symm.trans hleast)
  obtain ⟨known, hknown, hvalue⟩ := Option.bind_eq_some_iff.mp hb
  exact hbound (other, known) ((Distances.mem_candidates hkeys).mpr ⟨hopen, hknown⟩) b hvalue

/-- A turn at a node of distance `a` lowers the distances of open nodes, and `a` lies between what is
finished and what is open. -/
structure Advances (value? : W → Option ℚ) (graph : Adjacency W) (d : Distances W) (node : String)
    (a : ℚ) (next : Distances W) : Prop where
  finished : next.finished = d.finished ++ [node]
  number : d.number? value? node = some a
  kept : ∀ other ∈ next.finished, next.number? value? other = d.number? value? other
  lowers : Lowers value? a (d.finish node) (graph.edgesFrom node) next
  before : ∀ other ∈ next.finished, ∀ b, next.number? value? other = some b → b ≤ a
  after : ∀ other ∉ next.finished, ∀ b, next.number? value? other = some b → a ≤ b

theorem PathTurn.advances {distance : W} {a : ℚ}
    (h : PathTurn arithmetic graph d node distance moments next) (spread : Spread graph start d)
    (nearest : Nearest value? graph start d) (weights : ExactWeights value? graph start)
    (reads : arithmetic.Reads value?) (ha : value? distance = some a)
    (hlowers : Lowers value? a (d.finish node) (graph.edgesFrom node) next) :
    Advances value? graph d node a next := by
  obtain ⟨hopen, hdistance⟩ := h.candidate spread
  have hnumber : d.number? value? node = some a := (Distances.number?_eq hdistance).trans ha
  have hfinished := h.finished spread
  have hkept : ∀ other ∈ next.finished, next.number? value? other = d.number? value? other := by
    intro other hother
    rw [hfinished] at hother
    exact Distances.number?_congr (frozen_of_leads (h.relaxes spread).leads hother).1
  constructor
  case finished => exact hfinished
  case number => exact hnumber
  case kept => exact hkept
  case lowers => exact hlowers
  case before =>
    intro other hother b hb
    rw [hkept other hother] at hb
    rw [hfinished, List.mem_append, List.mem_singleton] at hother
    rcases hother with hother | rfl
    · -- whatever was finished before is no farther than a node that was open
      exact nearest.settled other hother node hopen b a hb hnumber
    · exact (Option.some.inj (hb.symm.trans hnumber)).le
  case after =>
    intro other hother b hb
    rw [hfinished, List.mem_append, not_or] at hother
    obtain ⟨known, hknown, hvalue⟩ := Option.bind_eq_some_iff.mp hb
    rcases hlowers.origin other known hknown with hold | ⟨-, edge, hedge, -, hsum⟩
    · exact h.closest_least spread nearest reads ha hother.1 ((Distances.number?_eq hold).trans hvalue)
    · -- what an edge makes of the distance is no less
      obtain rfl := Option.some.inj (hsum.symm.trans hvalue)
      exact le_add_of_nonneg_right (weights.number_nonneg (mem_edgesFrom.mp hedge).1)

namespace Advances

variable {a : ℚ}

theorem mem_finished (h : Advances value? graph d node a next) {other : String} :
    other ∈ next.finished ↔ other ∈ d.finished ∨ other = node := by
  rw [h.finished, List.mem_append, List.mem_singleton]

/-- An edge from a finished node leaves nothing to improve. -/
theorem relaxed (h : Advances value? graph d node a next) (spread : Spread graph start d)
    (nearest : Nearest value? graph start d) (weights : ExactWeights value? graph start)
    {edge : Edge W} (hedge : edge ∈ graph.edges) (hsource : edge.source ∈ next.finished) {b : ℚ}
    (hb : next.number? value? edge.source = some b) :
    ∃ c, next.number? value? edge.target = some c ∧ c ≤ b + edge.number value? := by
  rw [h.kept _ hsource] at hb
  rcases h.mem_finished.mp hsource with hold | hnode
  · obtain ⟨c, hc, hle⟩ := nearest.relaxed edge hedge hold b hb
    obtain ⟨e, he, hec⟩ := h.lowers.lower edge.target c hc
    exact ⟨e, he, hec.trans hle⟩
  · rw [hnode, h.number] at hb
    obtain rfl := Option.some.inj hb
    by_cases htarget : edge.target ∈ (d.finish node).finished
    · -- a finished target is no farther than the node
      rw [Distances.finished_finish, ← h.finished] at htarget
      have hknown : (d.distance? edge.target).isSome := by
        rcases h.mem_finished.mp htarget with hold | heq
        · exact spread.finished_known _ hold
        · obtain ⟨distance, hdistance, -⟩ := Option.bind_eq_some_iff.mp h.number
          rw [heq, hdistance]
          rfl
      obtain ⟨c, hc⟩ := nearest.exists_number? hknown
      rw [← h.kept _ htarget] at hc
      have hle := h.before _ htarget c hc
      exact ⟨c, hc, hle.trans (le_add_of_nonneg_right (weights.number_nonneg hedge))⟩
    · exact h.lowers.reach edge (mem_edgesFrom.mpr ⟨hedge, hnode⟩) htarget

theorem sorted (h : Advances value? graph d node a next) (nearest : Nearest value? graph start d) :
    next.finished.Pairwise (next.NoFarther value?) := by
  have hold : d.finished.Pairwise (next.NoFarther value?) := by
    refine nearest.sorted.imp_of_mem fun hfirst hsecond hle b c hb hc => ?_
    rw [h.kept _ (h.mem_finished.mpr (Or.inl hfirst))] at hb
    rw [h.kept _ (h.mem_finished.mpr (Or.inl hsecond))] at hc
    exact hle b c hb hc
  have hnode : next.number? value? node = some a :=
    (h.kept node (h.mem_finished.mpr (Or.inr rfl))).trans h.number
  rw [h.finished, List.pairwise_append]
  refine ⟨hold, List.pairwise_singleton .., ?_⟩
  intro first hfirst second hsecond b c hb hc
  obtain rfl := List.mem_singleton.mp hsecond
  obtain rfl := Option.some.inj (hc.symm.trans hnode)
  exact h.before first (h.mem_finished.mpr (Or.inl hfirst)) b hb

end Advances

theorem PathTurn.nearest {distance : W}
    (h : PathTurn arithmetic graph d node distance moments next) (spread : Spread graph start d)
    (nearest : Nearest value? graph start d) (weights : ExactWeights value? graph start)
    (reads : arithmetic.Reads value?) : Nearest value? graph start next := by
  obtain ⟨-, hdistance⟩ := h.candidate spread
  -- a walk to the taken node through finished ones makes the sums over its edges exact
  obtain ⟨edges, hwalk, hsources, hvalue⟩ := nearest.walked node distance hdistance
  have hsums := weights.sum_exact reads hwalk hsources hvalue
  have hlowers : Lowers value? (total value? edges) (d.finish node) (graph.edgesFrom node) next := by
    refine h.each.lowers reads (fun other known hknown => nearest.exists_value? hknown) ?_
    intro edge hedge htarget
    rw [← total_concat]
    exact (hsums edge hedge htarget).2
  have hadvances := h.advances spread nearest weights reads hvalue hlowers
  constructor
  case walked =>
    intro other known hknown
    rcases hlowers.origin other known hknown with hold | ⟨htarget, edge, hedge, rfl, hsum⟩
    · obtain ⟨walk, hsimple, hthrough, hold⟩ := nearest.walked other known hold
      refine ⟨walk, hsimple, fun edge hedge => ?_, hold⟩
      exact hadvances.mem_finished.mpr (Or.inl (hthrough edge hedge))
    · -- a lowered distance is that of the same walk, one edge longer
      refine ⟨edges ++ [edge], (hsums edge hedge htarget).1, fun other hother => ?_, ?_⟩
      · rcases List.mem_append.mp hother with hother | hother
        · exact hadvances.mem_finished.mpr (Or.inl (hsources other hother))
        · obtain rfl := List.mem_singleton.mp hother
          exact hadvances.mem_finished.mpr (Or.inr (mem_edgesFrom.mp hedge).2)
      · rw [hsum, total_concat]
  case relaxed =>
    intro edge hedge hsource b hb
    exact hadvances.relaxed spread nearest weights hedge hsource hb
  case settled =>
    intro other hother later hlater b c hb hc
    exact (hadvances.before other hother b hb).trans (hadvances.after later hlater c hc)
  case sorted => exact hadvances.sorted nearest

/-! ## Whole runs -/

theorem Exhausts.nearest (h : Exhausts arithmetic graph d moments last) (spread : Spread graph start d)
    (nearest : Nearest value? graph start d) (weights : ExactWeights value? graph start)
    (reads : arithmetic.Reads value?) : Nearest value? graph start last := by
  induction h with
  | done => exact nearest
  | more turn _ ih => exact ih (turn.spread spread) (turn.nearest spread nearest weights reads)

/-- When every node with a distance is finished, the distance is at most the weight of any walk. -/
theorem Nearest.le_total (h : Nearest value? graph start d)
    (hfinished : ∀ node, (d.distance? node).isSome → node ∈ d.finished)
    (hstart : (d.distance? start).isSome) {edges : List (Edge W)}
    (hwalk : graph.Walk start edges node) :
    ∃ a, d.number? value? node = some a ∧ a ≤ total value? edges := by
  induction hwalk with
  | nil =>
    obtain ⟨distance, hdistance⟩ := Option.isSome_iff_exists.mp hstart
    obtain ⟨edges, hsimple, -, hvalue⟩ := h.walked start distance hdistance
    rw [hsimple.eq_nil] at hvalue
    exact ⟨_, (Distances.number?_eq hdistance).trans hvalue, le_rfl⟩
  | @concat edges edge _ hmem ih =>
    obtain ⟨a, ha, hle⟩ := ih
    obtain ⟨distance, hdistance, -⟩ := Option.bind_eq_some_iff.mp ha
    have hsource := hfinished edge.source (Option.isSome_iff_exists.mpr ⟨distance, hdistance⟩)
    obtain ⟨b, hb, hba⟩ := h.relaxed edge hmem hsource a ha
    rw [total_concat]
    exact ⟨b, hb, by linarith⟩

/-- A run ends with the least weights. -/
structure EndsNearest (value? : W → Option ℚ) (graph : Adjacency W) (start : String)
    (d : Distances W) : Prop where
  isDistance : ∀ node distance, d.distance? node = some distance →
    ∃ a, value? distance = some a ∧ graph.IsDistance value? start node a
  isSome_iff : ∀ node, (d.distance? node).isSome ↔ ∃ edges, graph.Walk start edges node
  sorted : d.finished.Pairwise fun node other => ∀ a b, graph.IsDistance value? start node a →
    graph.IsDistance value? start other b → a ≤ b

theorem Nearest.ends (h : Nearest value? graph start d)
    (spread : Spread graph start d) (hends : d.closest? arithmetic = none) :
    EndsNearest value? graph start d := by
  have hfinished : ∀ node, (d.distance? node).isSome → node ∈ d.finished :=
    fun node hknown => (spread.mem_finished_iff hends).mpr hknown
  have hisDistance : ∀ node distance, d.distance? node = some distance →
      ∃ a, value? distance = some a ∧ graph.IsDistance value? start node a := by
    intro node distance hdistance
    obtain ⟨edges, hsimple, -, hvalue⟩ := h.walked node distance hdistance
    refine ⟨_, hvalue, ⟨edges, hsimple.walk, rfl⟩, ?_⟩
    rintro _ ⟨walk, hwalk, rfl⟩
    obtain ⟨a, ha, hle⟩ := h.le_total hfinished spread.start_known hwalk
    obtain rfl := Option.some.inj (((Distances.number?_eq hdistance).trans hvalue).symm.trans ha)
    exact hle
  refine ⟨hisDistance, fun node => ?_, ?_⟩
  · rw [spread.isSome_iff hends, Adjacency.reaches_iff_exists_walk]
  · have hnumber : ∀ node ∈ d.finished, ∀ a, graph.IsDistance value? start node a →
        d.number? value? node = some a := by
      intro node hnode a ha
      obtain ⟨distance, hdistance⟩ := Option.isSome_iff_exists.mp (spread.finished_known node hnode)
      obtain ⟨b, hb, hleast⟩ := hisDistance node distance hdistance
      rw [Distances.number?_eq hdistance, hb, hleast.unique ha]
    refine h.sorted.imp_of_mem fun hfirst hsecond hle a b ha hb => ?_
    exact hle a b (hnumber _ hfirst a ha) (hnumber _ hsecond b hb)

theorem shortestPaths_endsNearest (reads : arithmetic.Reads value?) (hstart : start ∈ graph.nodes)
    (weights : ExactWeights value? graph start)
    (h : Exhausts arithmetic graph (.starting arithmetic graph.nodes start) moments last) :
    EndsNearest value? graph start last := by
  have hspread := starting_spread arithmetic hstart
  obtain ⟨hlast, hends⟩ := h.spread hspread
  exact (h.nearest hspread (.starting reads) weights reads).ends hlast hends

/-! ## Stories -/

/-- The last moment of a run shows its end. -/
theorem distances_getLast_of_leads (h : Leads Settles d moments last) (moment : PathMoment W)
    (hmoment : moment.distances = d) :
    ∃ final, (moment :: moments).getLast? = some final ∧ final.distances = last := by
  induction h generalizing moment with
  | nil => exact ⟨moment, rfl, hmoment⟩
  | cons first _ ih =>
    obtain ⟨final, hfinal, hlast⟩ := ih _ first.shown
    exact ⟨final, by rw [List.getLast?_cons_cons, hfinal], hlast⟩

theorem isFinite_of_value? {x : Float} {a : ℚ} (h : Decimal.value? x = some a) : x.isFinite := by
  show x.toModel.unpack.isFinite
  unfold Decimal.value? at h
  cases hunpack : x.toModel.unpack <;> rw [hunpack] at h <;> first | rfl | cases h

/-- The last step shows the least weight of a walk to each node, or infinity when no walk leads to it, and
the visits come in the order of these weights. -/
structure ShowsNearest (graph : Adjacency Float) (start : String) (steps : List Step) : Prop where
  final : ∃ last, steps.getLast? = some last ∧ ∀ node ∈ graph.nodes,
    (∀ edges, graph.Walk start edges node → ∃ distance a,
      shownDistance? node last = some (.float distance) ∧ Decimal.value? distance = some a ∧
        graph.IsDistance Decimal.value? start node a) ∧
    (shownDistance? node last = some (.str "inf") ↔ ¬∃ edges, graph.Walk start edges node)
  visits : ∃ nodes : List String, visitedNodes steps = nodes.map some ∧
    nodes.Pairwise fun node other => ∀ a b, graph.IsDistance Decimal.value? start node a →
      graph.IsDistance Decimal.value? start other b → a ≤ b

/-- The last step shows what a run ends with. -/
theorem EndsNearest.shows {graph : Adjacency Float} {start : String} {final : PathMoment Float}
    (h : EndsNearest Decimal.value? graph start final.distances)
    (hkeys : final.distances.keys = graph.nodes) {node : String} (hnode : node ∈ graph.nodes) :
    (∀ edges, graph.Walk start edges node → ∃ distance a,
      shownDistance? node (pathStepAt final) = some (.float distance) ∧
        Decimal.value? distance = some a ∧ graph.IsDistance Decimal.value? start node a) ∧
    (shownDistance? node (pathStepAt final) = some (.str "inf") ↔
      ¬∃ edges, graph.Walk start edges node) := by
  rw [shownDistance?_pathStepAt (hkeys ▸ graph.nodes_nodup) (hkeys ▸ hnode), ← h.isSome_iff]
  cases hdistance : final.distances.distance? node with
  | none =>
    refine ⟨fun edges hwalk => ?_, fun _ => Bool.false_ne_true, fun _ => rfl⟩
    have hknown := (h.isSome_iff node).mpr ⟨edges, hwalk⟩
    rw [hdistance] at hknown
    cases hknown
  | some distance =>
    obtain ⟨a, ha, hleast⟩ := h.isDistance node distance hdistance
    have hjson : distanceJson (some distance) = .float distance := if_pos (isFinite_of_value? ha)
    rw [hjson]
    refine ⟨fun _ _ => ⟨distance, a, rfl, ha, hleast⟩, fun hinf => ?_, fun hnone => absurd rfl hnone⟩
    cases hinf

/-- When no weight is negative and the weights of simple walks are exact, the search for shortest paths
ends with the least weight of a walk to each node, infinity exactly where no walk leads, and visits the nodes
in the order of these weights. -/
theorem shortestPaths_least_weights {graph : Adjacency Float} {start : String}
    (hstart : start ∈ graph.nodes) (weights : ExactWeights Decimal.value? graph start) :
    ShowsNearest graph start (steps .weighted graph start) := by
  obtain ⟨last, hrun⟩ := shortestPaths_exhausts .float hstart
  have hspread := starting_spread .float hstart
  have hleads := hrun.leads hspread
  obtain ⟨final, hfinal, rfl⟩ := distances_getLast_of_leads hleads
    ⟨.start start, .starting .float graph.nodes start⟩ rfl
  have hends := shortestPaths_endsNearest float_reads hstart weights hrun
  constructor
  · refine ⟨pathStepAt final, ?_, fun node hnode => hends.shows (hrun.spread hspread).1.keys hnode⟩
    show ((shortestPaths .float graph start).map pathStepAt).getLast? = _
    rw [List.getLast?_map]
    exact congrArg (Option.map pathStepAt) hfinal
  · refine ⟨finishes (shortestPaths .float graph start), visitedNodes_pathStepAt _, ?_⟩
    have hfinished : final.distances.finished = finishes (shortestPaths .float graph start) :=
      finished_eq_of_leads hleads
    rw [← hfinished]
    exact hends.sorted

/-- A detour that is shorter than the edge, an edge of weight zero, one without a weight, and a node that the
start does not lead to. -/
def detourCode : String :=
  "graph = \x7b'A': [('B', 4.0), ('C', 1.0)], 'C': [('B', 2.0), ('D', 0.0)], 'D': ['C'], 'E': [('A', 1.0)]\x7d\nstart = 'A'\n"

theorem shortestPaths_least_weights_detour :
    ∃ graph, declared? detourCode = some graph ∧ startNode? graph detourCode = some "A" ∧
      "A" ∈ graph.nodes ∧ ExactWeights Decimal.value? graph "A" ∧
      visitedNodes (steps .weighted graph "A") = [some "A", some "C", some "D", some "B"] ∧
      ShowsNearest graph "A" (steps .weighted graph "A") := by
  have hrun : (declared? detourCode).map (fun graph =>
      (startNode? graph detourCode, graph.nodes, visitedNodes (steps .weighted graph "A"))) =
      some (some "A", ["A", "C", "D", "E", "B"], [some "A", some "C", some "D", some "B"]) := by
    decide +kernel
  have hvalues : (declared? detourCode).map (fun graph =>
      graph.edges.map fun edge => edge.weight.map Decimal.value?) =
      some [some (some 4), some (some 1), some (some 2), some (some 0), none, some (some 1)] := by
    decide +kernel
  obtain ⟨graph, hgraph, hrun⟩ := Option.map_eq_some_iff.mp hrun
  rw [hgraph] at hvalues
  replace hvalues : graph.edges.map (fun edge => edge.weight.map Decimal.value?) = _ :=
    Option.some.inj hvalues
  simp only [Prod.mk.injEq] at hrun
  obtain ⟨hstart, hnodes, hvisited⟩ := hrun
  have hmem : "A" ∈ graph.nodes := by simp [hnodes]
  -- the edge without a weight counts as one
  have hnatural : ∀ edge ∈ graph.edges, ∀ w, edge.weight = some w →
      ∃ n : ℕ, Decimal.value? w = some (n : ℚ) := by
    intro edge hedge w hw
    have hvalue : some (Decimal.value? w) ∈ graph.edges.map fun edge => edge.weight.map Decimal.value? :=
      List.mem_map.mpr ⟨edge, hedge, by rw [hw]; rfl⟩
    rw [hvalues] at hvalue
    simp only [List.mem_cons, List.not_mem_nil, Option.some_inj, reduceCtorEq, or_false, false_or] at hvalue
    rcases hvalue with h | h | h | h | h
    · exact ⟨4, h⟩
    · exact ⟨1, by rw [h, Nat.cast_one]⟩
    · exact ⟨2, h⟩
    · exact ⟨0, by rw [h, Nat.cast_zero]⟩
    · exact ⟨1, by rw [h, Nat.cast_one]⟩
  have htotal : total Decimal.value? graph.edges ≤ 2 ^ 53 := by
    have hnumbers : graph.edges.map (Edge.number Decimal.value?) =
        (graph.edges.map fun edge => edge.weight.map Decimal.value?).map
          fun value => value.elim 1 fun value => value.getD 0 := by
      rw [List.map_map]
      refine List.map_congr_left fun edge _ => ?_
      show edge.weight.elim 1 _ = (edge.weight.map _).elim 1 _
      cases edge.weight <;> rfl
    unfold total
    rw [hnumbers, hvalues]
    decide +kernel
  have hexact : ExactWeights Decimal.value? graph "A" := exactWeights_of_natural hnatural htotal
  exact ⟨graph, hgraph, hstart, hmem, hexact, hvisited, shortestPaths_least_weights hmem hexact⟩

end Storyboard.Graph
