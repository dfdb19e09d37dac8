import Storyboard.Proofs.Graph.Simulation
import Storyboard.Proofs.Json.Canonical

/-!
# Shortest paths settle every node

Nothing here depends on the weights, or on what their arithmetic yields.  A turn finishes a node that has a
distance and is not finished (`Distances.mem_candidates`), and relaxes its edges: all that they lead to has
a distance afterwards, and the distances of the finished nodes stay as they are (`Relaxes`).

`Spread` is what every turn keeps.  Each turn finishes one more node of the graph, so the limit on the turns
is never what ends them, and when no node is left to finish, the finished ones are closed under edges.
-/

namespace Storyboard

theorem Ordered.keys_put {α : Type} {key : String} {value : α} {entries : List (String × α)}
    (h : key ∈ entries.map Prod.fst) :
    (put key value entries).map Prod.fst = entries.map Prod.fst := by
  induction entries with
  | nil => exact absurd h List.not_mem_nil
  | cons entry rest ih =>
    obtain ⟨k, v⟩ := entry
    rw [put]
    split
    next => rfl
    next hk =>
      rw [List.map_cons, List.mem_cons] at h
      have hrest : key ∈ rest.map Prod.fst := h.resolve_left fun heq => hk heq.symm
      rw [List.map_cons, List.map_cons, ih hrest]

namespace Graph

variable {W : Type} {arithmetic : Arithmetic W} {graph : Adjacency W} {start node : String}
  {d next last : Distances W} {moments more later : List (PathMoment W)}

/-! ## Distances -/

namespace Distances

@[simp] theorem finished_finish (d : Distances W) (node : String) :
    (d.finish node).finished = d.finished ++ [node] := rfl

@[simp] theorem distance?_finish (d : Distances W) (node other : String) :
    (d.finish node).distance? other = d.distance? other := rfl

@[simp] theorem finished_improve (d : Distances W) (node : String) (distance : W) :
    (d.improve node distance).finished = d.finished := rfl

@[simp] theorem distance?_improve_self (d : Distances W) (node : String) (distance : W) :
    (d.improve node distance).distance? node = some distance := by
  show (Ordered.find? node (Ordered.put node (some distance) d.known)).join = some distance
  rw [Ordered.find?_put_self]
  rfl

theorem distance?_improve_ne {other : String} (h : other ≠ node) (d : Distances W)
    (distance : W) : (d.improve node distance).distance? other = d.distance? other := by
  show (Ordered.find? other (Ordered.put node (some distance) d.known)).join = _
  rw [Ordered.find?_put_ne h]
  rfl

/-- The nodes that have a place for their distance. -/
def keys (d : Distances W) : List String := d.known.map Prod.fst

theorem keys_improve {distance : W} (h : node ∈ d.keys) : (d.improve node distance).keys = d.keys :=
  Ordered.keys_put h

theorem distance?_eq_some_iff (h : d.keys.Nodup) {distance : W} :
    d.distance? node = some distance ↔ (node, some distance) ∈ d.known := by
  have hkeys : KeysOnce d.known := h
  rw [← hkeys.lookup_eq_some_iff, ← Ordered.find?_eq_lookup]
  unfold distance?
  cases Ordered.find? node d.known with
  | none => simp
  | some known => simp

/-- The candidates are the nodes that have a distance and are not finished. -/
theorem mem_candidates (h : d.keys.Nodup) {distance : W} :
    (node, distance) ∈ d.candidates ↔ node ∉ d.finished ∧ d.distance? node = some distance := by
  rw [distance?_eq_some_iff h]
  unfold candidates
  rw [List.mem_filterMap]
  constructor
  · rintro ⟨⟨other, known⟩, hmem, hsome⟩
    dsimp only at hsome
    split at hsome
    next => cases hsome
    next hopen =>
      obtain ⟨_, rfl, heq⟩ := Option.map_eq_some_iff.mp hsome
      obtain ⟨rfl, rfl⟩ := Prod.mk.inj heq
      exact ⟨by simpa using hopen, hmem⟩
  · rintro ⟨hopen, hmem⟩
    refine ⟨(node, some distance), hmem, ?_⟩
    dsimp only
    rw [if_neg (by simpa using hopen)]
    rfl

theorem closestOf_mem (best : String × W) (others : List (String × W)) :
    closestOf arithmetic best others ∈ best :: others := by
  induction others generalizing best with
  | nil => exact List.mem_singleton.mpr rfl
  | cons other rest ih =>
    rw [closestOf]
    split
    next =>
      rcases List.mem_cons.mp (ih best) with heq | hrest
      · rw [heq]
        exact List.mem_cons_self
      · exact List.mem_cons_of_mem _ (List.mem_cons_of_mem _ hrest)
    next => exact List.mem_cons_of_mem _ (ih other)

theorem closest?_mem {pair : String × W} (h : d.closest? arithmetic = some pair) :
    pair ∈ d.candidates := by
  unfold closest? at h
  split at h
  next => cases h
  next first rest hcandidates =>
    obtain rfl := Option.some.inj h
    rw [hcandidates]
    exact closestOf_mem first rest

theorem candidates_of_closest?_eq_none (h : d.closest? arithmetic = none) : d.candidates = [] := by
  unfold closest? at h
  split at h
  next hcandidates => exact hcandidates
  next => cases h

end Distances

/-! ## Moments -/

/-- The node that is finished. -/
def PathEvent.finished? : PathEvent W → Option String
  | .finish node _ => some node
  | _ => none

/-- The nodes that are finished, in order. -/
def finishes (moments : List (PathMoment W)) : List String :=
  moments.filterMap fun moment => moment.event.finished?

theorem finishes_append (moments more : List (PathMoment W)) :
    finishes (moments ++ more) = finishes moments ++ finishes more := List.filterMap_append

/-- A moment leaves the finished nodes their distances, and finishes a node at the distance that it
has. -/
structure Settles (before : Distances W) (moment : PathMoment W) (after : Distances W) : Prop where
  shown : moment.distances = after
  keys : after.keys = before.keys
  finished : after.finished = before.finished ++ moment.event.finished?.toList
  frozen : ∀ node ∈ before.finished, after.distance? node = before.distance? node
  taken : ∀ node distance, moment.event = .finish node distance →
    after.distance? node = some distance

theorem finished_eq_of_leads (h : Leads Settles d moments last) :
    last.finished = d.finished ++ finishes moments := by
  induction h with
  | nil => exact (List.append_nil _).symm
  | @cons before between after moment rest first _ ih =>
    rw [ih, first.finished, List.append_assoc]
    congr 1
    unfold finishes
    rw [List.filterMap_cons]
    cases moment.event.finished? <;> rfl

theorem keys_of_leads (h : Leads Settles d moments last) :
    last.keys = d.keys ∧ ∀ moment ∈ moments, moment.distances.keys = d.keys := by
  induction h with
  | nil => exact ⟨rfl, fun _ h => absurd h List.not_mem_nil⟩
  | cons first _ ih =>
    rw [first.keys] at ih
    refine ⟨ih.1, fun moment hmem => ?_⟩
    rcases List.mem_cons.mp hmem with rfl | hmem
    · rw [first.shown, first.keys]
    · exact ih.2 moment hmem

/-- From the moment when a node is finished on, its distance stays as it is. -/
theorem frozen_of_leads (h : Leads Settles d moments last) (hnode : node ∈ d.finished) :
    last.distance? node = d.distance? node ∧
      ∀ moment ∈ moments, moment.distances.distance? node = d.distance? node := by
  induction h with
  | nil => exact ⟨rfl, fun _ h => absurd h List.not_mem_nil⟩
  | @cons before between after moment rest first _ ih =>
    have hbetween : node ∈ between.finished := by
      rw [first.finished]
      exact List.mem_append_left _ hnode
    obtain ⟨hlast, hlater⟩ := ih hbetween
    rw [first.frozen node hnode] at hlast hlater
    refine ⟨hlast, fun other hmem => ?_⟩
    rcases List.mem_cons.mp hmem with rfl | hmem
    · rw [first.shown, first.frozen node hnode]
    · exact hlater other hmem

/-! ## Relaxing edges -/

/-- Edges of a node at the given distance are relaxed one after the other: those that lead to a finished
node are not looked at, and of the others some bring their target closer. -/
inductive RelaxesEach (arithmetic : Arithmetic W) (distance : W) :
    Distances W → List (Edge W) → List (PathMoment W) → Distances W → Prop
  | done {d : Distances W} : RelaxesEach arithmetic distance d [] [] d
  | skip {d next : Distances W} {edge : Edge W} {rest : List (Edge W)} {moments : List (PathMoment W)}
      (finished : edge.target ∈ d.finished)
      (later : RelaxesEach arithmetic distance d rest moments next) :
      RelaxesEach arithmetic distance d (edge :: rest) moments next
  | improve {d next : Distances W} {edge : Edge W} {rest : List (Edge W)} {candidate : W}
      {moments : List (PathMoment W)} (unfinished : edge.target ∉ d.finished)
      (candidate_eq : candidate = arithmetic.add distance (arithmetic.weight edge))
      (closer : ∀ known, d.distance? edge.target = some known → arithmetic.below candidate known)
      (later : RelaxesEach arithmetic distance (d.improve edge.target candidate) rest moments next) :
      RelaxesEach arithmetic distance d (edge :: rest)
        (⟨.relax edge.source edge.target (arithmetic.weight edge), d⟩ ::
          ⟨.improve edge.target candidate, d.improve edge.target candidate⟩ :: moments) next
  | keep {d next : Distances W} {edge : Edge W} {rest : List (Edge W)} {known : W}
      {moments : List (PathMoment W)} (unfinished : edge.target ∉ d.finished)
      (distance_eq : d.distance? edge.target = some known)
      (farther : ¬arithmetic.below (arithmetic.add distance (arithmetic.weight edge)) known)
      (later : RelaxesEach arithmetic distance d rest moments next) :
      RelaxesEach arithmetic distance d (edge :: rest)
        (⟨.relax edge.source edge.target (arithmetic.weight edge), d⟩ :: moments) next

theorem relaxEdges_relaxesEach (arithmetic : Arithmetic W) (distance : W) (d : Distances W)
    (edges : List (Edge W)) :
    RelaxesEach arithmetic distance d edges (relaxEdges arithmetic distance d edges).2
      (relaxEdges arithmetic distance d edges).1 := by
  induction edges generalizing d with
  | nil => exact .done
  | cons edge rest ih =>
    rw [relaxEdges]
    split
    next hfinished => exact .skip (List.contains_iff_mem.mp hfinished) (ih d)
    next hopen =>
      have hunfinished : edge.target ∉ d.finished :=
        fun hmem => hopen (List.contains_iff_mem.mpr hmem)
      dsimp only
      split
      next hbetter =>
        refine .improve hunfinished rfl ?_ (ih _)
        intro known hknown
        unfold Distances.improves at hbetter
        rw [hknown] at hbetter
        exact hbetter
      next hworse =>
        -- what no distance improves has one
        cases hknown : d.distance? edge.target with
        | none =>
          unfold Distances.improves at hworse
          rw [hknown] at hworse
          exact absurd rfl hworse
        | some known =>
          unfold Distances.improves at hworse
          rw [hknown] at hworse
          exact .keep hunfinished hknown hworse (ih d)

/-- Some edges are relaxed: no node is finished, and what they lead to has a distance. -/
structure Relaxes (d : Distances W) (edges : List (Edge W)) (moments : List (PathMoment W))
    (next : Distances W) : Prop where
  leads : Leads Settles d moments next
  finishes : finishes moments = []
  known : ∀ node, (next.distance? node).isSome ↔ (d.distance? node).isSome ∨
    node ∉ d.finished ∧ ∃ edge ∈ edges, edge.target = node

theorem start_settles (node : String) (d : Distances W) :
    Leads Settles d [⟨.start node, d⟩] d :=
  .single ⟨rfl, rfl, (List.append_nil _).symm, fun _ _ => rfl, fun _ _ h => nomatch h⟩

theorem look_settles (d : Distances W) (source target : String) (weight : W) :
    Settles d ⟨.relax source target weight, d⟩ d where
  shown := rfl
  keys := rfl
  finished := (List.append_nil _).symm
  frozen _ _ := rfl
  taken _ _ h := nomatch h

theorem improve_settles {distance : W} (hmem : node ∈ d.keys) (hopen : node ∉ d.finished) :
    Settles d ⟨.improve node distance, d.improve node distance⟩ (d.improve node distance) where
  shown := rfl
  keys := Distances.keys_improve hmem
  finished := (List.append_nil _).symm
  frozen other hother := by
    refine Distances.distance?_improve_ne ?_ d distance
    rintro rfl
    exact hopen hother
  taken _ _ h := nomatch h

theorem finish_settles {distance : W} (h : d.distance? node = some distance) :
    Settles d ⟨.finish node distance, d.finish node⟩ (d.finish node) where
  shown := rfl
  keys := rfl
  finished := rfl
  frozen _ _ := rfl
  taken other distance' heq := by
    obtain ⟨rfl, rfl⟩ := PathEvent.finish.inj heq
    exact h

theorem RelaxesEach.relaxes {distance : W} {edges : List (Edge W)}
    (h : RelaxesEach arithmetic distance d edges moments next)
    (hkeys : ∀ edge ∈ edges, edge.target ∈ d.keys) : Relaxes d edges moments next := by
  induction h with
  | done => exact ⟨.nil, rfl, fun node => by simp⟩
  | @skip d next edge rest moments finished _ ih =>
    have hlater := ih (List.forall_mem_cons.mp hkeys).2
    refine ⟨hlater.leads, hlater.finishes, fun other => ?_⟩
    rw [hlater.known, List.exists_mem_cons_iff]
    refine or_congr_right (and_congr_right fun hopen => ?_)
    rw [or_iff_right]
    rintro rfl
    exact hopen finished
  | @improve d next edge rest candidate moments unfinished _ _ _ ih =>
    obtain ⟨hedge, hrest⟩ := List.forall_mem_cons.mp hkeys
    have hlater := ih ((Distances.keys_improve hedge).symm ▸ hrest)
    refine ⟨.cons (look_settles ..) (.cons (improve_settles hedge unfinished) hlater.leads),
      hlater.finishes, fun other => ?_⟩
    rw [hlater.known, Distances.finished_improve, List.exists_mem_cons_iff]
    -- the target has a distance now, whether it had one before or not
    by_cases heq : other = edge.target
    · subst heq
      simp [unfinished]
    · rw [Distances.distance?_improve_ne heq]
      simp [Ne.symm heq]
  | @keep d next edge rest known moments _ distance_eq _ _ ih =>
    have hlater := ih (List.forall_mem_cons.mp hkeys).2
    refine ⟨.cons (look_settles ..) hlater.leads, hlater.finishes, fun other => ?_⟩
    rw [hlater.known, List.exists_mem_cons_iff]
    by_cases heq : other = edge.target
    · subst heq
      simp [distance_eq]
    · simp [Ne.symm heq]

/-! ## Turns -/

/-- What every turn keeps: the nodes that have a distance can be reached, the start among them, and what a
finished node leads to has a distance. -/
structure Spread (graph : Adjacency W) (start : String) (d : Distances W) : Prop where
  keys : d.keys = graph.nodes
  finished_nodup : d.finished.Nodup
  finished_known : ∀ node ∈ d.finished, (d.distance? node).isSome
  start_known : (d.distance? start).isSome
  reached : ∀ node, (d.distance? node).isSome → graph.Reaches start node
  closed : ∀ node ∈ d.finished, ∀ other, graph.Joins node other → (d.distance? other).isSome
  first : (d.finished = [] ∧ ∀ node, (d.distance? node).isSome → node = start) ∨
    d.finished.head? = some start

/-- The closest node is finished, and its edges are relaxed. -/
structure PathTurn (arithmetic : Arithmetic W) (graph : Adjacency W) (d : Distances W) (node : String)
    (distance : W) (moments : List (PathMoment W)) (next : Distances W) : Prop where
  closest : d.closest? arithmetic = some (node, distance)
  each : RelaxesEach arithmetic distance (d.finish node) (graph.edgesFrom node) moments next

theorem mem_edgesFrom {edge : Edge W} :
    edge ∈ graph.edgesFrom node ↔ edge ∈ graph.edges ∧ edge.source = node := by
  unfold Adjacency.edgesFrom
  rw [List.mem_filter, beq_iff_eq]

namespace PathTurn

variable {distance : W}

theorem candidate (h : PathTurn arithmetic graph d node distance moments next)
    (spread : Spread graph start d) : node ∉ d.finished ∧ d.distance? node = some distance :=
  (Distances.mem_candidates (spread.keys ▸ graph.nodes_nodup)).mp (Distances.closest?_mem h.closest)

theorem relaxes (h : PathTurn arithmetic graph d node distance moments next)
    (spread : Spread graph start d) :
    Relaxes (d.finish node) (graph.edgesFrom node) moments next := by
  refine h.each.relaxes fun edge hedge => ?_
  show edge.target ∈ d.keys
  rw [spread.keys]
  exact (graph.ends_mem edge (mem_edgesFrom.mp hedge).1).2

theorem leads (h : PathTurn arithmetic graph d node distance moments next)
    (spread : Spread graph start d) :
    Leads Settles d (⟨.finish node distance, d.finish node⟩ :: moments) next :=
  .cons (finish_settles (h.candidate spread).2) (h.relaxes spread).leads

theorem finished (h : PathTurn arithmetic graph d node distance moments next)
    (spread : Spread graph start d) : next.finished = d.finished ++ [node] := by
  have hrelaxes := h.relaxes spread
  rw [finished_eq_of_leads hrelaxes.leads, hrelaxes.finishes, List.append_nil]
  rfl

theorem mem_finished_iff (h : PathTurn arithmetic graph d node distance moments next)
    (spread : Spread graph start d) {other : String} :
    other ∈ next.finished ↔ other ∈ d.finished ∨ other = node := by
  rw [h.finished spread, List.mem_append, List.mem_singleton]

theorem isSome_distance? (h : PathTurn arithmetic graph d node distance moments next)
    (spread : Spread graph start d) : (d.distance? node).isSome := by
  rw [(h.candidate spread).2]
  rfl

/-- No distance is lost. -/
theorem known_of_known (h : PathTurn arithmetic graph d node distance moments next)
    (spread : Spread graph start d) {other : String} (hother : (d.distance? other).isSome) :
    (next.distance? other).isSome :=
  ((h.relaxes spread).known other).mpr (Or.inl hother)

/-- A neighbour of the node has a distance by now, or had one when it was finished. -/
theorem known_of_joins (h : PathTurn arithmetic graph d node distance moments next)
    (spread : Spread graph start d) {target : String} (hjoins : graph.Joins node target) :
    (next.distance? target).isSome := by
  obtain ⟨edge, hmem, hsource, rfl⟩ := hjoins
  refine ((h.relaxes spread).known edge.target).mpr ?_
  by_cases htarget : edge.target ∈ (d.finish node).finished
  · refine Or.inl ?_
    rw [Distances.finished_finish, List.mem_append, List.mem_singleton] at htarget
    rcases htarget with htarget | heq
    · exact spread.finished_known _ htarget
    · rw [heq]
      exact h.isSome_distance? spread
  · exact Or.inr ⟨htarget, edge, mem_edgesFrom.mpr ⟨hmem, hsource⟩, rfl⟩

theorem spread (h : PathTurn arithmetic graph d node distance moments next)
    (spread : Spread graph start d) : Spread graph start next := by
  have hrelaxes := h.relaxes spread
  have hnode : (d.distance? node).isSome := h.isSome_distance? spread
  constructor
  case keys =>
    rw [(keys_of_leads hrelaxes.leads).1]
    exact spread.keys
  case finished_nodup =>
    rw [h.finished spread]
    exact nodup_concat spread.finished_nodup (h.candidate spread).1
  case finished_known =>
    intro other hother
    rcases (h.mem_finished_iff spread).mp hother with hother | rfl
    · exact h.known_of_known spread (spread.finished_known other hother)
    · exact h.known_of_known spread hnode
  case start_known => exact h.known_of_known spread spread.start_known
  case reached =>
    intro other hother
    rcases (hrelaxes.known other).mp hother with hknown | ⟨_, edge, hedge, rfl⟩
    · exact spread.reached other hknown
    · obtain ⟨hmem, hsource⟩ := mem_edgesFrom.mp hedge
      exact (spread.reached node hnode).tail ⟨edge, hmem, hsource, rfl⟩
  case closed =>
    intro other hother target hjoins
    rcases (h.mem_finished_iff spread).mp hother with hother | rfl
    · exact h.known_of_known spread (spread.closed other hother target hjoins)
    · exact h.known_of_joins spread hjoins
  case first =>
    right
    rw [h.finished spread, List.head?_append]
    -- at first the start is the only node with a distance
    rcases spread.first with ⟨hnone, honly⟩ | hfirst
    · rw [hnone, honly node hnode]
      rfl
    · rw [hfirst]
      rfl

end PathTurn

/-! ## Whole runs -/

/-- Turns are taken until no node is left to finish. -/
inductive Exhausts (arithmetic : Arithmetic W) (graph : Adjacency W) :
    Distances W → List (PathMoment W) → Distances W → Prop
  | done {d : Distances W} (ends : d.closest? arithmetic = none) : Exhausts arithmetic graph d [] d
  | more {d next last : Distances W} {node : String} {distance : W}
      {moments later : List (PathMoment W)}
      (turn : PathTurn arithmetic graph d node distance moments next)
      (rest : Exhausts arithmetic graph next later last) :
      Exhausts arithmetic graph d
        (⟨.finish node distance, d.finish node⟩ :: (moments ++ later)) last

/-- No more nodes are finished than the graph has. -/
theorem Spread.finished_length_le (h : Spread graph start d) :
    d.finished.length ≤ graph.nodes.length := by
  refine (List.subperm_of_subset h.finished_nodup fun node hnode => ?_).length_le
  obtain ⟨distance, hdistance⟩ := Option.isSome_iff_exists.mp (h.finished_known node hnode)
  have hkeys : d.keys.Nodup := h.keys ▸ graph.nodes_nodup
  rw [← h.keys]
  exact List.mem_map_of_mem ((Distances.distance?_eq_some_iff hkeys).mp hdistance)

/-- When there are more turns left than nodes to finish, they are taken to the end. -/
theorem pathTurns_exhausts {turns : Nat} (spread : Spread graph start d)
    (hturns : graph.nodes.length < turns + d.finished.length) :
    ∃ last, Exhausts arithmetic graph d (pathTurns arithmetic graph turns d) last := by
  induction turns generalizing d with
  | zero =>
    -- more nodes would be finished than the graph has
    have hle := spread.finished_length_le
    omega
  | succ turns ih =>
    rw [pathTurns]
    split
    next hends => exact ⟨d, .done hends⟩
    next node distance hclosest =>
      have hturn : PathTurn arithmetic graph d node distance _ _ :=
        ⟨hclosest, relaxEdges_relaxesEach ..⟩
      have hlength := congrArg List.length (hturn.finished spread)
      rw [List.length_append, List.length_singleton] at hlength
      obtain ⟨last, hrest⟩ := ih (hturn.spread spread) (by omega)
      exact ⟨last, .more hturn hrest⟩

theorem Exhausts.leads (h : Exhausts arithmetic graph d moments last)
    (spread : Spread graph start d) : Leads Settles d moments last := by
  induction h with
  | done => exact .nil
  | more turn _ ih => exact (turn.leads spread).append (ih (turn.spread spread))

/-- Turns keep what every turn keeps, until no node is left to finish. -/
theorem Exhausts.spread (h : Exhausts arithmetic graph d moments last)
    (spread : Spread graph start d) :
    Spread graph start last ∧ last.closest? arithmetic = none := by
  induction h with
  | done ends => exact ⟨spread, ends⟩
  | more turn _ ih => exact ih (turn.spread spread)

/-- When no node is left to finish, the finished ones are those that have a distance. -/
theorem Spread.mem_finished_iff (h : Spread graph start d) (hends : d.closest? arithmetic = none) :
    node ∈ d.finished ↔ (d.distance? node).isSome := by
  constructor
  · exact h.finished_known node
  · intro hknown
    obtain ⟨distance, hdistance⟩ := Option.isSome_iff_exists.mp hknown
    by_contra hopen
    have hcandidate := (Distances.mem_candidates (h.keys ▸ graph.nodes_nodup)).mpr ⟨hopen, hdistance⟩
    rw [Distances.candidates_of_closest?_eq_none hends] at hcandidate
    exact List.not_mem_nil hcandidate

/-- When no node is left to finish, a node has a distance when it can be reached. -/
theorem Spread.isSome_iff (h : Spread graph start d) (hends : d.closest? arithmetic = none) :
    (d.distance? node).isSome ↔ graph.Reaches start node := by
  constructor
  · exact h.reached node
  · intro hreaches
    induction hreaches with
    | refl => exact h.start_known
    | tail _ hjoins ih => exact h.closed _ ((h.mem_finished_iff hends).mpr ih) _ hjoins

theorem distance?_starting_self (arithmetic : Arithmetic W) (nodes : List String)
    (start : String) :
    (Distances.starting arithmetic nodes start).distance? start = some arithmetic.zero :=
  Distances.distance?_improve_self ⟨nodes.map fun node => (node, none), []⟩ ..

/-- At first no distance is known but that of the start. -/
theorem distance?_starting_ne (h : node ≠ start) (arithmetic : Arithmetic W)
    (nodes : List String) : (Distances.starting arithmetic nodes start).distance? node = none := by
  show (Ordered.find? node (Ordered.put start _ _)).join = none
  rw [Ordered.find?_put_ne h]
  induction nodes with
  | nil => rfl
  | cons first rest ih =>
    rw [List.map_cons, Ordered.find?]
    split
    next => rfl
    next => exact ih

theorem starting_spread (arithmetic : Arithmetic W) (hstart : start ∈ graph.nodes) :
    Spread graph start (.starting arithmetic graph.nodes start) := by
  have honly : ∀ node, ((Distances.starting arithmetic graph.nodes start).distance? node).isSome →
      node = start := by
    intro node hknown
    by_contra hne
    rw [distance?_starting_ne hne] at hknown
    cases hknown
  constructor
  case keys =>
    have hkeys : ((graph.nodes.map fun node => (node, (none : Option W))).map Prod.fst) =
        graph.nodes := by simp [Function.comp_def]
    show (Ordered.put start _ _).map Prod.fst = _
    rw [Ordered.keys_put (hkeys.symm ▸ hstart), hkeys]
  case finished_nodup => exact List.nodup_nil
  case finished_known => exact fun _ h => absurd h List.not_mem_nil
  case start_known =>
    rw [distance?_starting_self]
    rfl
  case reached =>
    intro node hknown
    rw [honly node hknown]
    exact .refl
  case closed => exact fun _ h => absurd h List.not_mem_nil
  case first => exact Or.inl ⟨rfl, honly⟩

/-- The limit on the turns is never what ends a run. -/
theorem shortestPaths_exhausts (arithmetic : Arithmetic W) (hstart : start ∈ graph.nodes) :
    ∃ last, Exhausts arithmetic graph (.starting arithmetic graph.nodes start)
      (shortestPaths arithmetic graph start).tail last :=
  pathTurns_exhausts (starting_spread arithmetic hstart) (Nat.lt_succ_self _)

/-- Every node that can be reached is finished once, the start first, and keeps its distance from then
on. -/
structure Settled (graph : Adjacency W) (start : String) (moments : List (PathMoment W)) : Prop where
  finishes_nodup : (finishes moments).Nodup
  finishes_head : (finishes moments).head? = some start
  mem_finishes : ∀ node, node ∈ finishes moments ↔ graph.Reaches start node
  keys : ∀ moment ∈ moments, moment.distances.keys = graph.nodes
  frozen : ∀ before moment rest node distance, moments = before ++ moment :: rest →
    moment.event = .finish node distance →
      ∀ later ∈ moment :: rest, later.distances.distance? node = some distance

theorem settled_of_exhausts (hstart : start ∈ graph.nodes)
    (h : Exhausts arithmetic graph (.starting arithmetic graph.nodes start) moments last) :
    Settled graph start
      (⟨.start start, .starting arithmetic graph.nodes start⟩ :: moments) := by
  have hspread := starting_spread arithmetic hstart
  obtain ⟨hlast, hends⟩ := h.spread hspread
  have hleads := (start_settles start (.starting arithmetic graph.nodes start)).append
    (h.leads hspread)
  rw [List.singleton_append] at hleads
  have hfinishes : last.finished = [] ++ finishes _ := finished_eq_of_leads hleads
  rw [List.nil_append] at hfinishes
  constructor
  case finishes_nodup =>
    rw [← hfinishes]
    exact hlast.finished_nodup
  case finishes_head =>
    rw [← hfinishes]
    rcases hlast.first with ⟨hnone, _⟩ | hfirst
    · -- the start has a distance, so it is finished in the end
      have hmem := (hlast.mem_finished_iff hends).mpr hlast.start_known
      rw [hnone] at hmem
      exact absurd hmem List.not_mem_nil
    · exact hfirst
  case mem_finishes =>
    intro node
    rw [← hfinishes, hlast.mem_finished_iff hends, hlast.isSome_iff hends]
  case keys =>
    intro moment hmem
    rw [(keys_of_leads hleads).2 moment hmem]
    exact hspread.keys
  case frozen =>
    intro before moment rest node distance hmoments hevent later hlater
    rw [hmoments] at hleads
    obtain ⟨_, _, hrun⟩ := hleads.exists_between
    cases hrun with
    | @cons _ between _ _ _ first hrest =>
      have hnode : node ∈ between.finished := by simp [first.finished, hevent, PathEvent.finished?]
      have hdistance := first.taken node distance hevent
      rcases List.mem_cons.mp hlater with rfl | hlater
      · rw [first.shown, hdistance]
      · rw [(frozen_of_leads hrest hnode).2 later hlater, hdistance]

/-! ## Stories -/

theorem isVisit_pathStepAt (moment : PathMoment Float) :
    isVisit (pathStepAt moment) = moment.event.finished?.isSome := by
  obtain ⟨event, _⟩ := moment
  cases event <;> rfl

theorem nodeId_pathStepAt (moment : PathMoment Float) (node : String)
    (h : moment.event.finished? = some node) : (pathStepAt moment).nodeId = some node := by
  obtain ⟨event, _⟩ := moment
  cases event <;> cases h
  rfl

theorem visitedNodes_pathStepAt (moments : List (PathMoment Float)) :
    visitedNodes (moments.map pathStepAt) = (finishes moments).map some :=
  visitedNodes_map isVisit_pathStepAt nodeId_pathStepAt moments

/-- The distance of a node as a step shows it. -/
def shownDistance? (node : String) (step : Step) : Option Json :=
  (step.vars.lookup "dist").bind (Json.get? node)

/-- A distance as a data value. -/
def distanceJson (distance : Option Float) : Json := distance.elim (.str "inf") Json.ofFloat

/-- A step shows the distance of every node. -/
theorem shownDistance?_pathStepAt {moment : PathMoment Float} (hkeys : moment.distances.keys.Nodup)
    (hnode : node ∈ moment.distances.keys) : shownDistance? node (pathStepAt moment) =
      some (distanceJson (moment.distances.distance? node)) := by
  have hvar : (pathStepAt moment).vars.lookup "dist" =
      some (distancesJson moment.distances.known) := by
    obtain ⟨event, _⟩ := moment
    cases event <;> rfl
  obtain ⟨⟨other, known⟩, hmem, hother⟩ := List.mem_map.mp hnode
  obtain rfl : other = node := hother
  have honce : KeysOnce moment.distances.known := hkeys
  have hdistance : moment.distances.distance? other = known := by
    unfold Distances.distance?
    rw [Ordered.find?_eq_lookup, honce.lookup_eq_some_iff.mpr hmem]
    rfl
  -- sorting the members for the text keeps the one of each key
  have hshown : KeysOnce (moment.distances.known.map fun entry =>
      (entry.1, distanceJson entry.2)) := by
    unfold KeysOnce
    rw [List.map_map]
    exact hkeys
  unfold shownDistance?
  rw [hvar, hdistance, Option.bind_some]
  show (Json.sortMembers (moment.distances.known.map fun entry =>
    (entry.1, distanceJson entry.2))).lookup other = _
  rw [hshown.lookup_perm (Json.sortMembers_perm hshown), hshown.lookup_eq_some_iff]
  exact List.mem_map.mpr ⟨_, hmem, rfl⟩

/-- The visits name each reachable node once, the start first, and from the visit of a node on every step
shows the same distance for it. -/
structure SettlesNodes (graph : Adjacency Float) (start : String) (steps : List Step) : Prop where
  visits : ∃ nodes : List String, visitedNodes steps = nodes.map some ∧ nodes.Nodup ∧
    nodes.head? = some start ∧ ∀ node, node ∈ nodes ↔ graph.Reaches start node
  frozen : ∀ before step rest, steps = before ++ step :: rest → isVisit step = true →
    ∃ node distance, step.nodeId = some node ∧
      ∀ later ∈ step :: rest, shownDistance? node later = some distance

theorem Settled.settlesNodes {graph : Adjacency Float} {moments : List (PathMoment Float)}
    (h : Settled graph start moments) (hstart : start ∈ graph.nodes) :
    SettlesNodes graph start (moments.map pathStepAt) where
  visits := ⟨finishes moments, visitedNodes_pathStepAt moments, h.finishes_nodup, h.finishes_head,
    h.mem_finishes⟩
  frozen before step rest hsteps hvisit := by
    obtain ⟨earlier, moment, later, hmoments, -, rfl, rfl⟩ := exists_moment hsteps
    rw [isVisit_pathStepAt] at hvisit
    obtain ⟨node, hnode⟩ := Option.isSome_iff_exists.mp hvisit
    obtain ⟨distance, hevent⟩ : ∃ distance, moment.event = .finish node distance := by
      cases hcases : moment.event <;> rw [hcases] at hnode <;> cases hnode
      exact ⟨_, rfl⟩
    have hmem : node ∈ finishes moments := by
      rw [hmoments, finishes_append]
      exact List.mem_append_right _ (List.mem_filterMap.mpr ⟨moment, List.mem_cons_self, hnode⟩)
    have hnodes : node ∈ graph.nodes := ((h.mem_finishes node).mp hmem).mem_nodes hstart
    refine ⟨node, Json.ofFloat distance, nodeId_pathStepAt moment node hnode, ?_⟩
    intro step hstep
    obtain ⟨other, hother, rfl⟩ := List.mem_map.mp (List.map_cons ▸ hstep)
    have hkeys : other.distances.keys = graph.nodes :=
      h.keys other (hmoments ▸ List.mem_append_right _ hother)
    rw [shownDistance?_pathStepAt (hkeys ▸ graph.nodes_nodup) (hkeys ▸ hnodes),
      h.frozen earlier moment later node distance hmoments hevent other hother]
    rfl

/-- Whatever the weights are and however they are added and compared, the search for shortest paths comes to
an end, finishes exactly the nodes that can be reached, each once and the start first, and changes the distance
of no node that it has finished. -/
theorem shortestPaths_settle_nodes :
    (∀ (W : Type) (arithmetic : Arithmetic W) (graph : Adjacency W), ∀ start ∈ graph.nodes,
      (∃ last, Exhausts arithmetic graph (.starting arithmetic graph.nodes start)
        (shortestPaths arithmetic graph start).tail last) ∧
      Settled graph start (shortestPaths arithmetic graph start)) ∧
    ∀ (graph : Adjacency Float), ∀ start ∈ graph.nodes,
      SettlesNodes graph start (steps .weighted graph start) := by
  constructor
  · intro W arithmetic graph start hstart
    obtain ⟨last, h⟩ := shortestPaths_exhausts arithmetic hstart
    exact ⟨⟨last, h⟩, settled_of_exhausts hstart h⟩
  · intro graph start hstart
    obtain ⟨_, h⟩ := shortestPaths_exhausts .float hstart
    exact (settled_of_exhausts hstart h).settlesNodes hstart

/-- A cycle of negative weight, and a node that the start does not lead to. -/
def negativeCode : String :=
  "graph = \x7b'A': [('B', 4.0), ('C', 2.0)], 'B': [('C', -3.0), ('A', -9.5)], 'D': [('A', 1.0)]\x7d\nstart = 'A'\n"

theorem shortestPaths_settle_nodes_negative :
    ∃ graph, declared? negativeCode = some graph ∧ startNode? graph negativeCode = some "A" ∧
      "A" ∈ graph.nodes ∧
      visitedNodes (steps .weighted graph "A") = [some "A", some "C", some "B"] ∧
      SettlesNodes graph "A" (steps .weighted graph "A") := by
  have hrun : (declared? negativeCode).map (fun graph =>
      (startNode? graph negativeCode, graph.nodes, visitedNodes (steps .weighted graph "A"))) =
      some (some "A", ["A", "B", "D", "C"], [some "A", some "C", some "B"]) := by
    decide +kernel
  obtain ⟨graph, hgraph, hrun⟩ := Option.map_eq_some_iff.mp hrun
  simp only [Prod.mk.injEq] at hrun
  obtain ⟨hstart, hnodes, hvisited⟩ := hrun
  have hmem : "A" ∈ graph.nodes := by simp [hnodes]
  exact ⟨graph, hgraph, hstart, hmem, hvisited, shortestPaths_settle_nodes.2 graph "A" hmem⟩

end Graph

end Storyboard
