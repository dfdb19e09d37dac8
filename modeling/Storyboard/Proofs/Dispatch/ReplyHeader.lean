import Storyboard.Proofs.Dispatch.Absorbed

/-!
# Headers from replies

The header of a reconstructed story is read from the reply of a model.  A kind that the reply leaves
out is filled in, while a family that it leaves out is read as unknown, so that the family belongs to
the kind only where the reply says so, where its header cannot be read at all, or where its kind is
outside the vocabulary and the header is tagged anew.
-/

namespace Storyboard

/-! ## What is read of a header -/

namespace Header

/-- The family of a header is that of its kind. -/
def IsConsistent (header : Header) : Prop := header.family = header.kind.family

theorem isConsistent_retag (header : Header) (kind : Concept) :
    (header.retag kind).IsConsistent :=
  rfl

/-- Adding members changes neither the kind nor the family. -/
theorem complete_kind_and_family (header other : Header) :
    (header.complete other).kind = header.kind ∧ (header.complete other).family = header.family := by
  unfold complete
  refine List.foldlRecOn (motive := fun told : Header => told.kind = header.kind ∧
    told.family = header.family) other.extra _ ⟨rfl, rfl⟩ fun told h entry _ => ?_
  split
  next => exact h
  next => exact h

/-- A header that names no family has none. -/
theorem family_of_lookup_eq_none {members : List (String × Json)} {header : Header}
    (hread : ofMembers? members = some header) (h : members.lookup "family" = none) :
    header.family = .unknown := by
  unfold ofMembers? at hread
  split at hread
  next =>
    simp only [Option.bind_eq_bind, Option.bind_eq_some_iff] at hread
    obtain ⟨label, -, family, hfamily, layout, -, theme, -, animator, -, hheader⟩ := hread
    rw [h] at hfamily
    obtain rfl := Option.some.inj hheader
    exact (Option.some.inj hfamily).symm
  next => cases hread

end Header

namespace Reply

/-- The members from which a header is read, with the kind of the concept where there is none. -/
def completed (concept : Concept) (members : List (String × Json)) : List (String × Json) :=
  let flat := (flattenPlan members).filter fun member => member.1 != "parent_animator"
  match flat.lookup "kind" with
  | some _ => flat
  | none => Json.insertMember "kind" (.str concept.label) flat

/-- The members of the header in a reply. -/
def headerMembers? (reply : String) : Option (List (String × Json)) :=
  match (object? reply).bind (·.lookup "meta") with
  | some (.obj given) => some given
  | _ => none

/-- The header of a reply, if it can be read. -/
def readHeader? (reply : String) (concept : Concept) : Option Header :=
  (headerMembers? reply).bind fun given => Header.ofMembers? (completed concept given)

/-- A header that cannot be read gives way to the plain one of the concept. -/
theorem header_story (reply : String) (concept : Concept) :
    (story reply concept).header = (readHeader? reply concept).getD (Header.plain concept) := by
  unfold story readHeader? headerMembers?
  cases object? reply with
  | none => rfl
  | some members =>
    rw [Option.bind_some]
    dsimp only
    generalize members.lookup "meta" = value?
    cases value? with
    | none => rfl
    | some value => cases value <;> rfl

variable {key name : String} {members : List (String × Json)}

theorem lookup_filter_ne (h : key ≠ name) :
    (members.filter fun member => member.1 != name).lookup key = members.lookup key := by
  induction members with
  | nil => rfl
  | cons member rest ih =>
    obtain ⟨k, value⟩ := member
    by_cases hk : k = name
    · subst hk
      rw [List.filter_cons_of_neg (by simp), ih, List.lookup_cons, beq_false_of_ne h]
    · rw [List.filter_cons_of_pos (by simpa using hk), List.lookup_cons, List.lookup_cons, ih]

theorem lookup_insertMember_ne (h : key ≠ name) (value : Json) :
    (Json.insertMember name value members).lookup key = members.lookup key := by
  induction members with
  | nil => rw [Json.insertMember, List.lookup_cons, beq_false_of_ne h]
  | cons member rest ih =>
    obtain ⟨k, v⟩ := member
    rw [Json.insertMember]
    split
    next hk =>
      subst hk
      rw [List.lookup_cons, List.lookup_cons, beq_false_of_ne h]
    next =>
      split
      next => rw [List.lookup_cons, beq_false_of_ne h]
      next => rw [List.lookup_cons, List.lookup_cons, ih]

/-- What is done to the members of a header leaves the family alone. -/
theorem lookup_completed (concept : Concept) (given : List (String × Json)) :
    (completed concept given).lookup "family" = given.lookup "family" := by
  have hplan : (flattenPlan given).lookup "family" = given.lookup "family" := by
    unfold flattenPlan
    have hkept : (given.filter fun member => member.1 != "animation_plan").lookup "family" =
        given.lookup "family" := lookup_filter_ne (by decide)
    dsimp only
    split
    next plan _ =>
      rw [List.foldl_cons, List.foldl_cons, List.foldl_nil]
      split <;> split <;> simp only [lookup_insertMember_ne, hkept, ne_eq, String.reduceEq,
        not_false_eq_true]
    next => exact hkept
  have hflat : ((flattenPlan given).filter fun member =>
      member.1 != "parent_animator").lookup "family" = given.lookup "family" :=
    (lookup_filter_ne (by decide)).trans hplan
  unfold completed
  dsimp only
  split
  next => exact hflat
  next => exact (lookup_insertMember_ne (by decide) _).trans hflat

/-- A header that is read from members without a family has none. -/
theorem family_of_readHeader? {reply : String} {concept : Concept} {header : Header}
    {given : List (String × Json)} (hgiven : headerMembers? reply = some given)
    (hfamily : given.lookup "family" = none) (hread : readHeader? reply concept = some header) :
    header.family = .unknown := by
  rw [readHeader?, hgiven, Option.bind_some] at hread
  exact Header.family_of_lookup_eq_none hread ((lookup_completed concept given).trans hfamily)

end Reply

namespace Dispatch

variable {σ : Type} {services : Services σ} {config : Config} {concept : Concept} {code : String}
  {state before after : σ} {model : Remote.Model σ} {partialStory : Option Story} {reply : String}

/-! ## From the reply to the story -/

/-- A header is tagged anew when its kind is outside the vocabulary, and kept otherwise. -/
theorem reconsiderKind_isConsistent_iff (header : Header) :
    (reconsiderKind header).IsConsistent ↔
      (∃ label, header.kind = .other label) ∨ header.IsConsistent := by
  unfold reconsiderKind
  split
  next label hlabel => exact iff_of_true (header.isConsistent_retag _) (Or.inl ⟨label, hlabel⟩)
  next hknown =>
    refine ⟨Or.inr, fun h => h.resolve_left ?_⟩
    rintro ⟨label, hlabel⟩
    exact hknown label hlabel

theorem reconsiderKind_congr {header other : Header} (hkind : header.kind = other.kind)
    (hfamily : header.family = other.family) :
    (reconsiderKind header).kind = (reconsiderKind other).kind ∧
      (reconsiderKind header).family = (reconsiderKind other).family := by
  unfold reconsiderKind
  rw [hkind]
  split
  next => exact ⟨rfl, rfl⟩
  next => exact ⟨hkind, hfamily⟩

theorem reconstructed_steps (concept : Concept) (partialStory : Option Story) (reply : String) :
    (Remote.reconstructed concept partialStory reply).steps = (Reply.story reply concept).steps := by
  cases partialStory <;> rfl

theorem reconstructed_kind_and_family (concept : Concept) (partialStory : Option Story)
    (reply : String) :
    (Remote.reconstructed concept partialStory reply).header.kind =
        (Reply.story reply concept).header.kind ∧
      (Remote.reconstructed concept partialStory reply).header.family =
        (Reply.story reply concept).header.family := by
  cases partialStory with
  | none => exact ⟨rfl, rfl⟩
  | some known => exact Header.complete_kind_and_family _ _

/-- When a reply of substance is told, the header of the story is that of the reply, tagged anew if
its kind is outside the vocabulary. -/
theorem dispatch_header_of_reply
    (hmodel : services.reconstructor = some (Remote.reconstructor model))
    (hasks : Asks services config concept.reconsider code state partialStory before)
    (hreply : model (Remote.reconstructionPrompt code concept.reconsider partialStory) before =
      (.ok reply, after))
    (hsubstance : 0 < (Reply.story reply concept.reconsider).substance) :
    (dispatch services config concept code state).1.header.kind =
        (reconsiderKind (Reply.story reply concept.reconsider).header).kind ∧
      (dispatch services config concept code state).1.header.family =
        (reconsiderKind (Reply.story reply concept.reconsider).header).family := by
  have hanswer : (Remote.reconstructor model code concept.reconsider partialStory before).1 =
      .ok (Remote.reconstructed concept.reconsider partialStory reply) := by
    unfold Remote.reconstructor
    rw [hreply]
    rfl
  -- a reconstruction of substance is told in place of the partial story
  have htold : 0 < (Remote.reconstructed concept.reconsider partialStory reply).substance := by
    rwa [Story.substance, reconstructed_steps]
  have hheader : (resolve services config concept.reconsider code state).1.header =
      (Remote.reconstructed concept.reconsider partialStory reply).header := by
    rw [hasks.resolve_eq, reconstruct_fst, hmodel, Option.map_some, hanswer, storyAfter,
      if_pos htold]
    split <;> rfl
  obtain ⟨hkind, hfamily⟩ :=
    reconstructed_kind_and_family concept.reconsider partialStory reply
  rw [← hheader] at hkind hfamily
  exact reconsiderKind_congr hkind hfamily

/-- The reply has no header that can be read, or one that states the family of its kind, or one whose
kind is outside the vocabulary. -/
def StatesFamily (reply : String) (concept : Concept) : Prop :=
  ∀ header ∈ Reply.readHeader? reply concept,
    (∃ label, header.kind = .other label) ∨ header.IsConsistent

theorem reconsiderKind_story_isConsistent_iff (reply : String) (concept : Concept) :
    (reconsiderKind (Reply.story reply concept).header).IsConsistent ↔
      StatesFamily reply concept := by
  rw [reconsiderKind_isConsistent_iff, Reply.header_story, StatesFamily]
  cases Reply.readHeader? reply concept with
  | none => exact iff_of_true (Or.inr rfl) fun header h => absurd h (Option.not_mem_none header)
  | some header => simp

/-- When a story comes from the reply of a model, its family is that of its kind exactly when the reply
states it.  A header that names no family is then told with none, whatever its kind, unless that is
outside the vocabulary. -/
theorem dispatch_family_iff
    (hmodel : services.reconstructor = some (Remote.reconstructor model))
    (hasks : Asks services config concept.reconsider code state partialStory before)
    (hreply : model (Remote.reconstructionPrompt code concept.reconsider partialStory) before =
      (.ok reply, after))
    (hsubstance : 0 < (Reply.story reply concept.reconsider).substance) :
    ((dispatch services config concept code state).1.header.family =
        (dispatch services config concept code state).1.header.kind.family ↔
      StatesFamily reply concept.reconsider) ∧
    ∀ given header, Reply.headerMembers? reply = some given → given.lookup "family" = none →
      Reply.readHeader? reply concept.reconsider = some header →
      (∀ label, header.kind ≠ .other label) →
      (dispatch services config concept code state).1.header.kind = header.kind ∧
        (dispatch services config concept code state).1.header.family = .unknown := by
  obtain ⟨hkind, hfamily⟩ := dispatch_header_of_reply hmodel hasks hreply hsubstance
  rw [hkind, hfamily]
  refine ⟨reconsiderKind_story_isConsistent_iff reply concept.reconsider, ?_⟩
  intro given header hgiven hnone hread hknown
  have hkept : reconsiderKind (Reply.story reply concept.reconsider).header = header := by
    rw [Reply.header_story, hread, Option.getD_some, reconsiderKind]
    split
    next label hlabel => exact absurd hlabel (hknown label)
    next => rfl
  rw [hkept]
  exact ⟨rfl, Reply.family_of_readHeader? hgiven hnone hread⟩

/-- Nothing but a model that always gives the same reply. -/
def replying (reply : String) : Services Unit where
  reconstructor := some (Remote.reconstructor fun _ state => (.ok reply, state))

/-- A reply in the shape that is shown to a model. -/
def shapedReply : String :=
  "\x7b\"steps\":[\x7b\"action\":\"push\",\"description\":\"Push 1\"\x7d]," ++
    "\"meta\":\x7b\"layout\":\"linear\",\"theme\":\"softblue\"\x7d\x7d"

/-- Of an empty program no simulator tells a story. -/
theorem asks_empty (reply : String) :
    Asks (replying reply) {} .stack "" () (bestPartial .stack "" (Simulator.stack.run .stack "").story?)
      () := by
  have hshort : ∀ simulator : Simulator, simulator = .stack ∨ simulator = .universal →
      FallsShort simulator .stack "" := by
    rintro simulator hsimulator story hrun
    obtain ⟨htold, hsubstance⟩ := run_eq_complete_iff.mp hrun
    rcases hsimulator with rfl | rfl
    · obtain rfl := Except.ok.inj htold
      exact absurd hsubstance (by decide +kernel)
    · obtain rfl := Except.ok.inj htold
      exact absurd hsubstance (by decide +kernel)
  exact .routed rfl rfl (hshort _ (Or.inl rfl)) rfl (hshort _ (Or.inr rfl))

theorem dispatch_family_iff_shapedReply :
    Asks (replying shapedReply) {} (Concept.reconsider .stack) "" ()
        (bestPartial .stack "" (Simulator.stack.run .stack "").story?) () ∧
      0 < (Reply.story shapedReply (Concept.reconsider .stack)).substance ∧
      ((dispatch (replying shapedReply) {} .stack "" ()).1.header.family =
          (dispatch (replying shapedReply) {} .stack "" ()).1.header.kind.family ↔
        StatesFamily shapedReply (Concept.reconsider .stack)) := by
  have hsubstance : 0 < (Reply.story shapedReply (Concept.reconsider .stack)).substance := by
    decide +kernel
  exact ⟨asks_empty _, hsubstance, (dispatch_family_iff rfl (asks_empty _) rfl hsubstance).1⟩

/-- A reply in the shape that was asked for is told without the family of its kind. -/
theorem dispatch_family_shapedReply :
    (dispatch (replying shapedReply) {} .stack "" ()).1.header.family ≠
      (dispatch (replying shapedReply) {} .stack "" ()).1.header.kind.family := by
  decide +kernel

end Dispatch

end Storyboard
