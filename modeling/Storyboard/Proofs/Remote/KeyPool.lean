import Mathlib.Data.List.Rotate
import Storyboard.Remote.KeyPool

/-!
# Rounds of a key pool

A prompt that is put to a pool leads to a round of attempts.  `Round.Rotates` says what a round may
be: keys are tried cyclically from the one that answered last, none of them twice, until one answers
or all have failed.  Over any number of prompts (`askAll_rotates`) the pool stands at the key that
answered last, whatever the keys did, since only an answer moves it.
-/

namespace Storyboard.Remote

/-- Puts prompts to a model, one after the other. -/
def askAll {σ : Type} (model : Model σ) : List String → σ → List (Except Failure String) × σ
  | [], state => ([], state)
  | prompt :: prompts, state =>
    let (result, state) := model prompt state
    let (results, state) := askAll model prompts state
    (result :: results, state)

theorem askAll_cons {σ : Type} (model : Model σ) (prompt : String) (prompts : List String)
    (state : σ) : askAll model (prompt :: prompts) state =
      ((model prompt state).1 :: (askAll model prompts (model prompt state).2).1,
        (askAll model prompts (model prompt state).2).2) := rfl

namespace KeyPool

/-- A prompt that was tried with the key at a place, and what came of it. -/
structure Attempt where
  prompt : String
  place : Nat
  outcome : Except Failure String

/-- The key answered. -/
def Attempt.answered (attempt : Attempt) : Bool := attempt.outcome.isOk

/-- The place of the key that answered last, or `first` when none did. -/
def lastAnswered (first : Nat) (attempts : List Attempt) : Nat :=
  ((attempts.reverse.find? Attempt.answered).map Attempt.place).getD first

/-- A prompt, the attempts that it led to, and the result. -/
structure Round where
  prompt : String
  attempts : List Attempt
  result : Except Failure String

/-- The round goes through some keys from the place `first` on. -/
structure Round.Rotates (round : Round) (keys : List String) (first : Nat) : Prop where
  /-- It is the prompt that the keys are tried with. -/
  prompt : ∀ attempt ∈ round.attempts, attempt.prompt = round.prompt
  /-- The keys are tried in cyclic order. -/
  inTurn : ∀ i attempt, round.attempts[i]? = some attempt →
    attempt.place = (first + i) % keys.length
  /-- No key is tried twice. -/
  once : (round.attempts.map Attempt.place).Nodup
  /-- Behind an answer no further key is tried. -/
  stops : ∀ attempt ∈ round.attempts.dropLast, attempt.answered = false
  /-- The answer is that of the last key that was tried. -/
  answers : ∀ answer, round.result = .ok answer ↔
    ∃ attempt, round.attempts.getLast? = some attempt ∧ attempt.outcome = .ok answer
  /-- There is none only when every key was tried once and failed. -/
  fails : round.result.isOk = false ↔
    (round.attempts.map Attempt.place).Perm (List.range keys.length) ∧
      ∀ attempt ∈ round.attempts, attempt.answered = false
  /-- Then the number of keys is told, and how the last one failed. -/
  tells : ∀ failure, round.result = .error failure →
    ∃ attempt last, round.attempts.getLast? = some attempt ∧ attempt.outcome = .error last ∧
      failure = .exhausted keys.length last.message?

section Attempts

variable {σ : Type} {ask : String → Model σ} {keys : List String} {attempts : List Attempt}
  {before after : σ} {prompt : String}

/-- The attempts are what happens when the keys at their places are asked one after the other. -/
inductive Made (ask : String → Model σ) (keys : List String) : List Attempt → σ → σ → Prop
  | nil (state : σ) : Made ask keys [] state state
  | cons {attempt : Attempt} {key : String} {attempts : List Attempt} {before between after : σ}
      (hkey : keys[attempt.place]? = some key)
      (hask : ask key attempt.prompt before = (attempt.outcome, between))
      (rest : Made ask keys attempts between after) :
      Made ask keys (attempt :: attempts) before after

theorem Made.append {others : List Attempt} {between : σ}
    (h : Made ask keys attempts before between) (hothers : Made ask keys others between after) :
    Made ask keys (attempts ++ others) before after := by
  induction h with
  | nil state => exact hothers
  | cons hkey hask _ ih => exact .cons hkey hask (ih hothers)

theorem Made.place_lt (h : Made ask keys attempts before after) :
    ∀ attempt ∈ attempts, attempt.place < keys.length := by
  induction h with
  | nil state => exact List.forall_mem_nil _
  | cons hkey _ _ ih =>
    exact List.forall_mem_cons.mpr ⟨(List.getElem?_eq_some_iff.mp hkey).1, ih⟩

theorem lastAnswered_append (first : Nat) (attempts others : List Attempt) :
    lastAnswered first (attempts ++ others) =
      lastAnswered (lastAnswered first attempts) others := by
  unfold lastAnswered
  rw [List.reverse_append, List.find?_append]
  cases others.reverse.find? Attempt.answered <;> rfl

theorem lastAnswered_of_failed (first : Nat) (h : ∀ attempt ∈ attempts, attempt.answered = false) :
    lastAnswered first attempts = first := by
  have hnone : attempts.reverse.find? Attempt.answered = none :=
    List.find?_eq_none.mpr fun attempt hattempt =>
      Bool.eq_false_iff.mp (h attempt (List.mem_reverse.mp hattempt))
  rw [lastAnswered, hnone]
  rfl

theorem lastAnswered_concat (first : Nat) (attempts : List Attempt) {attempt : Attempt}
    (h : attempt.answered = true) : lastAnswered first (attempts ++ [attempt]) = attempt.place := by
  rw [lastAnswered, List.reverse_concat, List.find?_cons_of_pos h]
  rfl

/-- The pool never stands behind its last key. -/
theorem Made.lastAnswered_lt {first : Nat} (h : Made ask keys attempts before after)
    (hfirst : first < keys.length) : lastAnswered first attempts < keys.length := by
  unfold lastAnswered
  cases hfound : attempts.reverse.find? Attempt.answered with
  | none => exact hfirst
  | some attempt =>
    exact h.place_lt attempt (List.mem_reverse.mp (List.mem_of_find?_eq_some hfound))

/-- What comes of some attempts is what came of the last one. -/
def outcomeOf (last : Failure) (attempts : List Attempt) : Except Failure String :=
  (attempts.getLast?.map Attempt.outcome).getD (.error last)

theorem outcomeOf_cons {last failure : Failure} {attempt : Attempt}
    (h : attempt.outcome = .error failure) (attempts : List Attempt) :
    outcomeOf last (attempt :: attempts) = outcomeOf failure attempts := by
  rw [outcomeOf, outcomeOf, List.getLast?_cons, ← h]
  cases attempts.getLast? <;> rfl

/-- Keys in turn are tried up to the first one that answers, or all of them fail. -/
theorem exists_attempts (ask : String → Model σ) (prompt : String) {turn : List (String × Nat)}
    (hturn : ∀ entry ∈ turn, keys[entry.2]? = some entry.1) (last : Failure) (before : σ) :
    ∃ attempts after, Made ask keys attempts before after ∧
      (∀ attempt ∈ attempts, attempt.prompt = prompt) ∧
      attempts.map Attempt.place <+: turn.map Prod.snd ∧
      ((∃ failed place answer, attempts = failed ++ [⟨prompt, place, .ok answer⟩] ∧
          (∀ attempt ∈ failed, attempt.answered = false) ∧
          firstAnswer (fun key => ask key prompt) last turn before = (.ok (answer, place), after)) ∨
        (∃ failure, attempts.map Attempt.place = turn.map Prod.snd ∧
          (∀ attempt ∈ attempts, attempt.answered = false) ∧
          outcomeOf last attempts = .error failure ∧
          firstAnswer (fun key => ask key prompt) last turn before = (.error failure, after))) := by
  induction turn generalizing last before with
  | nil =>
    exact ⟨[], before, .nil before, List.forall_mem_nil _, List.prefix_rfl,
      .inr ⟨last, rfl, List.forall_mem_nil _, rfl, rfl⟩⟩
  | cons entry turn ih =>
    obtain ⟨key, place⟩ := entry
    obtain ⟨hkey, hturn⟩ := List.forall_mem_cons.mp hturn
    rcases hask : ask key prompt before with ⟨failure | answer, between⟩
    · -- a failed key passes its failure on to the rest of the turn
      obtain ⟨attempts, after, hmade, hprompt, hfront, hends⟩ := ih hturn failure between
      have hfirst : firstAnswer (fun key => ask key prompt) last ((key, place) :: turn) before =
          firstAnswer (fun key => ask key prompt) failure turn between := by
        rw [firstAnswer, hask]
      refine ⟨⟨prompt, place, .error failure⟩ :: attempts, after, .cons hkey hask hmade,
        List.forall_mem_cons.mpr ⟨rfl, hprompt⟩, (List.prefix_cons_inj _).mpr hfront, ?_⟩
      rw [hfirst]
      rcases hends with ⟨failed, last, answer, rfl, hfailed, hanswer⟩ |
        ⟨reason, hall, hfailed, houtcome, herror⟩
      · exact .inl ⟨_ :: failed, last, answer, rfl,
          List.forall_mem_cons.mpr ⟨rfl, hfailed⟩, hanswer⟩
      · exact .inr ⟨reason, congrArg _ hall, List.forall_mem_cons.mpr ⟨rfl, hfailed⟩,
          (outcomeOf_cons rfl attempts).trans houtcome, herror⟩
    · refine ⟨[⟨prompt, place, .ok answer⟩], between, .cons hkey hask (.nil between),
        List.forall_mem_singleton.mpr rfl, ⟨turn.map Prod.snd, rfl⟩,
        .inl ⟨[], place, answer, rfl, List.forall_mem_nil _, ?_⟩⟩
      rw [firstAnswer, hask]

end Attempts

/-! ## One round -/

theorem getElem?_of_mem_inTurn {pool : KeyPool} {entry : String × Nat} (h : entry ∈ pool.inTurn) :
    pool.keys[entry.2]? = some entry.1 := by
  have hmem : entry ∈ pool.keys.zipIdx :=
    (List.mem_append.mp h).elim List.mem_of_mem_drop List.mem_of_mem_take
  exact List.mem_zipIdx_iff_getElem?.mp hmem

/-- The places in turn are those of all keys, from the current one on. -/
theorem places_inTurn {pool : KeyPool} (h : pool.current < pool.keys.length) :
    pool.inTurn.map Prod.snd = (List.range pool.keys.length).rotate pool.current := by
  have hle : pool.current ≤ (List.range pool.keys.length).length := by
    rw [List.length_range]
    exact h.le
  have hplaces : pool.keys.zipIdx.map Prod.snd = List.range pool.keys.length := by
    rw [List.zipIdx_map_snd, List.range_eq_range']
  rw [inTurn, List.map_append, List.map_drop, List.map_take, hplaces,
    List.rotate_eq_drop_append_take hle]

section Round

variable {keys : List String} {current : Nat} {prompt : String}
  {attempts : List Attempt}

/-- Attempts in turn are made with the keys in cyclic order. -/
theorem place_of_prefix (h : attempts.map Attempt.place <+: (List.range keys.length).rotate current)
    {i : Nat} {attempt : Attempt} (hattempt : attempts[i]? = some attempt) :
    attempt.place = (current + i) % keys.length := by
  have hplace : (attempts.map Attempt.place)[i]? = some attempt.place := by
    rw [List.getElem?_map, hattempt]
    rfl
  obtain ⟨rest, hrest⟩ := h
  have hi : i < (List.range keys.length).length := by
    rw [← List.length_rotate _ current, ← hrest, List.length_append]
    exact Nat.lt_add_right _ (List.getElem?_eq_some_iff.mp hplace).1
  have hturn : ((List.range keys.length).rotate current)[i]? = some attempt.place := by
    rw [← hrest, List.getElem?_append_left (List.getElem?_eq_some_iff.mp hplace).1, hplace]
  rw [List.getElem?_rotate hi, List.length_range, Nat.add_comm] at hturn
  rw [List.length_range] at hi
  have hmod := Nat.mod_lt (current + i) (Nat.zero_lt_of_lt hi)
  rw [List.getElem?_range hmod] at hturn
  exact (Option.some.inj hturn).symm

/-- A round in which keys fail until one answers. -/
theorem rotates_of_answer {failed : List Attempt} {final : Attempt} {answer : String}
    (hfailed : ∀ attempt ∈ failed, attempt.answered = false) (hfinal : final.outcome = .ok answer)
    (hprompt : ∀ attempt ∈ failed ++ [final], attempt.prompt = prompt)
    (hfront : (failed ++ [final]).map Attempt.place <+:
      (List.range keys.length).rotate current) :
    Round.Rotates ⟨prompt, failed ++ [final], .ok answer⟩ keys current := by
  have hlast : (failed ++ [final]).getLast? = some final := List.getLast?_concat
  constructor
  case prompt => exact hprompt
  case inTurn => exact fun _ _ => place_of_prefix hfront
  case once => exact hfront.sublist.nodup (List.nodup_rotate.mpr List.nodup_range)
  case stops => rwa [List.dropLast_concat]
  case answers =>
    intro other
    rw [hlast]
    constructor
    · rintro ⟨⟩
      exact ⟨final, rfl, hfinal⟩
    · rintro ⟨_, ⟨⟩, hother⟩
      exact hfinal.symm.trans hother
  case fails =>
    -- the last attempt was answered, so the round is none in which all keys fail
    refine iff_of_false Bool.noConfusion fun h => ?_
    have hnone := h.2 final (List.mem_append_right _ List.mem_cons_self)
    rw [Attempt.answered, hfinal] at hnone
    cases hnone
  case tells => exact fun _ h => by cases h

/-- A round in which all keys fail. -/
theorem rotates_of_failure {last failure : Failure} (hkeys : keys ≠ [])
    (hfailed : ∀ attempt ∈ attempts, attempt.answered = false)
    (hprompt : ∀ attempt ∈ attempts, attempt.prompt = prompt)
    (hall : attempts.map Attempt.place = (List.range keys.length).rotate current)
    (houtcome : outcomeOf last attempts = .error failure) :
    Round.Rotates ⟨prompt, attempts, .error (.exhausted keys.length failure.message?)⟩ keys
      current := by
  have hperm : (attempts.map Attempt.place).Perm (List.range keys.length) :=
    hall ▸ List.rotate_perm _ _
  -- a pool with a key tries at least one
  have hne : attempts ≠ [] := by
    rintro rfl
    exact hkeys (List.length_eq_zero_iff.mp (List.range_eq_nil.mp hperm.symm.eq_nil))
  have hlast : attempts.getLast? = some (attempts.getLast hne) := List.getLast?_eq_some_getLast hne
  have hfinal : (attempts.getLast hne).outcome = .error failure := by
    rw [outcomeOf, hlast] at houtcome
    exact houtcome
  constructor
  case prompt => exact hprompt
  case inTurn => exact fun _ _ => place_of_prefix (hall ▸ List.prefix_rfl)
  case once => exact hperm.nodup_iff.mpr List.nodup_range
  case stops => exact fun attempt h => hfailed attempt (List.mem_of_mem_dropLast h)
  case answers =>
    refine fun answer => iff_of_false nofun ?_
    rintro ⟨attempt, hattempt, hanswer⟩
    obtain rfl := Option.some.inj (hlast.symm.trans hattempt)
    cases hfinal.symm.trans hanswer
  case fails => exact iff_of_true rfl ⟨hperm, hfailed⟩
  case tells =>
    rintro _ ⟨⟩
    exact ⟨_, failure, hlast, hfinal, rfl⟩

/-- A prompt leads to a round from the current key on, after which the pool stands at the key that
answered last. -/
theorem exists_round {σ : Type} (ask : String → Model σ) (hcurrent : current < keys.length)
    (prompt : String) (before : σ) :
    ∃ (round : Round) (after : σ), round.prompt = prompt ∧ round.Rotates keys current ∧
      Made ask keys round.attempts before after ∧
      model ask prompt (⟨keys, current⟩, before) =
        (round.result, ⟨keys, lastAnswered current round.attempts⟩, after) := by
  have hkeys : keys ≠ [] := List.ne_nil_of_length_pos (Nat.zero_lt_of_lt hcurrent)
  have hempty : ¬ keys.isEmpty = true := fun hnil => hkeys (List.isEmpty_iff.mp hnil)
  have hturn : ∀ entry ∈ inTurn ⟨keys, current⟩, keys[entry.2]? = some entry.1 :=
    fun _ => getElem?_of_mem_inTurn
  obtain ⟨attempts, after, hmade, hprompt, hfront, hends⟩ :=
    exists_attempts ask prompt hturn .unavailable before
  rw [places_inTurn hcurrent] at hfront hends
  rcases hends with ⟨failed, place, answer, rfl, hfailed, hasked⟩ |
    ⟨failure, hall, hfailed, houtcome, hasked⟩
  · refine ⟨⟨prompt, _, .ok answer⟩, after, rfl, rotates_of_answer hfailed rfl hprompt hfront,
      hmade, ?_⟩
    rw [model, tryInTurn, if_neg hempty, hasked, lastAnswered_concat current failed rfl]
  · refine ⟨⟨prompt, attempts, _⟩, after, rfl,
      rotates_of_failure hkeys hfailed hprompt hall houtcome, hmade, ?_⟩
    rw [model, tryInTurn, if_neg hempty, hasked, lastAnswered_of_failed current hfailed]

end Round

/-! ## Many rounds -/

/-- The rounds are what prompts lead to in a pool with some keys that stands at the place
`first`. -/
structure Serves {σ : Type} (ask : String → Model σ) (keys : List String) (first : Nat)
    (prompts : List String) (before : σ) (rounds : List Round) (after : σ) : Prop where
  /-- Every prompt leads to a round. -/
  prompted : rounds.map Round.prompt = prompts
  /-- Nothing is asked of the keys but the attempts of the rounds, in this order. -/
  made : Made ask keys (rounds.flatMap Round.attempts) before after
  /-- The results of the prompts are those of the rounds. -/
  asks : askAll (model ask) prompts (⟨keys, first⟩, before) = (rounds.map Round.result,
    ⟨keys, lastAnswered first (rounds.flatMap Round.attempts)⟩, after)
  /-- The pool always stands at the key that answered last, -/
  stands : ∀ earlier, earlier <+: rounds →
    (askAll (model ask) (earlier.map Round.prompt) (⟨keys, first⟩, before)).2.1 =
      ⟨keys, lastAnswered first (earlier.flatMap Round.attempts)⟩
  /-- which is one of its keys, -/
  valid : ∀ earlier, earlier <+: rounds →
    lastAnswered first (earlier.flatMap Round.attempts) < keys.length
  /-- and goes through the keys from there on in the next round. -/
  rotates : ∀ earlier round, earlier ++ [round] <+: rounds →
    round.Rotates keys (lastAnswered first (earlier.flatMap Round.attempts))

section Serves

variable {σ : Type} {ask : String → Model σ} {keys prompts : List String} {first : Nat}
  {rounds : List Round} {before between after : σ}

theorem Serves.nil (ask : String → Model σ) (hfirst : first < keys.length) (state : σ) :
    Serves ask keys first [] state [] state := by
  constructor
  case prompted => rfl
  case made => exact .nil state
  case asks => rfl
  case stands =>
    intro earlier h
    rw [List.prefix_nil.mp h]
    rfl
  case valid =>
    intro earlier h
    rw [List.prefix_nil.mp h]
    exact hfirst
  case rotates => exact fun earlier round h => absurd (List.prefix_nil.mp h) (by simp)

/-- What holds after one round and then after others holds after all of them. -/
theorem Serves.cons {round : Round} (hrotates : round.Rotates keys first)
    (hfirst : first < keys.length) (hmade : Made ask keys round.attempts before between)
    (hasked : model ask round.prompt (⟨keys, first⟩, before) =
      (round.result, ⟨keys, lastAnswered first round.attempts⟩, between))
    (h : Serves ask keys (lastAnswered first round.attempts) prompts between rounds after) :
    Serves ask keys first (round.prompt :: prompts) before (round :: rounds) after := by
  -- what was answered last after all rounds, the later rounds see from the first one on
  have hlast (others : List Round) : lastAnswered first ((round :: others).flatMap Round.attempts) =
      lastAnswered (lastAnswered first round.attempts) (others.flatMap Round.attempts) := by
    rw [List.flatMap_cons, lastAnswered_append]
  constructor
  case prompted => rw [List.map_cons, h.prompted]
  case made =>
    rw [List.flatMap_cons]
    exact hmade.append h.made
  case asks =>
    rw [askAll_cons, hasked, h.asks, hlast]
    rfl
  case stands =>
    intro earlier hearlier
    rcases List.prefix_cons_iff.mp hearlier with rfl | ⟨earlier, rfl, hin⟩
    · rfl
    · rw [List.map_cons, askAll_cons, hasked, hlast]
      exact h.stands earlier hin
  case valid =>
    intro earlier hearlier
    rcases List.prefix_cons_iff.mp hearlier with rfl | ⟨earlier, rfl, hin⟩
    · exact hfirst
    · rw [hlast]
      exact h.valid earlier hin
  case rotates =>
    intro earlier next hearlier
    cases earlier with
    | nil =>
      obtain ⟨rfl, -⟩ := List.cons_prefix_cons.mp hearlier
      exact hrotates
    | cons _ earlier =>
      obtain ⟨rfl, hin⟩ := List.cons_prefix_cons.mp hearlier
      rw [hlast]
      exact h.rotates earlier next hin

theorem exists_serves (ask : String → Model σ) (hfirst : first < keys.length)
    (prompts : List String) (before : σ) :
    ∃ rounds after, Serves ask keys first prompts before rounds after := by
  induction prompts generalizing first before with
  | nil => exact ⟨[], before, .nil ask hfirst before⟩
  | cons prompt prompts ih =>
    obtain ⟨round, between, rfl, hrotates, hmade, hasked⟩ := exists_round ask hfirst prompt before
    obtain ⟨rounds, after, hserves⟩ := ih (hmade.lastAnswered_lt hfirst) between
    exact ⟨round :: rounds, after, hserves.cons hrotates hfirst hmade hasked⟩

end Serves

/-- Whatever its keys do, a new pool serves any prompts in rounds: it always stands at one of its
keys, the one that answered last, and from there every prompt goes through the keys. -/
theorem askAll_rotates {σ : Type} {keys : List String} (hkeys : keys ≠ []) (ask : String → Model σ)
    (prompts : List String) (before : σ) :
    ∃ rounds after, Serves ask keys 0 prompts before rounds after :=
  exists_serves ask (List.length_pos_of_ne_nil hkeys) prompts before

/-- A service that answers its second and its third request, with whichever key. -/
def flaky (_key : String) : Model Nat := fun prompt requests =>
  (if requests == 1 || requests == 2 then .ok prompt else .error (.request "busy"), requests + 1)

/-- The second key answers after the first one failed, and answers the next prompt at once; then it
fails, and so does the first one. -/
theorem askAll_rotates_flaky : ["a", "b"] ≠ [] ∧
    ∃ rounds after, Serves flaky ["a", "b"] 0 ["x", "y", "z"] 0 rounds after ∧
      rounds.map Round.result = [.ok "x", .ok "y",
        .error (.exhausted 2 (some "request failed: busy"))] ∧
      lastAnswered 0 (rounds.flatMap Round.attempts) = 1 ∧ after = 5 := by
  have hkeys : ["a", "b"] ≠ [] := List.cons_ne_nil _ _
  obtain ⟨rounds, after, hserves⟩ := askAll_rotates hkeys flaky ["x", "y", "z"] 0
  obtain ⟨hresults, hstate⟩ := Prod.mk.inj hserves.asks
  obtain ⟨hpool, hafter⟩ := Prod.mk.inj hstate
  exact ⟨hkeys, rounds, after, hserves, hresults.symm, (congrArg KeyPool.current hpool).symm,
    hafter.symm⟩

end KeyPool

end Storyboard.Remote
