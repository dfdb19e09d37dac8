import Storyboard.Proofs.Reply.Mending
import Storyboard.Proofs.Reply.Nesting
import Storyboard.Proofs.Reply.Object

/-!
# Replies that break off cleanly

A reply that breaks off behind a complete part of its object, or within the text of a value, is
repaired: what is left of the end is closed by the quote and the brackets that the scanner misses,
and that is the text of an object again.
-/

namespace Storyboard

namespace Json

/-! ## Pairs of surrogates -/

/-- The last piece is the first half of a pair. -/
def EndsInPair (pieces : List Piece) : Prop :=
  ∃ front n, pieces = front ++ [.unit n] ∧ 0xD800 ≤ n ∧ n < 0xDC00

theorem EndsInPair.cons {piece : Piece} {pieces : List Piece} (h : EndsInPair pieces) :
    EndsInPair (piece :: pieces) := by
  obtain ⟨front, n, rfl, hn⟩ := h
  exact ⟨piece :: front, n, rfl, hn⟩

/-- A unit that is not read together with the next one stands for itself. -/
theorem isSome_join?_unit {n : Nat} {rest : List Piece}
    (halone : ∀ low tail, rest = .unit low :: tail → ¬ (0xD800 ≤ n ∧ n < 0xDC00)) :
    (join? (.unit n :: rest)).isSome = true ↔
      (loneUnit? n).isSome = true ∧ (join? rest).isSome = true := by
  have hunit : (join? (.unit n :: rest)) =
      do
        let c ← loneUnit? n
        let cs ← join? rest
        return c :: cs := by
    cases rest with
    | nil => exact join?.eq_4 n [] fun _ _ h => by cases h
    | cons piece tail =>
      cases piece with
      | char c => exact join?.eq_4 n (.char c :: tail) fun _ _ h => by cases h
      | unit low => rw [join?, if_neg (halone low tail rfl)]
  rw [hunit]
  cases loneUnit? n <;> cases join? rest <;> simp

/-- What stands before a cut denotes a text, as the whole does, unless the cut goes through a
pair. -/
theorem isSome_join?_of_append {pieces more : List Piece}
    (h : (join? (pieces ++ more)).isSome = true)
    (hcut : EndsInPair pieces → ∀ n rest, more ≠ .unit n :: rest) :
    (join? pieces).isSome = true := by
  fun_induction join? pieces with
  | case1 => rfl
  | case2 c rest ih =>
    rw [List.cons_append, join?, Option.isSome_map] at h
    rw [Option.isSome_map]
    exact ih h fun hends => hcut hends.cons
  | case3 high low rest hhigh hlow c ih =>
    rw [List.cons_append, List.cons_append, join?, if_pos hhigh, if_pos hlow,
      Option.isSome_map] at h
    rw [Option.isSome_map]
    exact ih h fun hends => hcut hends.cons.cons
  | case4 high low rest hhigh hlow =>
    rw [List.cons_append, List.cons_append, join?, if_pos hhigh, if_neg hlow] at h
    cases h
  | case5 high low rest hhigh ih =>
    have hparts := (isSome_join?_unit (fun _ _ _ => hhigh)).mp h
    have hjoin : (join? (.unit high :: .unit low :: rest)).isSome = true :=
      (isSome_join?_unit fun _ _ _ => hhigh).mpr
        ⟨hparts.1, ih hparts.2 fun hends => hcut hends.cons⟩
    rwa [join?, if_neg hhigh] at hjoin
  | case6 n rest hrest ih =>
    -- no second half follows the unit: inside there is none, and at the cut it would be a pair
    have halone : ∀ low tail, rest ++ more = .unit low :: tail →
        ¬ (0xD800 ≤ n ∧ n < 0xDC00) := by
      intro low tail heq hhigh
      cases rest with
      | nil => exact hcut ⟨[], n, rfl, hhigh⟩ low tail heq
      | cons piece rest => exact hrest low rest (by rw [(List.cons.inj heq).1])
    have hparts := (isSome_join?_unit halone).mp h
    have hjoin := (isSome_join?_unit fun low tail heq _ => hrest low tail heq).mpr
      ⟨hparts.1, ih hparts.2 fun hends => hcut hends.cons⟩
    rwa [join?] at hjoin
    exact hrest

/-! ## Parts of a text that is read -/

section Parts

variable {fuel d : Nat} {cs lead rest stop : List Char} {tree : Tree} {key : List Piece}

/-- A complete value in front of a text is what is read there. -/
theorem IsText.eq_of_valueAt {item : Tree} {after : List Char} (h : IsText tree cs)
    (hlead : IsGap lead) (hrest : EndsValue rest)
    (hread : valueAt fuel (lead ++ (cs ++ rest)) = some (item, after)) :
    item = tree ∧ after = rest := by
  rw [valueAt_gap _ hlead] at hread
  have hwhole := h.reads (2 * cs.length) rest (Nat.le_refl _) hrest
  exact Prod.mk.inj (valueAt_unique hread hwhole)

/-- Behind its key, the first member is read. -/
theorem IsKey.membersAt_cases {members : List (List Piece × Tree)} (h : IsKey key lead)
    (hread : membersAt fuel (lead ++ rest) = some (members, stop)) :
    ∃ less value after, fuel = less + 1 ∧ valueAt less rest = some (value, after) ∧
      ((skip after = '\x7d' :: stop ∧ members = [(key, value)]) ∨
        ∃ next others, skip after = ',' :: next ∧ membersAt less next = some (others, stop) ∧
          members = (key, value) :: others) := by
  obtain ⟨less, body, key', colon, text, value, after, rfl, hquote, hbody, hcolon, hvalue,
    hafter⟩ := Json.membersAt_cases hread
  obtain ⟨body', colon', between, hquote', hbody', hcolon', hbetween⟩ := h.reads rest
  rw [hquote'] at hquote
  obtain ⟨-, rfl⟩ := List.cons.inj hquote
  rw [hbody'] at hbody
  obtain ⟨rfl, rfl⟩ := Prod.mk.inj (Option.some.inj hbody)
  rw [hcolon'] at hcolon
  obtain ⟨-, rfl⟩ := List.cons.inj hcolon
  rw [valueAt_gap _ hbetween] at hvalue
  exact ⟨less, value, after, rfl, hvalue, hafter⟩

theorem isSome_value?_array {items : List Tree} :
    ((Tree.array items).value? d).isSome = true ↔
      ∃ less, d = less + 1 ∧ (itemValues? less items).isSome = true := by
  cases d with
  | zero => simp [Tree.value?]
  | succ less => simp [Tree.value?]

theorem isSome_value?_object {members : List (List Piece × Tree)} :
    ((Tree.object members).value? d).isSome = true ↔
      ∃ less, d = less + 1 ∧ (memberValues? less members).isSome = true := by
  cases d with
  | zero => simp [Tree.value?]
  | succ less => simp [Tree.value?]

theorem isSome_itemValues?_cons {items : List Tree} :
    (itemValues? d (tree :: items)).isSome = true ↔
      (tree.value? d).isSome = true ∧ (itemValues? d items).isSome = true := by
  rw [itemValues?]
  cases tree.value? d <;> simp

theorem isSome_memberValues?_cons {members : List (List Piece × Tree)} :
    (memberValues? d ((key, tree) :: members)).isSome = true ↔
      (joinString? key).isSome = true ∧ (tree.value? d).isSome = true ∧
        (memberValues? d members).isSome = true := by
  rw [memberValues?]
  cases joinString? key <;> cases tree.value? d <;> simp

/-- The first of the members that are read has a key and a value. -/
theorem isSome_of_membersAfter {value : Tree} {after : List Char}
    {members : List (List Piece × Tree)} {less : Nat}
    (hafter : (skip after = '\x7d' :: stop ∧ members = [(key, value)]) ∨
      ∃ next others, skip after = ',' :: next ∧ membersAt less next = some (others, stop) ∧
        members = (key, value) :: others)
    (h : (memberValues? d members).isSome = true) :
    (joinString? key).isSome = true ∧ (value.value? d).isSome = true := by
  have hcons {others : List (List Piece × Tree)}
      (hsome : (memberValues? d ((key, value) :: others)).isSome = true) :
      (joinString? key).isSome = true ∧ (value.value? d).isSome = true :=
    ⟨(isSome_memberValues?_cons.mp hsome).1, (isSome_memberValues?_cons.mp hsome).2.1⟩
  obtain ⟨-, rfl⟩ | ⟨_, _, -, -, rfl⟩ := hafter <;> exact hcons h

/-- No value starts with a closing bracket. -/
theorem IsText.skip_ne (h : IsText tree cs) (hlead : IsGap lead) (rest : List Char) :
    skip (lead ++ (cs ++ rest)) ≠ ']' :: stop := by
  intro hskip
  obtain ⟨c, tail, rfl, hspace, hc⟩ :
      ∃ c tail, cs = c :: tail ∧ isSpace c = Bool.false ∧ c ≠ ']' := by
    cases h with
    | number text =>
      obtain ⟨c, tail, rfl, hc⟩ := text.head
      refine ⟨c, tail, rfl, ?_, ?_⟩
      · have hblank := Literal.beq_of_starts hc [' ', '\t', '\n', '\r'] rfl
        simp only [List.forall_mem_cons] at hblank
        simp only [isSpace, hblank, Bool.or_self]
      · rintro rfl
        cases hc
    | _ => exact ⟨_, _, rfl, rfl, by decide⟩
  rw [skip_gap hlead, List.cons_append, skip_cons hspace] at hskip
  exact hc (List.cons.inj hskip).1

end Parts

end Json

namespace Reply

open Json Nesting

/-! ## Clean cuts -/

mutual

/-- A value that goes on with `back` is cut right behind an opening bracket, behind a complete part
or the comma after one, or inside a string where no escape and no pair of surrogates is cut through;
at any depth. -/
inductive IsCut (back : List Char) : List Char → Prop
  | string {pieces : List Piece} {body : List Char} (text : IsBody pieces body)
      (whole : ¬ EndsInPair pieces) : IsCut back ('"' :: body)
  | bracket : IsCut back ['[']
  | array {front : List Char} (cut : IsItemsCut back front) : IsCut back ('[' :: front)
  | brace : IsCut back ['\x7b']
  | object {front : List Char} (cut : IsMembersCut back front) : IsCut back ('\x7b' :: front)

/-- The items of an array are cut cleanly. -/
inductive IsItemsCut (back : List Char) : List Char → Prop
  | inside {lead front : List Char} (blank : IsGap lead) (cut : IsCut back front) :
      IsItemsCut back (lead ++ front)
  | behind {lead cs : List Char} {item : Tree} (blank : IsGap lead) (text : IsText item cs)
      (ends : EndsValue back) : IsItemsCut back (lead ++ cs)
  | comma {lead cs gap : List Char} {item : Tree} (blank : IsGap lead) (text : IsText item cs)
      (blankAfter : IsGap gap) : IsItemsCut back (lead ++ cs ++ gap ++ [','])
  | later {lead cs gap front : List Char} {item : Tree} (blank : IsGap lead)
      (text : IsText item cs) (blankAfter : IsGap gap) (cut : IsItemsCut back front) :
      IsItemsCut back (lead ++ cs ++ gap ++ ',' :: front)

/-- The members of an object are cut cleanly. -/
inductive IsMembersCut (back : List Char) : List Char → Prop
  | inside {key : List Piece} {lead front : List Char} (name : IsKey key lead)
      (cut : IsCut back front) : IsMembersCut back (lead ++ front)
  | behind {key : List Piece} {lead cs : List Char} {value : Tree} (name : IsKey key lead)
      (text : IsText value cs) (ends : EndsValue back) : IsMembersCut back (lead ++ cs)
  | comma {key : List Piece} {lead cs gap : List Char} {value : Tree} (name : IsKey key lead)
      (text : IsText value cs) (blankAfter : IsGap gap) :
      IsMembersCut back (lead ++ cs ++ gap ++ [','])
  | later {key : List Piece} {lead cs gap front : List Char} {value : Tree}
      (name : IsKey key lead) (text : IsText value cs) (blankAfter : IsGap gap)
      (cut : IsMembersCut back front) : IsMembersCut back (lead ++ cs ++ gap ++ ',' :: front)

end

/-! ## What is lacking -/

theorem keeps_comma {text gap : List Char} (h : Keeps text) (hgap : IsGap gap) :
    Keeps (text ++ gap ++ [',']) :=
  (h.append (keeps_gap hgap)).append (.cons (after_of_isNeutral rfl) .nil)

/-- The front of a text leads to a nesting, from wherever it starts outside of strings. -/
def Opens (front : List Char) (n : Nesting) : Prop :=
  ∀ outer, front.foldl after (outside outer) = ⟨n.closers ++ outer, n.inString, false⟩

theorem Keeps.opens {text : List Char} (h : Keeps text) : Opens text {} :=
  fun outer => (h outer).whole

theorem Opens.append {text front : List Char} {n : Nesting} (h : Keeps text)
    (hfront : Opens front n) : Opens (text ++ front) n := by
  intro outer
  rw [List.foldl_append, (h outer).whole, hfront]

/-- The text is that of a value that nests at most `d` deep. -/
def HasValue (d : Nat) (text : List Char) : Prop :=
  ∃ tree, IsText tree text ∧ (tree.value? d).isSome = true

/-- The text is that of some items and the blanks behind them. -/
def HasItems (d : Nat) (text : List Char) : Prop :=
  ∃ items body gap, text = body ++ gap ∧ IsItems items body ∧ IsGap gap ∧
    (itemValues? d items).isSome = true

/-- The text is that of some members and the blanks behind them. -/
def HasMembers (d : Nat) (text : List Char) : Prop :=
  ∃ members body gap, text = body ++ gap ∧ IsMembers members body ∧ IsGap gap ∧
    (memberValues? d members).isSome = true

/-- Mended at its end, and closed by what it lacks, the front is a text of the kind. -/
def Repairs (kind : List Char → Prop) (front : List Char) : Prop :=
  mend front ≠ [] ∧ ∃ n, Opens front n ∧ kind (mend front ++ n.lacking)

namespace Repairs

variable {kind kind' : List Char → Prop} {front lead : List Char}

/-- What is complete lacks nothing. -/
theorem of_keeps (h : Keeps front) (hends : EndsClosing front) (hkind : kind front) :
    Repairs kind front := by
  refine ⟨?_, {}, h.opens, ?_⟩
  · rw [hends.mend]
    obtain ⟨init, c, rfl, -⟩ := hends
    exact List.append_ne_nil_of_right_ne_nil _ (List.cons_ne_nil c [])
  · rw [hends.mend]
    simpa [lacking] using hkind

/-- A comma behind what is complete is taken off. -/
theorem of_comma {gap : List Char} (h : Keeps front) (hends : EndsClosing front) (hgap : IsGap gap)
    (hkind : kind (front ++ gap)) : Repairs kind (front ++ gap ++ [',']) := by
  have hmend : mend (front ++ gap ++ [',']) = front ++ gap := by
    obtain ⟨init, c, rfl, hc⟩ := hends
    rcases List.eq_nil_or_concat' gap with rfl | ⟨spaces, space, rfl⟩
    · rw [List.append_nil]
      refine mend_comma init ?_
      rintro rfl
      cases hc
    · rw [← List.append_assoc]
      refine mend_comma _ ?_
      rintro rfl
      exact absurd (hgap ',' (by simp)) (by decide)
  refine ⟨?_, {}, ?_, ?_⟩
  · rw [hmend]
    obtain ⟨init, c, rfl, -⟩ := hends
    simp
  · exact (keeps_comma h hgap).opens
  · rw [hmend]
    simpa [lacking] using hkind

/-- What stands complete in front stays in front. -/
theorem append (h : Keeps lead) (hfront : Repairs kind front)
    (hkind : ∀ text, kind text → kind' (lead ++ text)) : Repairs kind' (lead ++ front) := by
  obtain ⟨hne, n, hopens, htext⟩ := hfront
  have hmend : mend (lead ++ front) = lead ++ mend front := mend_append lead hne
  refine ⟨?_, n, hopens.append h, ?_⟩
  · rw [hmend]
    exact List.append_ne_nil_of_right_ne_nil _ hne
  · rw [hmend, List.append_assoc]
    exact hkind _ htext

/-- A bracket that is opened is closed behind what it holds. -/
theorem bracketed {opening closing : Char} (hfront : Repairs kind front)
    (hopening : ∀ closers, (outside closers).after opening = outside (closing :: closers))
    (hkind : ∀ text, kind text → kind' (opening :: (text ++ [closing]))) :
    Repairs kind' (opening :: front) := by
  obtain ⟨hne, n, hopens, htext⟩ := hfront
  have hmend : mend (opening :: front) = opening :: mend front := mend_append [opening] hne
  refine ⟨by rw [hmend]; exact List.cons_ne_nil _ _, { n with closers := n.closers ++ [closing] },
    fun outer => ?_, ?_⟩
  · rw [List.foldl_cons, hopening, hopens, List.append_assoc, List.singleton_append]
  · have hlacking : lacking { n with closers := n.closers ++ [closing] } =
        n.lacking ++ [closing] := by
      rw [lacking, lacking, List.append_assoc]
    rw [hmend, hlacking, List.cons_append, ← List.append_assoc]
    exact hkind _ htext

end Repairs

/-! ## Clean cuts are repaired -/

theorem IsCut.skip_ne {back front : List Char} (h : IsCut back front) {lead : List Char}
    (hlead : IsGap lead) (stop : List Char) : skip (lead ++ (front ++ back)) ≠ ']' :: stop := by
  rw [skip_gap hlead]
  cases h <;> rw [List.cons_append, skip_cons rfl] <;> exact fun heq => nomatch heq

theorem IsItemsCut.skip_ne {back front : List Char} (h : IsItemsCut back front)
    (stop : List Char) : skip (front ++ back) ≠ ']' :: stop := by
  cases h with
  | inside blank cut =>
    rw [List.append_assoc]
    exact cut.skip_ne blank stop
  | behind blank text _ =>
    rw [List.append_assoc]
    exact text.skip_ne blank back
  | comma blank text blankAfter =>
    simp only [List.append_assoc]
    exact text.skip_ne blank _
  | later blank text blankAfter cut =>
    simp only [List.append_assoc]
    exact text.skip_ne blank _

theorem IsMembersCut.skip_ne {back front : List Char} (h : IsMembersCut back front)
    (stop : List Char) : skip (front ++ back) ≠ '\x7d' :: stop := by
  have hkey {key : List Piece} {lead rest : List Char} (name : IsKey key lead) :
      skip (lead ++ rest) ≠ '\x7d' :: stop := by
    obtain ⟨body, _, _, hskip, -⟩ := name.reads rest
    rw [hskip]
    exact fun heq => nomatch heq
  cases h <;> simp only [List.append_assoc] <;> exact hkey ‹_›

/-- The front of a string is repaired: what mending keeps of it denotes text, as the whole does. -/
theorem repairs_string {pieces : List Piece} {body back : List Char} (text : IsBody pieces body)
    (whole : ¬ EndsInPair pieces) {fuel d : Nat} {tree : Tree} {stop : List Char}
    (hread : valueAt fuel ('"' :: body ++ back) = some (tree, stop))
    (hvalue : (tree.value? d).isSome = true) : Repairs (HasValue d) ('"' :: body) := by
  obtain ⟨kept, chars, rest, rfl, hkept, hmend⟩ := exists_mend_string text
  refine ⟨by rw [hmend]; exact List.cons_ne_nil _ _, ⟨[], true, false⟩,
    fun outer => (leads_body text outer).whole, .string kept, ?_, ?_⟩
  · rw [hmend]
    exact .string hkept
  · -- the pieces that are kept are those that the reader finds first
    obtain ⟨less, rfl⟩ : ∃ less, fuel = less + 1 := by
      cases fuel with
      | zero => rw [valueAt] at hread; cases hread
      | succ less => exact ⟨less, rfl⟩
    rw [List.cons_append, valueAt_quote, text.stringBody_append, Option.map_map] at hread
    obtain ⟨⟨more, after⟩, -, hpair⟩ := Option.map_eq_some_iff.mp hread
    cases hpair
    rw [Tree.value?, Option.isSome_map, joinString?, Option.isSome_map, List.append_assoc]
      at hvalue
    rw [Tree.value?, Option.isSome_map, joinString?, Option.isSome_map]
    refine isSome_join?_of_append hvalue fun hends n tail heq => ?_
    -- when mending drops characters no surrogate follows, and otherwise the cut is no pair's
    cases chars with
    | nil => exact whole (by rwa [List.map_nil, List.append_nil])
    | cons c chars => cases heq

mutual

/-- The front of a value is repaired. -/
theorem IsCut.repairs {back : List Char} : ∀ {front : List Char}, IsCut back front →
    ∀ {fuel d : Nat} {tree : Tree} {stop : List Char},
      valueAt fuel (front ++ back) = some (tree, stop) → (tree.value? d).isSome = true →
        Repairs (HasValue d) front
  | _, .string text whole, fuel, d, tree, stop, hread, hvalue =>
    repairs_string text whole hread hvalue
  | _, .bracket, fuel, d, tree, stop, hread, hvalue => by
    -- whatever the array holds, reading it took one level of depth
    have hdepth : ∃ less, d = less + 1 := by
      obtain ⟨-, rfl⟩ | ⟨_, _, -, -, rfl⟩ := valueAt_array_cases hread <;>
        exact (isSome_value?_array.mp hvalue).imp fun _ h => h.1
    obtain ⟨less, rfl⟩ := hdepth
    exact ⟨List.cons_ne_nil _ _, ⟨[']'], false, false⟩, fun _ => rfl, .array [],
      .noItems isGap_nil, rfl⟩
  | _, .array cut, fuel, d, tree, stop, hread, hvalue => by
    obtain ⟨hclose, -⟩ | ⟨less, items, -, hitems, rfl⟩ := valueAt_array_cases hread
    · exact absurd hclose (cut.skip_ne stop)
    · obtain ⟨depth, rfl, hvalues⟩ := isSome_value?_array.mp hvalue
      refine (cut.repairs hitems hvalues).bracketed (fun _ => rfl) ?_
      rintro _ ⟨values, body, gap, rfl, htexts, hgap, hsome⟩
      exact ⟨_, .array htexts hgap, isSome_value?_array.mpr ⟨depth, rfl, hsome⟩⟩
  | _, .brace, fuel, d, tree, stop, hread, hvalue => by
    have hdepth : ∃ less, d = less + 1 := by
      obtain ⟨-, rfl⟩ | ⟨_, _, -, -, rfl⟩ := valueAt_object_cases hread <;>
        exact (isSome_value?_object.mp hvalue).imp fun _ h => h.1
    obtain ⟨less, rfl⟩ := hdepth
    exact ⟨List.cons_ne_nil _ _, ⟨['\x7d'], false, false⟩, fun _ => rfl, .object [],
      .noMembers isGap_nil, rfl⟩
  | _, .object cut, fuel, d, tree, stop, hread, hvalue => by
    obtain ⟨hclose, -⟩ | ⟨less, members, -, hmembers, rfl⟩ := valueAt_object_cases hread
    · exact absurd hclose (cut.skip_ne stop)
    · obtain ⟨depth, rfl, hvalues⟩ := isSome_value?_object.mp hvalue
      refine (cut.repairs hmembers hvalues).bracketed (fun _ => rfl) ?_
      rintro _ ⟨values, body, gap, rfl, htexts, hgap, hsome⟩
      exact ⟨_, .object htexts hgap, isSome_value?_object.mpr ⟨depth, rfl, hsome⟩⟩

/-- The front of the items of an array is repaired. -/
theorem IsItemsCut.repairs {back : List Char} : ∀ {front : List Char}, IsItemsCut back front →
    ∀ {fuel d : Nat} {items : List Tree} {stop : List Char},
      itemsAt fuel (front ++ back) = some (items, stop) → (itemValues? d items).isSome = true →
        Repairs (HasItems d) front
  | _, h, fuel, d, items, stop, hread, hvalues => by
    obtain ⟨less, item, after, rfl, hitem, hafter⟩ := itemsAt_cases hread
    have hfirst : (item.value? d).isSome = true := by
      obtain ⟨-, rfl⟩ | ⟨_, _, -, -, rfl⟩ := hafter <;> exact (isSome_itemValues?_cons.mp hvalues).1
    have hsingle : (itemValues? d [item]).isSome = true :=
      isSome_itemValues?_cons.mpr ⟨hfirst, rfl⟩
    match h with
    | .inside blank cut =>
      rw [List.append_assoc, valueAt_gap _ blank] at hitem
      refine (cut.repairs hitem hfirst).append (keeps_gap blank) ?_
      rintro text ⟨tree, htext, hsome⟩
      exact ⟨[tree], _, [], (List.append_nil _).symm, .last blank htext, isGap_nil,
        isSome_itemValues?_cons.mpr ⟨hsome, rfl⟩⟩
    | .behind blank text ends =>
      rw [List.append_assoc] at hitem
      obtain ⟨rfl, rfl⟩ := text.eq_of_valueAt blank ends hitem
      exact .of_keeps ((keeps_gap blank).append (keeps_text text))
        ((endsClosing_text text).append _)
        ⟨_, _, [], (List.append_nil _).symm, .last blank text, isGap_nil, hsingle⟩
    | @IsItemsCut.comma _ lead cs gap _ blank text blankAfter =>
      have hends := endsValue_comma blankAfter back
      have heq : lead ++ cs ++ gap ++ [','] ++ back =
          lead ++ (cs ++ (gap ++ ',' :: back)) := by simp
      rw [heq] at hitem
      obtain ⟨rfl, rfl⟩ := text.eq_of_valueAt blank hends hitem
      -- mending drops the comma and the blanks in front of it
      exact .of_comma ((keeps_gap blank).append (keeps_text text))
        ((endsClosing_text text).append _) blankAfter
        ⟨_, _, gap, rfl, .last blank text, blankAfter, hsingle⟩
    | @IsItemsCut.later _ lead cs gap front _ blank text blankAfter cut =>
      have hends := endsValue_comma blankAfter (front ++ back)
      have heq : lead ++ cs ++ gap ++ ',' :: front ++ back =
          lead ++ (cs ++ (gap ++ ',' :: (front ++ back))) := by simp
      rw [heq] at hitem
      obtain ⟨rfl, rfl⟩ := text.eq_of_valueAt blank hends hitem
      -- the item before the comma was read whole, so the cut is in the items behind it
      rw [skip_close blankAfter rfl] at hafter
      obtain ⟨hbracket, -⟩ | ⟨next, others, hnext, hothers, rfl⟩ := hafter
      · cases hbracket
      · obtain ⟨-, rfl⟩ := List.cons.inj hnext
        have hrest := cut.repairs hothers (isSome_itemValues?_cons.mp hvalues).2
        rw [List.append_cons]
        refine hrest.append (keeps_comma ((keeps_gap blank).append (keeps_text text)) blankAfter) ?_
        rintro _ ⟨items, body, tail, rfl, htexts, htail, hsome⟩
        exact ⟨_, _, tail, by simp, .cons blank text blankAfter htexts, htail,
          isSome_itemValues?_cons.mpr ⟨hfirst, hsome⟩⟩

/-- The front of the members of an object is repaired. -/
theorem IsMembersCut.repairs {back : List Char} : ∀ {front : List Char}, IsMembersCut back front →
    ∀ {fuel d : Nat} {members : List (List Piece × Tree)} {stop : List Char},
      membersAt fuel (front ++ back) = some (members, stop) →
        (memberValues? d members).isSome = true → Repairs (HasMembers d) front
  | _, .inside name cut, fuel, d, members, stop, hread, hvalues => by
    rw [List.append_assoc] at hread
    obtain ⟨less, value, after, rfl, hvalue, hafter⟩ := name.membersAt_cases hread
    obtain ⟨hkey, hfirst⟩ := isSome_of_membersAfter hafter hvalues
    refine (cut.repairs hvalue hfirst).append (keeps_key name) ?_
    rintro text ⟨tree, htext, hsome⟩
    exact ⟨_, _, [], (List.append_nil _).symm, .last name htext, isGap_nil,
      isSome_memberValues?_cons.mpr ⟨hkey, hsome, rfl⟩⟩
  | _, .behind name text ends, fuel, d, members, stop, hread, hvalues => by
    rw [List.append_assoc] at hread
    obtain ⟨less, value, after, rfl, hvalue, hafter⟩ := name.membersAt_cases hread
    obtain ⟨hkey, hfirst⟩ := isSome_of_membersAfter hafter hvalues
    obtain ⟨rfl, rfl⟩ := text.eq_of_valueAt isGap_nil ends hvalue
    exact .of_keeps ((keeps_key name).append (keeps_text text)) ((endsClosing_text text).append _)
      ⟨_, _, [], (List.append_nil _).symm, .last name text, isGap_nil,
        isSome_memberValues?_cons.mpr ⟨hkey, hfirst, rfl⟩⟩
  | _, @IsMembersCut.comma _ _ lead cs gap _ name text blankAfter, fuel, d, members, stop, hread,
      hvalues => by
    have heq : lead ++ cs ++ gap ++ [','] ++ back = lead ++ (cs ++ (gap ++ ',' :: back)) := by simp
    rw [heq] at hread
    obtain ⟨less, value, after, rfl, hvalue, hafter⟩ := name.membersAt_cases hread
    obtain ⟨hkey, hfirst⟩ := isSome_of_membersAfter hafter hvalues
    obtain ⟨rfl, rfl⟩ := text.eq_of_valueAt isGap_nil (endsValue_comma blankAfter back) hvalue
    exact .of_comma ((keeps_key name).append (keeps_text text)) ((endsClosing_text text).append _)
      blankAfter ⟨_, _, gap, rfl, .last name text, blankAfter,
        isSome_memberValues?_cons.mpr ⟨hkey, hfirst, rfl⟩⟩
  | _, @IsMembersCut.later _ _ lead cs gap front _ name text blankAfter cut, fuel, d, members, stop,
      hread, hvalues => by
    have heq : lead ++ cs ++ gap ++ ',' :: front ++ back =
        lead ++ (cs ++ (gap ++ ',' :: (front ++ back))) := by simp
    rw [heq] at hread
    obtain ⟨less, value, after, rfl, hvalue, hafter⟩ := name.membersAt_cases hread
    obtain ⟨hkey, hfirst⟩ := isSome_of_membersAfter hafter hvalues
    obtain ⟨rfl, rfl⟩ := text.eq_of_valueAt isGap_nil (endsValue_comma blankAfter _) hvalue
    rw [skip_close blankAfter rfl] at hafter
    obtain ⟨hbrace, -⟩ | ⟨next, others, hnext, hothers, rfl⟩ := hafter
    · cases hbrace
    · obtain ⟨-, rfl⟩ := List.cons.inj hnext
      have hrest := cut.repairs hothers (isSome_memberValues?_cons.mp hvalues).2.2
      rw [List.append_cons]
      refine hrest.append (keeps_comma ((keeps_key name).append (keeps_text text)) blankAfter) ?_
      rintro _ ⟨members, body, tail, rfl, htexts, htail, hsome⟩
      exact ⟨_, _, tail, by simp, .cons name text blankAfter htexts, htail,
        isSome_memberValues?_cons.mpr ⟨hkey, hfirst, hsome⟩⟩

end

/-! ## Replies -/

theorem exists_object_of_isText {tree : Tree} {cs : List Char}
    (h : IsText tree ('\x7b' :: cs)) :
    ∃ members, tree = .object members := by
  generalize htext : '\x7b' :: cs = text at h
  cases h with
  | noMembers blank => exact ⟨[], rfl⟩
  | object texts blank => exact ⟨_, rfl⟩
  | number text =>
    obtain ⟨c, tail, rfl, hc⟩ := text.head
    obtain ⟨rfl, -⟩ := List.cons.inj htext
    cases hc
  | _ => cases htext

/-- The text of an object has the members that are written there. -/
theorem members?_of_isText {trees : List (List Piece × Tree)} {text : List Char}
    {written : List (String × Json)} (h : IsText (.object trees) text)
    (hwritten : memberValues? 126 trees = some written) :
    members? text = some (sortMembers (canonicalMembers written)) := by
  have hread := h.read? isGap_nil
  rw [List.nil_append] at hread
  rw [members?, parse?, parseAsWritten?, hread, Option.bind_some,
    show depthLimit = 126 + 1 from rfl, Tree.value?, hwritten, Option.map_some, Option.map_some,
    canonical]

/-- The text of an object with a value has members. -/
theorem isSome_members?_of_hasValue {cs : List Char} (h : HasValue depthLimit ('\x7b' :: cs)) :
    (members? ('\x7b' :: cs)).isSome = true := by
  obtain ⟨tree, htext, hvalue⟩ := h
  obtain ⟨members, rfl⟩ := exists_object_of_isText htext
  obtain ⟨less, hless, hvalues⟩ := isSome_value?_object.mp hvalue
  obtain rfl : less = 126 := (Nat.succ.inj hless).symm
  obtain ⟨written, hwritten⟩ := Option.isSome_iff_exists.mp hvalues
  rw [members?_of_isText htext hwritten]
  rfl

/-- The text of an object is read from its brace, and has the members that are written there. -/
theorem exists_written_of_parse? {cs : List Char} {members : List (String × Json)}
    (h : parse? (String.ofList cs) = some (.obj members)) :
    ∃ fuel trees stop written, valueAt fuel cs = some (.object trees, stop) ∧
      memberValues? 126 trees = some written ∧
        members = sortMembers (canonicalMembers written) := by
  obtain ⟨value, hwritten, hcanonical⟩ := Option.map_eq_some_iff.mp h
  obtain ⟨tree, hread, hvalue⟩ := Option.bind_eq_some_iff.mp hwritten
  unfold Tree.read? at hread
  rw [String.toList_ofList] at hread
  dsimp only at hread
  rw [show depthLimit = 126 + 1 from rfl] at hvalue
  split at hread
  next found stop hfound =>
    obtain ⟨-, hsome⟩ := Option.ite_none_right_eq_some.mp hread
    obtain rfl := Option.some.inj hsome
    -- only the tree of an object has the value of one
    cases found with
    | object trees =>
      rw [Tree.value?] at hvalue
      obtain ⟨written, hmembers, rfl⟩ := Option.map_eq_some_iff.mp hvalue
      rw [canonical] at hcanonical
      exact ⟨_, trees, stop, written, hfound, hmembers, (Json.obj.inj hcanonical).symm⟩
    | number numeral =>
      rw [Tree.value?] at hvalue
      obtain ⟨number, -, rfl⟩ := Option.map_eq_some_iff.mp hvalue
      cases number <;> cases hcanonical
    | string pieces =>
      rw [Tree.value?] at hvalue
      obtain ⟨text, -, rfl⟩ := Option.map_eq_some_iff.mp hvalue
      cases hcanonical
    | array items =>
      rw [Tree.value?] at hvalue
      obtain ⟨values, -, rfl⟩ := Option.map_eq_some_iff.mp hvalue
      cases hcanonical
    | _ =>
      rw [Tree.value?] at hvalue
      cases hvalue
      cases hcanonical
  next => cases hread

/-- Only the front of an object is cut in the text of an object. -/
theorem IsCut.exists_brace {back front : List Char} (h : IsCut back front) {fuel : Nat}
    {members : List (List Piece × Tree)} {stop : List Char}
    (hread : valueAt fuel (front ++ back) = some (.object members, stop)) :
    ∃ cs, front = '\x7b' :: cs := by
  cases h with
  | brace => exact ⟨[], rfl⟩
  | object cut => exact ⟨_, rfl⟩
  | bracket | array cut =>
    obtain ⟨-, htree⟩ | ⟨_, _, -, -, htree⟩ := valueAt_array_cases hread <;> cases htree
  | string text whole =>
    cases fuel with
    | zero => rw [valueAt] at hread; cases hread
    | succ less =>
      rw [List.cons_append, valueAt_quote] at hread
      obtain ⟨_, -, htree⟩ := Option.map_eq_some_iff.mp hread
      cases htree

/-- A reply without fences that starts with its object holds one if the closed text is one. -/
theorem isSome_object?_of_balance {lead cs : List Char} (hlead : IsGap lead)
    (hfence : ¬ fence <:+: lead ++ '\x7b' :: cs)
    (h : (members? (balance ('\x7b' :: cs))).isSome = true) :
    (object? (String.ofList (lead ++ '\x7b' :: cs))).isSome = true := by
  have hstart : (lead ++ '\x7b' :: cs).dropWhile (· != '\x7b') = '\x7b' :: cs := by
    rw [List.dropWhile_append_of_pos, List.dropWhile_cons_of_neg (by simp)]
    intro c hc
    rw [bne_iff_ne]
    rintro rfl
    exact absurd (hlead _ hc) (by decide)
  unfold object?
  rw [String.toList_ofList, dropFences_eq_self hfence, hstart]
  dsimp only
  rw [List.isEmpty_cons, if_neg Bool.false_ne_true]
  -- an object between the braces would do as well
  have hrepaired (closed : Option (List (String × Json))) :
      (closed.orElse fun _ => members? (balance ('\x7b' :: cs))).isSome = true := by
    cases closed with
    | none => exact h
    | some members => rfl
  exact hrepaired _

/-- Where the text of an object, whatever blanks it starts with, is cut cleanly, its front is
repaired to an object. -/
theorem isSome_object?_of_cleanCut {lead front back : List Char} {members : List (String × Json)}
    (hobject : parse? (String.ofList (lead ++ front ++ back)) = some (.obj members))
    (hlead : IsGap lead) (hcut : IsCut back front) (hfence : ¬ fence <:+: lead ++ front ++ back) :
    (object? (String.ofList (lead ++ front))).isSome = true := by
  obtain ⟨fuel, trees, stop, written, hread, hwritten, -⟩ := exists_written_of_parse? hobject
  have hvalue : ((Tree.object trees).value? depthLimit).isSome = true :=
    isSome_value?_object.mpr ⟨126, rfl, by rw [hwritten]; rfl⟩
  rw [List.append_assoc, valueAt_gap _ hlead] at hread
  obtain ⟨hne, n, hopens, hclosed⟩ := hcut.repairs hread hvalue
  obtain ⟨cs, rfl⟩ := hcut.exists_brace hread
  have hbalance : balance ('\x7b' :: cs) = mend ('\x7b' :: cs) ++ n.lacking := by
    rw [balance_eq, show (({} : Nesting)) = outside [] from rfl, hopens []]
    simp [lacking]
  refine isSome_object?_of_balance hlead ?_ ?_
  · exact fun hin => hfence (hin.trans (List.prefix_append _ back).isInfix)
  · obtain ⟨rest, hrest⟩ : ∃ rest, mend ('\x7b' :: cs) = '\x7b' :: rest := by
      obtain ⟨c, rest, hmend⟩ := List.exists_cons_of_ne_nil hne
      have hprefix := mend_prefix ('\x7b' :: cs)
      rw [hmend] at hprefix ⊢
      obtain ⟨rfl, -⟩ := List.cons_prefix_cons.mp hprefix
      exact ⟨rest, rfl⟩
    rw [hbalance, hrest, List.cons_append]
    rw [hrest, List.cons_append] at hclosed
    exact isSome_members?_of_hasValue hclosed

/-- A reply that breaks off behind a comma in the text of an item. -/
theorem isSome_object?_of_cleanCut_string :
    (object? (String.ofList ([] ++ ['\x7b', '"', 'a', '"', ':', '[', '"', 'x', ',']))).isSome =
      true := by
  have hobject : parse? (String.ofList ([] ++ ['\x7b', '"', 'a', '"', ':', '[', '"', 'x', ','] ++
      ['y', '"', ']', '\x7d'])) = some (.obj [("a", .arr [.str "x,y"])]) :=
    parse?_of_writes (by decide) (writes_compact (.obj [("a", .arr [.str "x,y"])]))
  have hkey : IsKey [.char 'a'] ['"', 'a', '"', ':'] :=
    .mk isGap_nil (.char (by decide) (by decide) (by decide) .nil) isGap_nil isGap_nil
  have hbody : IsBody [.char 'x', .char ','] ['x', ','] :=
    .char (by decide) (by decide) (by decide) (.char (by decide) (by decide) (by decide) .nil)
  have hwhole : ¬ EndsInPair [.char 'x', .char ','] := by
    rintro ⟨front, n, hfront, -⟩
    have hlast := congrArg List.getLast? hfront
    rw [List.getLast?_concat] at hlast
    cases hlast
  exact isSome_object?_of_cleanCut hobject isGap_nil
    (.object (.inside hkey (.array (.inside isGap_nil (.string hbody hwhole))))) (by decide)

end Reply

end Storyboard
