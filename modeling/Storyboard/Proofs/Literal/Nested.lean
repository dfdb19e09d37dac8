import Storyboard.Literal.Writer
import Storyboard.Proofs.Literal.IntegerList
import Storyboard.Proofs.Literal.Order

/-!
# Reading literals that have been written inside others

A literal inside another one is written with quotes around its texts.  Where no double stands in it
and its texts hold no single quote, backslash or line end, this text is read as the same literal,
whatever follows that goes on with neither a word nor a number.  Containers are read item by item:
an item ends where its text does, and a comma behind a single one makes a tuple of it.
-/

namespace Storyboard.Literal

/-! ## Literals that can be read back -/

/-- A text that needs no escape between single quotes. -/
def isPlainText (text : String) : Bool :=
  text.toList.all fun c => c != '\'' && c != '\\' && c != '\n'

mutual

/-- All texts in the literal are plain. -/
def hasPlainTexts : Literal → Bool
  | text s => isPlainText s
  | tuple items | list items => havePlainTexts items
  | dict entries => entriesHavePlainTexts entries
  | _ => true

@[inherit_doc hasPlainTexts]
def havePlainTexts : List Literal → Bool
  | [] => true
  | item :: rest => hasPlainTexts item && havePlainTexts rest

@[inherit_doc hasPlainTexts]
def entriesHavePlainTexts : List (Literal × Literal) → Bool
  | [] => true
  | (key, value) :: rest =>
    hasPlainTexts key && hasPlainTexts value && entriesHavePlainTexts rest

end

/-! ## What stands around a literal -/

/-- The text goes on with neither a word nor a number. -/
def EndsWord (text : List Char) : Prop :=
  ∀ c ∈ text.head?, (isKeywordChar c || c == '.') = false

theorem endsWord_nil : EndsWord [] := nofun

theorem endsWord_cons {c : Char} (cs : List Char) (h : (isKeywordChar c || c == '.') = false) :
    EndsWord (c :: cs) := by
  rintro _ ⟨⟩
  exact h

/-- A character of a number is one of a word, or a point. -/
theorem EndsWord.endsNumber {text : List Char} (h : EndsWord text) : EndsNumber text := by
  intro c hc
  have hword := h c hc
  rw [Bool.eq_false_iff] at hword ⊢
  refine fun hpart => hword ?_
  simp only [isKeywordChar, Char.isAlphanum, Bool.or_eq_true, beq_iff_eq] at hpart ⊢
  rcases hpart with (((hdigit | rfl) | rfl) | rfl) | rfl
  · exact Or.inl (Or.inl (Or.inr hdigit))
  all_goals decide

/-- A literal inside another one may start with the character. -/
def startsNested (c : Char) : Bool :=
  startsInteger c || ['N', 'T', 'F', '\'', '(', '[', '\x7b'].contains c

/-- Every literal without doubles takes a character, and one that it may start with. -/
theorem exists_head_chars {value : Literal} (h : value.isFloatFree = true) :
    ∃ c cs, chars true value = c :: cs ∧ startsNested c = true := by
  match value with
  | .none => exact ⟨'N', _, rfl, rfl⟩
  | .bool true => exact ⟨'T', _, rfl, rfl⟩
  | .bool false => exact ⟨'F', _, rfl, rfl⟩
  | .int n =>
    obtain ⟨c, cs, hcs, hc⟩ := exists_head_intText n.toInt
    refine ⟨c, cs, by rw [chars, hcs], ?_⟩
    rw [startsNested, hc, Bool.true_or]
  | .text s => exact ⟨'\'', _, by rw [chars, if_pos rfl], rfl⟩
  | .tuple [] => exact ⟨'(', _, rfl, rfl⟩
  | .tuple [_] => exact ⟨'(', _, by rw [chars], rfl⟩
  | .tuple (_ :: _ :: _) => exact ⟨'(', _, by rw [chars]; exact nofun, rfl⟩
  | .list [] => exact ⟨'[', _, rfl, rfl⟩
  | .list (_ :: _) => exact ⟨'[', _, by rw [chars], rfl⟩
  | .dict [] => exact ⟨'\x7b', _, rfl, rfl⟩
  | .dict (_ :: _) => exact ⟨'\x7b', _, by rw [chars], rfl⟩

theorem skip_chars {value : Literal} (h : value.isFloatFree = true) (rest : List Char) :
    skip (chars true value ++ rest) = chars true value ++ rest := by
  obtain ⟨c, cs, hcs, hc⟩ := exists_head_chars h
  rw [hcs]
  exact skip_of_starts hc rfl _

/-! ## Words and texts -/

/-- A word is read up to its end. -/
theorem takeWhile_word {word rest : List Char} (hword : word.all isKeywordChar = true)
    (hrest : EndsWord rest) : (word ++ rest).takeWhile isKeywordChar = word ∧
      (word ++ rest).dropWhile isKeywordChar = rest := by
  rw [List.all_eq_true] at hword
  rw [List.takeWhile_append_of_pos hword, List.dropWhile_append_of_pos hword]
  cases rest with
  | nil => exact ⟨List.append_nil _, rfl⟩
  | cons c cs =>
    have hc : isKeywordChar c = false := (Bool.or_eq_false_iff.mp (hrest c rfl)).1
    rw [List.takeWhile_cons, List.dropWhile_cons, hc]
    exact ⟨List.append_nil _, rfl⟩

/-- A word that alone is read as a value is read so before anything that does not go on with it. -/
theorem keyword_word {word rest : List Char} {value : Literal}
    (hword : word.all isKeywordChar = true) (hvalue : keyword word = .ok (value, []))
    (hrest : EndsWord rest) : keyword (word ++ rest) = .ok (value, rest) := by
  obtain ⟨htake, hdrop⟩ := takeWhile_word hword hrest
  obtain ⟨hall, hnone⟩ := takeWhile_word hword endsWord_nil
  rw [List.append_nil] at hall hnone
  rw [keyword, hall, hnone] at hvalue
  rw [keyword, htake, hdrop]
  split at hvalue
  next => cases hvalue; rfl
  next => cases hvalue; rfl
  next => cases hvalue; rfl
  next => nomatch hvalue

theorem valueAt_none (fuel : Nat) {rest : List Char} (hrest : EndsWord rest) :
    valueAt (fuel + 1) (chars true .none ++ rest) = .ok (.none, rest) := by
  have hword : ['N', 'o', 'n', 'e'].all isKeywordChar = true := rfl
  exact keyword_word hword rfl hrest

theorem valueAt_bool (fuel : Nat) (b : Bool) {rest : List Char} (hrest : EndsWord rest) :
    valueAt (fuel + 1) (chars true (.bool b) ++ rest) = .ok (.bool b, rest) := by
  cases b with
  | false =>
    have hword : ['F', 'a', 'l', 's', 'e'].all isKeywordChar = true := rfl
    exact keyword_word hword rfl hrest
  | true =>
    have hword : ['T', 'r', 'u', 'e'].all isKeywordChar = true := rfl
    exact keyword_word hword rfl hrest

/-- A 64-bit integer is read back as itself. -/
theorem valueAt_int (fuel : Nat) (n : Int64) {rest : List Char} (hrest : EndsWord rest) :
    valueAt (fuel + 1) (chars true (.int n) ++ rest) = .ok (.int n, rest) := by
  have hfits : Decimal.fitsInt64 n.toInt = true := by
    rw [Decimal.fitsInt64, Bool.and_eq_true, decide_eq_true_eq, decide_eq_true_eq]
    exact ⟨n.minValue_le_toInt, n.toInt_le⟩
  have hread := valueAt_intText fuel hfits hrest.endsNumber
  rw [Int64.ofInt_toInt] at hread
  exact hread

theorem exists_of_map_eq_ok {ε α β : Type _} {read : Except ε α} {f : α → β} {result : β}
    (h : read.map f = .ok result) : ∃ found, read = .ok found ∧ f found = result := by
  cases read with
  | error e => cases h
  | ok found => exact ⟨found, rfl, Except.ok.inj h⟩

theorem quotedBody_cons {quote c : Char} (hc : c ≠ '\\') (cs : List Char) :
    quotedBody quote (c :: cs) =
      if c == quote then .ok ([], cs)
      else if c == '\n' then .error ⟨.unterminated, c :: cs⟩
      else (quotedBody quote cs).map fun (raw, rest) => (c :: raw, rest) := by
  rw [quotedBody, if_neg (by simpa using hc)]
  rintro d ds rfl
  exact absurd rfl hc

/-- A string is closed by its quote, whatever stands behind it. -/
theorem quotedBody_resumes {quote : Char} {cs raw rest : List Char}
    (h : quotedBody quote cs = .ok (raw, rest)) :
    cs = raw ++ quote :: rest ∧
      ∀ tail, quotedBody quote (raw ++ quote :: tail) = .ok (raw, tail) := by
  fun_induction quotedBody quote cs generalizing raw rest with
  | case1 => cases h
  | case2 c cs ih =>
    obtain ⟨⟨raw, rest⟩, hread, h⟩ := exists_of_map_eq_ok h
    obtain ⟨rfl, rfl⟩ := Prod.mk.inj h
    obtain ⟨rfl, hlocal⟩ := ih hread
    refine ⟨rfl, fun tail => ?_⟩
    rw [List.cons_append, List.cons_append, quotedBody, hlocal tail]
    rfl
  | case3 => cases h
  | case4 c cs hguard hescape hend =>
    obtain ⟨rfl, rfl⟩ := Prod.mk.inj (Except.ok.inj h)
    -- only here the body ends, and the rest was not looked at
    obtain rfl := eq_of_beq hend
    refine ⟨rfl, fun tail => ?_⟩
    rw [List.nil_append, quotedBody_cons (by simpa using hescape), if_pos hend]
  | case5 => cases h
  | case6 c cs hguard hescape hend hline ih =>
    obtain ⟨⟨raw, rest⟩, hread, h⟩ := exists_of_map_eq_ok h
    obtain ⟨rfl, rfl⟩ := Prod.mk.inj h
    obtain ⟨rfl, hlocal⟩ := ih hread
    refine ⟨rfl, fun tail => ?_⟩
    rw [List.cons_append, quotedBody_cons (by simpa using hescape), if_neg hend, if_neg hline,
      hlocal tail]
    rfl

/-- A plain text is read up to the next single quote. -/
theorem quotedBody_plain {cs : List Char}
    (hcs : cs.all (fun c => c != '\'' && c != '\\' && c != '\n') = true) (rest : List Char) :
    quotedBody '\'' (cs ++ '\'' :: rest) = .ok (cs, rest) := by
  induction cs with
  | nil =>
    rw [List.nil_append, quotedBody]
    · rfl
    · exact nofun
  | cons c cs ih =>
    rw [List.all_cons, Bool.and_eq_true] at hcs
    obtain ⟨hc, hrest⟩ := hcs
    simp only [Bool.and_eq_true, bne_iff_ne] at hc
    obtain ⟨⟨hquote, hbackslash⟩, hline⟩ := hc
    rw [List.cons_append, quotedBody, if_neg (by simpa using hbackslash),
      if_neg (by simpa using hquote), if_neg (by simpa using hline), ih hrest]
    · rfl
    · rintro d ds rfl
      exact absurd rfl hbackslash

/-- There is no escape in a plain text. -/
theorem unescape_plain {cs : List Char}
    (hcs : cs.all (fun c => c != '\'' && c != '\\' && c != '\n') = true) : unescape cs = cs := by
  induction cs with
  | nil => rfl
  | cons c cs ih =>
    rw [List.all_cons, Bool.and_eq_true] at hcs
    obtain ⟨hc, hrest⟩ := hcs
    simp only [Bool.and_eq_true, bne_iff_ne] at hc
    obtain ⟨⟨-, hbackslash⟩, -⟩ := hc
    rw [unescape, ih hrest]
    all_goals simp [hbackslash]

theorem valueAt_text (fuel : Nat) {s : String} (hs : isPlainText s = true) (rest : List Char) :
    valueAt (fuel + 1) (chars true (.text s) ++ rest) = .ok (.text s, rest) := by
  have hbody := quotedBody_plain hs rest
  have hchars : chars true (.text s) ++ rest = '\'' :: (s.toList ++ '\'' :: rest) := by
    rw [chars, if_pos rfl, List.cons_append, List.append_assoc]
    rfl
  rw [hchars]
  show (quotedBody '\'' (s.toList ++ '\'' :: rest)).map _ = _
  rw [hbody]
  show Except.ok (Literal.text (String.ofList (unescape s.toList)), rest) = _
  rw [unescape_plain hs, String.ofList_toList]

/-! ## Items and entries -/

/-- All items of a container, with a comma and a blank between them. -/
def joinedChars : List Literal → List Char
  | [] => []
  | item :: rest => chars true item ++ itemsChars rest

/-- All entries of a dictionary, with a comma and a blank between them. -/
def joinedEntries : List (Literal × Literal) → List Char
  | [] => []
  | (key, value) :: rest => chars true key ++ ':' :: ' ' :: (chars true value ++ entriesChars rest)

theorem itemsChars_cons (item : Literal) (rest : List Literal) :
    itemsChars (item :: rest) = ',' :: ' ' :: joinedChars (item :: rest) := by
  rw [itemsChars, joinedChars]

theorem entriesChars_cons (entry : Literal × Literal) (rest : List (Literal × Literal)) :
    entriesChars (entry :: rest) = ',' :: ' ' :: joinedEntries (entry :: rest) := by
  rw [entriesChars, joinedEntries]

theorem chars_list (items : List Literal) :
    chars true (.list items) = '[' :: (joinedChars items ++ [']']) := by
  cases items with
  | nil => rfl
  | cons item rest => rw [chars, joinedChars]

/-- Only the tuple of one item is written in a way of its own. -/
theorem chars_tuple {items : List Literal} (h : items.length ≠ 1) :
    chars true (.tuple items) = '(' :: (joinedChars items ++ [')']) := by
  rcases items with _ | ⟨item, _ | ⟨next, rest⟩⟩
  · rfl
  · exact absurd rfl h
  · rw [chars, joinedChars]
    exact fun hrest => absurd hrest (List.cons_ne_nil next rest)

/-- What is not a single item stays a tuple without a comma behind it. -/
theorem parenthesized_of_length_ne {items : List Literal} (h : items.length ≠ 1) :
    parenthesized items false = .tuple items := by
  rcases items with _ | ⟨item, _ | ⟨next, rest⟩⟩
  · rfl
  · exact absurd rfl h
  · rfl

theorem chars_dict (entries : List (Literal × Literal)) :
    chars true (.dict entries) = '\x7b' :: (joinedEntries entries ++ ['\x7d']) := by
  rcases entries with _ | ⟨⟨key, value⟩, rest⟩
  · rfl
  · rw [chars, joinedEntries]
    simp only [List.append_assoc, List.cons_append]

/-- There is no trivia before the items of a container and its closing bracket. -/
theorem skip_joinedChars {items : List Literal} (h : areFloatFree items = true) {close : Char}
    (hclose : close = ']' ∨ close = ')') (tail : List Char) :
    skip (joinedChars items ++ close :: tail) = joinedChars items ++ close :: tail := by
  cases items with
  | nil => rcases hclose with rfl | rfl <;> rfl
  | cons item rest =>
    rw [areFloatFree, Bool.and_eq_true] at h
    rw [joinedChars, List.append_assoc]
    exact skip_chars h.1 _

/-- There is no trivia before the entries of a dictionary and its closing brace. -/
theorem skip_joinedEntries {entries : List (Literal × Literal)}
    (h : entriesAreFloatFree entries = true) (tail : List Char) :
    skip (joinedEntries entries ++ '\x7d' :: tail) = joinedEntries entries ++ '\x7d' :: tail := by
  rcases entries with _ | ⟨⟨key, value⟩, rest⟩
  · rfl
  · rw [entriesAreFloatFree, Bool.and_eq_true, Bool.and_eq_true] at h
    rw [joinedEntries, List.append_assoc]
    exact skip_chars h.1.1 _

/-- A literal is not taken for the closing bracket that ends the items before it. -/
theorem head?_chars_ne {value : Literal} (h : value.isFloatFree = true) {close : Char}
    (hclose : [close].any startsNested = false) (rest : List Char) :
    ((chars true value ++ rest).head? == some close) = false := by
  obtain ⟨c, cs, hcs, hc⟩ := exists_head_chars h
  rw [hcs]
  exact beq_of_starts hc [close] hclose close List.mem_cons_self

/-- With the fuel, the literal is read up to its end, whatever follows it. -/
def ReadsBack (fuel : Nat) (value : Literal) : Prop :=
  ∀ rest, EndsWord rest → valueAt fuel (chars true value ++ rest) = .ok (value, rest)

theorem ReadsBack.after_blank {fuel : Nat} {value : Literal} (h : ReadsBack fuel value)
    {rest : List Char} (hrest : EndsWord rest) :
    valueAt fuel (' ' :: (chars true value ++ rest)) = .ok (value, rest) := by
  cases fuel with
  | zero => nomatch h rest hrest
  | succ fuel => exact h rest hrest

/-- An item that is read back is taken, and what follows it decides how reading goes on. -/
theorem itemsAt_of_readsBack {fuel : Nat} {item : Literal} (h : ReadsBack fuel item)
    (hfree : item.isFloatFree = true) {close : Char} (hclose : close = ']' ∨ close = ')')
    (comma : Bool) {cs tail : List Char} (hcs : skip cs = chars true item ++ tail)
    (htail : EndsWord tail) :
    itemsAt (fuel + 1) close comma cs =
      match skip tail with
      | [] => .error ⟨.noCommaOrClose, []⟩
      | c :: rest =>
        if c == ',' then
          (itemsAt fuel close true rest).map fun (items, comma, rest) => (item :: items, comma, rest)
        else if c == close then .ok ([item], false, rest)
        else .error ⟨.noCommaOrClose, c :: rest⟩ := by
  have hopen : ((skip cs).head? == some close) = false := by
    rw [hcs]
    rcases hclose with rfl | rfl
    · exact head?_chars_ne hfree rfl tail
    · exact head?_chars_ne hfree rfl tail
  have hvalue : valueAt fuel (skip cs) = .ok (item, tail) := by
    rw [hcs]
    exact h tail htail
  exact itemsAt_of_valueAt comma hopen hvalue

/-- The comma behind the only item of a tuple keeps it from being read as that item. -/
theorem ReadsBack.single {fuel : Nat} {item : Literal} (h : ReadsBack (fuel + 1) item)
    (hfree : item.isFloatFree = true) : ReadsBack (fuel + 3) (.tuple [item]) := by
  intro rest _
  have hitems := itemsAt_of_readsBack h hfree (Or.inr rfl) false
    (skip_chars hfree (',' :: ')' :: rest)) (endsWord_cons _ rfl)
  rw [chars, List.cons_append, List.append_assoc]
  show (itemsAt (fuel + 2) ')' false (chars true item ++ ',' :: ')' :: rest)).map _ = _
  rw [hitems]
  rfl

/-- An entry whose key and value are read back is taken, and what follows it decides how reading
goes on. -/
theorem entriesAt_of_readsBack {fuel : Nat} {key value : Literal} (hkey : ReadsBack fuel key)
    (hvalue : ReadsBack fuel value) (hkeyFree : key.isFloatFree = true) {cs tail : List Char}
    (hcs : skip cs = chars true key ++ ':' :: ' ' :: (chars true value ++ tail))
    (htail : EndsWord tail) :
    entriesAt (fuel + 1) cs =
      match skip tail with
      | ',' :: rest =>
        (entriesAt fuel rest).map fun (entries, rest) => ((key, value) :: entries, rest)
      | '\x7d' :: rest => .ok ([(key, value)], rest)
      | rest => .error ⟨.noCommaOrBrace, rest⟩ := by
  have hopen : ((chars true key ++ ':' :: ' ' :: (chars true value ++ tail)).head? == some '\x7d') =
      false := head?_chars_ne hkeyFree rfl _
  have hread := hkey (':' :: ' ' :: (chars true value ++ tail)) (endsWord_cons _ rfl)
  rw [← hcs] at hopen hread
  rw [entriesAt]
  split
  next rest hbrace =>
    rw [hbrace] at hopen
    exact absurd hopen (by simp)
  next =>
    -- the colon is found at once, and one blank stands before the value
    have hcolon : skip (':' :: ' ' :: (chars true value ++ tail)) =
        ':' :: ' ' :: (chars true value ++ tail) := rfl
    have hsecond := hvalue.after_blank htail
    rw [hread]
    simp only [hcolon]
    generalize valueAt fuel (' ' :: (chars true value ++ tail)) = read at hsecond ⊢
    subst hsecond
    rfl

/-- A list is read back when its items are read up to the bracket. -/
theorem readsBack_list {fuel : Nat} {items : List Literal}
    (h : ∀ rest, itemsAt fuel ']' false (joinedChars items ++ ']' :: rest) = .ok (items, false, rest)) :
    ReadsBack (fuel + 1) (.list items) := by
  intro rest _
  rw [chars_list, List.cons_append, List.append_assoc]
  show (itemsAt fuel ']' false (joinedChars items ++ ']' :: rest)).map _ = _
  rw [h]
  rfl

/-- So is a tuple that is not written with a comma of its own. -/
theorem readsBack_tuple {fuel : Nat} {items : List Literal} (hsingle : items.length ≠ 1)
    (h : ∀ rest, itemsAt fuel ')' false (joinedChars items ++ ')' :: rest) = .ok (items, false, rest)) :
    ReadsBack (fuel + 1) (.tuple items) := by
  intro rest _
  rw [chars_tuple hsingle, List.cons_append, List.append_assoc]
  show (itemsAt fuel ')' false (joinedChars items ++ ')' :: rest)).map _ = _
  rw [h, ← parenthesized_of_length_ne hsingle]
  rfl

/-- A dictionary is read back when its entries are read up to the brace. -/
theorem readsBack_dict {fuel : Nat} {entries : List (Literal × Literal)}
    (h : ∀ rest, entriesAt fuel (joinedEntries entries ++ '\x7d' :: rest) = .ok (entries, rest)) :
    ReadsBack (fuel + 1) (.dict entries) := by
  intro rest _
  rw [chars_dict, List.cons_append, List.append_assoc]
  show (entriesAt fuel (joinedEntries entries ++ '\x7d' :: rest)).map _ = _
  rw [h]
  rfl

mutual

/-- With fuel for every character of it, a literal is read back. -/
theorem readsBack_of_length_le : ∀ value : Literal, value.isFloatFree = true →
    value.hasPlainTexts = true → ∀ fuel, (chars true value).length ≤ fuel → ReadsBack fuel value
  | value, hfree, hplain, fuel, hfuel => by
    obtain ⟨fuel, rfl⟩ : ∃ n, fuel = n + 1 := by
      obtain ⟨c, cs, hcs, -⟩ := exists_head_chars hfree
      rw [hcs, List.length_cons] at hfuel
      exact ⟨fuel - 1, by omega⟩
    match value with
    | .none => exact fun _ => valueAt_none fuel
    | .bool b => exact fun _ => valueAt_bool fuel b
    | .int n => exact fun _ => valueAt_int fuel n
    | .text s => exact fun rest _ => valueAt_text fuel hplain rest
    | .list items =>
      rw [chars_list] at hfuel
      simp only [List.length_cons, List.length_append, List.length_nil] at hfuel
      exact readsBack_list fun rest => itemsAt_joinedChars items hfree hplain fuel false rest
        (by omega) (Or.inl rfl) (skip_joinedChars hfree (Or.inl rfl) rest)
    | .tuple items =>
      by_cases hsingle : items.length = 1
      · obtain ⟨item, rfl⟩ := List.length_eq_one_iff.mp hsingle
        rw [isFloatFree, areFloatFree, areFloatFree, Bool.and_true] at hfree
        rw [hasPlainTexts, havePlainTexts, havePlainTexts, Bool.and_true] at hplain
        rw [chars] at hfuel
        simp only [List.length_cons, List.length_append, List.length_nil] at hfuel
        -- the parentheses and the comma leave fuel for reading the item in them
        obtain ⟨fuel, rfl⟩ : ∃ n, fuel = n + 2 := ⟨fuel - 2, by omega⟩
        exact (readsBack_of_length_le item hfree hplain (fuel + 1) (by omega)).single hfree
      · rw [chars_tuple hsingle] at hfuel
        simp only [List.length_cons, List.length_append, List.length_nil] at hfuel
        exact readsBack_tuple hsingle fun rest => itemsAt_joinedChars items hfree hplain fuel false
          rest (by omega) (Or.inr rfl) (skip_joinedChars hfree (Or.inr rfl) rest)
    | .dict entries =>
      rw [chars_dict] at hfuel
      simp only [List.length_cons, List.length_append, List.length_nil] at hfuel
      exact readsBack_dict fun rest => entriesAt_joinedEntries entries hfree hplain fuel rest
        (by omega) (skip_joinedEntries hfree rest)

/-- Items are read up to the closing bracket. -/
theorem itemsAt_joinedChars : ∀ items : List Literal, areFloatFree items = true →
    havePlainTexts items = true → ∀ (fuel : Nat) (comma : Bool) (tail : List Char) {close : Char}
      {cs : List Char}, (joinedChars items).length < fuel → close = ']' ∨ close = ')' →
      skip cs = joinedChars items ++ close :: tail →
      itemsAt fuel close comma cs = .ok (items, comma && items.isEmpty, tail)
  | [], _, _, fuel, comma, tail, close, cs, hfuel, _, hcs => by
    obtain ⟨fuel, rfl⟩ : ∃ n, fuel = n + 1 := ⟨fuel - 1, by omega⟩
    have hclosed : ((close :: tail).head? == some close) = true := beq_self_eq_true _
    rw [itemsAt, hcs]
    show (if ((close :: tail).head? == some close) = true then _ else _) = _
    rw [if_pos hclosed, List.isEmpty_nil, Bool.and_true]
    rfl
  | item :: rest, hfree, hplain, fuel, comma, tail, close, cs, hfuel, hclose, hcs => by
    rw [areFloatFree, Bool.and_eq_true] at hfree
    rw [havePlainTexts, Bool.and_eq_true] at hplain
    rw [joinedChars, List.append_assoc] at hcs
    rw [joinedChars, List.length_append] at hfuel
    obtain ⟨fuel, rfl⟩ : ∃ n, fuel = n + 1 := ⟨fuel - 1, by omega⟩
    have hitem := readsBack_of_length_le item hfree.1 hplain.1 fuel (by omega)
    rw [List.isEmpty_cons, Bool.and_false]
    -- behind the last item stands the bracket, behind any other one a comma and a blank
    match rest with
    | [] =>
      have hword : EndsWord (close :: tail) := by
        rcases hclose with rfl | rfl <;> exact endsWord_cons _ rfl
      rw [itemsAt_of_readsBack hitem hfree.1 hclose comma hcs hword]
      rcases hclose with rfl | rfl <;> rfl
    | next :: rest =>
      rw [itemsChars_cons] at hcs hfuel
      simp only [List.length_cons] at hfuel
      have hblank : skip (' ' :: (joinedChars (next :: rest) ++ close :: tail)) =
          joinedChars (next :: rest) ++ close :: tail := skip_joinedChars hfree.2 hclose tail
      have hitems := itemsAt_joinedChars (next :: rest) hfree.2 hplain.2 fuel true tail (by omega)
        hclose hblank
      refine (itemsAt_of_readsBack hitem hfree.1 hclose comma hcs (endsWord_cons _ rfl)).trans ?_
      show (itemsAt fuel close true (' ' :: (joinedChars (next :: rest) ++ close :: tail))).map _ = _
      rw [hitems]
      rfl

/-- Entries are read up to the closing brace. -/
theorem entriesAt_joinedEntries : ∀ entries : List (Literal × Literal),
    entriesAreFloatFree entries = true → entriesHavePlainTexts entries = true →
    ∀ (fuel : Nat) (tail : List Char) {cs : List Char}, (joinedEntries entries).length < fuel →
      skip cs = joinedEntries entries ++ '\x7d' :: tail →
      entriesAt fuel cs = .ok (entries, tail)
  | [], _, _, fuel, tail, cs, hfuel, hcs => by
    obtain ⟨fuel, rfl⟩ : ∃ n, fuel = n + 1 := ⟨fuel - 1, by omega⟩
    rw [entriesAt, hcs]
    rfl
  | (key, value) :: rest, hfree, hplain, fuel, tail, cs, hfuel, hcs => by
    rw [entriesAreFloatFree, Bool.and_eq_true, Bool.and_eq_true] at hfree
    rw [entriesHavePlainTexts, Bool.and_eq_true, Bool.and_eq_true] at hplain
    obtain ⟨⟨hkeyFree, hvalueFree⟩, hrestFree⟩ := hfree
    obtain ⟨⟨hkeyPlain, hvaluePlain⟩, hrestPlain⟩ := hplain
    rw [joinedEntries] at hcs hfuel
    simp only [List.append_assoc, List.cons_append] at hcs
    simp only [List.length_append, List.length_cons] at hfuel
    obtain ⟨fuel, rfl⟩ : ∃ n, fuel = n + 1 := ⟨fuel - 1, by omega⟩
    have hkey := readsBack_of_length_le key hkeyFree hkeyPlain fuel (by omega)
    have hvalue := readsBack_of_length_le value hvalueFree hvaluePlain fuel (by omega)
    -- behind the last entry stands the brace, behind any other one a comma and a blank
    match rest with
    | [] => exact entriesAt_of_readsBack hkey hvalue hkeyFree hcs (endsWord_cons _ rfl)
    | next :: rest =>
      rw [entriesChars_cons] at hcs hfuel
      simp only [List.length_cons] at hfuel
      have hblank : skip (' ' :: (joinedEntries (next :: rest) ++ '\x7d' :: tail)) =
          joinedEntries (next :: rest) ++ '\x7d' :: tail := skip_joinedEntries hrestFree tail
      have hentries := entriesAt_joinedEntries (next :: rest) hrestFree hrestPlain fuel tail
        (by omega) hblank
      refine (entriesAt_of_readsBack hkey hvalue hkeyFree hcs (endsWord_cons _ rfl)).trans ?_
      show (entriesAt fuel (' ' :: (joinedEntries (next :: rest) ++ '\x7d' :: tail))).map _ = _
      rw [hentries]
      rfl

end

/-! ## Whole texts -/

/-- A literal that holds no double and only plain texts is read back from its text inside another
one. -/
theorem parse_nested (value : Literal) (hfree : value.isFloatFree = true)
    (hplain : value.hasPlainTexts = true) : parse value.nested.toList = .ok value := by
  have hread := readsBack_of_length_le value hfree hplain (2 * (chars true value).length + 2)
    (by omega) [] endsWord_nil
  rw [List.append_nil] at hread
  rw [nested, String.toList_ofList, parse, readAt, hread]
  rfl

/-- A repeated key, a tuple of one item, a negative number and empty containers. -/
theorem parse_nested_repeated_key :
    parse "\x7b'k': (-7,), 'k': [(), (None, True), [], \x7b\x7d]\x7d".toList =
      .ok (.dict [(.text "k", .tuple [.int (-7)]),
        (.text "k", .list [.tuple [], .tuple [.none, .bool true], .list [], .dict []])]) :=
  parse_nested (.dict [(.text "k", .tuple [.int (-7)]),
    (.text "k", .list [.tuple [], .tuple [.none, .bool true], .list [], .dict []])])
    (by decide) (by decide)

end Storyboard.Literal
