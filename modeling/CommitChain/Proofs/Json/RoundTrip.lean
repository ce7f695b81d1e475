import CommitChain.Json.Canonical
import CommitChain.Proofs.Outcome
import CommitChain.Proofs.Text.Integer

/-!
# Reading what was written

The compact text of a tree is read as that tree, if the tree has no numbers with a fraction, no
integer that is too long, no name twice in an object, and is not nested too deeply.
-/

namespace CommitChain.Json

/-! ## Strings -/

theorem hexValue?_digitChar {n : Nat} (h : n < 16) : hexValue? n.digitChar = some n := by
  have hall : ∀ m < 16, hexValue? (Nat.digitChar m) = some m := by decide
  exact hall n h

/-- The four digits behind `\u` write the number they were made of. -/
theorem unit?_hexDigits {n : Nat} (h : n < 0x10000) :
    ∃ a b c d, (Text.hexDigits 4 n).toList = [a, b, c, d] ∧ unit? a b c d = some n := by
  refine ⟨(n / 4096 % 16).digitChar, (n / 256 % 16).digitChar, (n / 16 % 16).digitChar,
    (n % 16).digitChar, ?_, ?_⟩
  · rw [Text.hexDigits, String.toList_ofList]
    simp [List.range_succ]
  · have hd : ∀ m, hexValue? (m % 16).digitChar = some (m % 16) := fun m =>
      hexValue?_digitChar (Nat.mod_lt m (by decide))
    simp only [unit?, hd, bind, Option.bind_some]
    congr 1
    omega

theorem stringFrom_unitEscape (before : List Char) {c : Char} (h : c.toNat < 0x20)
    (rest : List Char) :
    stringFrom before none ((unitEscape c.toNat).toList ++ rest)
      = stringFrom (c :: before) none rest := by
  obtain ⟨u, v, w, x, htext, hunit⟩ := unit?_hexDigits (show c.toNat < 0x10000 by omega)
  rw [unitEscape, String.toList_append, htext]
  show stringFrom before none ('\\' :: 'u' :: u :: v :: w :: x :: rest) = _
  rw [stringFrom.eq_def]
  simp only [hunit]
  rw [if_neg (by omega), if_neg (by omega), Char.ofNat_toNat]

theorem stringFrom_plain (before : List Char) {c : Char} (hquote : c ≠ '"') (hslash : c ≠ '\\')
    (h : ¬c.toNat < 0x20) (rest : List Char) :
    stringFrom before none (c :: rest) = stringFrom (c :: before) none rest := by
  rw [stringFrom]
  · simp [hslash, h]
  all_goals simp_all

/-- One more character is read as it was written. -/
theorem stringFrom_charText (before : List Char) (c : Char) (rest : List Char) :
    stringFrom before none ((charText false c).toList ++ rest)
      = stringFrom (c :: before) none rest := by
  unfold charText
  split
  next h =>
    subst h
    rfl
  next hquote =>
    split
    next h =>
      subst h
      rfl
    next hslash =>
      iterate 5
        split
        next h =>
          subst h
          rfl
      split
      next hlow => exact stringFrom_unitEscape before hlow rest
      next hlow =>
        rw [Bool.false_and, if_neg Bool.false_ne_true, String.toList_singleton]
        exact stringFrom_plain before hquote hslash hlow rest

theorem stringFrom_chars (cs before rest : List Char) :
    stringFrom before none (cs.flatMap (fun c => (charText false c).toList) ++ '"' :: rest)
      = .ok (String.ofList (before.reverse ++ cs), rest) := by
  induction cs generalizing before with
  | nil =>
    show stringFrom before none ('"' :: rest) = _
    rw [stringFrom, List.append_nil]
    rfl
  | cons c cs ih =>
    rw [List.flatMap_cons, List.append_assoc, stringFrom_charText, ih, List.reverse_cons,
      List.append_assoc, List.singleton_append]

theorem toList_stringText (s : String) :
    (stringText false s).toList
      = '"' :: (s.toList.flatMap (fun c => (charText false c).toList) ++ ['"']) := by
  rw [stringText, String.toList_append, String.toList_append, String.toList_join,
    List.flatMap_map]
  rfl

/-- The text of a string between its quotes, and what stands behind it. -/
def quotedTail (s : String) (rest : List Char) : List Char :=
  s.toList.flatMap (fun c => (charText false c).toList) ++ '"' :: rest

theorem toList_stringText_append (s : String) (rest : List Char) :
    (stringText false s).toList ++ rest = '"' :: quotedTail s rest := by
  rw [toList_stringText, List.cons_append, List.append_assoc]
  rfl

/-- A text between quotes is read as that text. -/
theorem stringFrom_quotedTail (s : String) (rest : List Char) :
    stringFrom [] none (quotedTail s rest) = .ok (s, rest) := by
  rw [quotedTail, stringFrom_chars, List.reverse_nil, List.nil_append, String.ofList_toList]

/-! ## Numbers -/

/-- What may stand behind a number without being taken for a part of it. -/
def EndsNumber (rest : List Char) : Prop :=
  ∀ c ∈ rest.head?, isDigit c = false ∧ c ≠ '.' ∧ c ≠ 'e' ∧ c ≠ 'E'

theorem endsNumber_mark {c : Char} (h : c = ',' ∨ c = ']' ∨ c = '\x7d') (rest : List Char) :
    EndsNumber (c :: rest) := by
  intro d hd
  cases hd
  rcases h with rfl | rfl | rfl <;> decide

theorem isDigit_of_mem_toDigits {n : Nat} {c : Char} (h : c ∈ Nat.toDigits 10 n) :
    isDigit c = true :=
  Nat.isDigit_of_mem_toDigits (by decide) (by decide) h

theorem takeWhile_isDigit {ds rest : List Char} (hd : ∀ c ∈ ds, isDigit c = true)
    (hr : EndsNumber rest) :
    (ds ++ rest).takeWhile isDigit = ds ∧ (ds ++ rest).dropWhile isDigit = rest := by
  have hrest : rest.takeWhile isDigit = [] ∧ rest.dropWhile isDigit = rest := by
    cases rest with
    | nil => exact ⟨rfl, rfl⟩
    | cons c cs =>
      have hc : isDigit c = false := (hr c rfl).1
      simp [hc]
  rw [List.takeWhile_append_of_pos hd, List.dropWhile_append_of_pos hd, hrest.1, hrest.2,
    List.append_nil]
  exact ⟨rfl, rfl⟩

theorem wholeDigits_toDigits (n : Nat) {rest : List Char} (hr : EndsNumber rest) :
    wholeDigits (Nat.toDigits 10 n ++ rest) = (Nat.toDigits 10 n, rest) := by
  by_cases hn : n = 0
  · subst hn
    rfl
  · obtain ⟨htake, hdrop⟩ := takeWhile_isDigit (fun c => isDigit_of_mem_toDigits (n := n)) hr
    have hhead := Text.head?_toDigits_ne_zero hn
    cases hds : Nat.toDigits 10 n with
    | nil => exact absurd hds Nat.toDigits_ne_nil
    | cons c cs =>
      rw [hds] at htake hdrop hhead
      rw [wholeDigits, htake, hdrop]
      rintro cs' ⟨⟩
      exact hhead rfl

theorem unsigned_toDigits (nesting : Option Nat) (negative : Bool) {n : Nat}
    (hn : n < Text.integerBound) {rest : List Char} (hr : EndsNumber rest) :
    unsigned ⟨some Text.digitLimit, nesting⟩ negative (Nat.toDigits 10 n ++ rest)
      = .ok (int (if negative then -(n : Int) else n), rest) := by
  have hlen : ¬Text.digitLimit < (Nat.toDigits 10 n).length :=
    Nat.not_lt.2 (Text.length_toDigits_le_digitLimit.2 hn)
  have hne : (Nat.toDigits 10 n).isEmpty = false := by simp
  have hfraction : fraction? rest = none := by
    cases rest with
    | nil => rfl
    | cons c cs =>
      rw [fraction?]
      rintro cs' ⟨⟩
      exact (hr _ rfl).2.1 rfl
  have hexponent : exponent? rest = none := by
    cases rest with
    | nil => rfl
    | cons c cs =>
      obtain ⟨_, _, he, hE⟩ := hr c rfl
      rw [exponent?, if_neg (not_or.2 ⟨he, hE⟩)]
  simp only [unsigned, wholeDigits_toDigits n hr, hne, Bool.false_eq_true, if_false, hfraction,
    Option.elim_none, hexponent, Option.any_some, decide_eq_true_eq, hlen,
    Text.natOfDigits_toDigits]

/-- A text that starts with a digit is read as a number. -/
theorem scalar_digit (limits : Limits) {c : Char} (h : isDigit c = true) (cs : List Char) :
    scalar limits (c :: cs) = unsigned limits false (c :: cs) := by
  have hne : ∀ d, isDigit d = false → c ≠ d := fun d hd hc => by simp [hc, hd] at h
  rw [scalar]
  all_goals
    rintro cs' ⟨⟩
    exact hne _ (by decide) rfl

/-- An integer is written with a digit or a minus in front. -/
theorem integerDigits_head (n : Int) :
    ∃ c cs, (Text.integerDigits n).toList = c :: cs ∧ (isDigit c = true ∨ c = '-') := by
  rw [Text.integerDigits]
  split
  · rw [String.toList_append]
    exact ⟨'-', _, rfl, .inr rfl⟩
  · rw [Nat.toList_repr]
    cases hds : Nat.toDigits 10 n.natAbs with
    | nil => exact absurd hds Nat.toDigits_ne_nil
    | cons c cs =>
      exact ⟨c, cs, rfl, .inl (isDigit_of_mem_toDigits (n := n.natAbs) (by simp [hds]))⟩

theorem ne_of_startsInteger {c d : Char} (h : isDigit c = true ∨ c = '-')
    (hd : isDigit d = false ∧ d ≠ '-') : c ≠ d := by
  rintro rfl
  rcases h with h | h
  · exact absurd h (by simp [hd.1])
  · exact hd.2 h

theorem scalar_integerDigits (nesting : Option Nat) {n : Int} (hn : n.natAbs < Text.integerBound)
    {rest : List Char} (hr : EndsNumber rest) :
    scalar ⟨some Text.digitLimit, nesting⟩ ((Text.integerDigits n).toList ++ rest)
      = .ok (int n, rest) := by
  rw [Text.integerDigits]
  split
  next hneg =>
    rw [String.toList_append, Nat.toList_repr]
    show unsigned _ true (Nat.toDigits 10 n.natAbs ++ rest) = _
    rw [unsigned_toDigits nesting true hn hr]
    congr 3
    simp only [if_true]
    omega
  next hneg =>
    rw [Nat.toList_repr]
    have hread := unsigned_toDigits nesting false hn hr
    cases hds : Nat.toDigits 10 n.natAbs with
    | nil => exact absurd hds Nat.toDigits_ne_nil
    | cons c cs =>
      have hc : isDigit c = true := isDigit_of_mem_toDigits (n := n.natAbs) (by simp [hds])
      rw [hds] at hread
      rw [List.cons_append, scalar_digit _ hc]
      refine hread.trans ?_
      congr 3
      simp only [Bool.false_eq_true, if_false]
      omega

/-! ## Trees -/

mutual

/-- No numbers with a fraction, integers that can be written, and no name twice in an object. -/
def Readable : Json → Prop
  | float _ => False
  | int n => n.natAbs < Text.integerBound
  | arr items => ReadableItems items
  | obj members => (members.map Prod.fst).Nodup ∧ ReadableMembers members
  | null | bool _ | str _ => True

def ReadableItems : List Json → Prop
  | [] => True
  | x :: xs => Readable x ∧ ReadableItems xs

def ReadableMembers : List (String × Json) → Prop
  | [] => True
  | (_, x) :: xs => Readable x ∧ ReadableMembers xs

end

theorem skipLayout_cons {c : Char} (h : isLayout c = false) (cs : List Char) :
    skipLayout (c :: cs) = c :: cs :=
  List.dropWhile_cons_of_neg (by simp [h])

theorem toList_enclosed (lv : Nat) (opening closing : Char) (texts : List String) :
    (Layout.compact.enclosed lv (String.singleton opening) (String.singleton closing) texts).toList
      = opening :: ((joined "," texts).toList ++ [closing]) := by
  cases texts with
  | nil => simp [Layout.enclosed, joined]
  | cons s r => simp [Layout.enclosed, Layout.lineStart, Layout.compact]

theorem toList_renderAt_arr (lv : Nat) (items : List Json) :
    (renderAt .compact lv (arr items)).toList
      = '[' :: ((joined "," (renderItems .compact (lv + 1) items)).toList ++ [']']) := by
  rw [renderAt]
  exact toList_enclosed lv '[' ']' _

theorem toList_renderAt_obj (lv : Nat) (members : List (String × Json)) :
    (renderAt .compact lv (obj members)).toList
      = '\x7b' :: ((joined "," (renderMembers .compact (lv + 1) members)).toList ++ ['\x7d']) := by
  rw [renderAt]
  exact toList_enclosed lv '\x7b' '\x7d' _

/-- No tree is written with a blank or a closing mark in front. -/
theorem renderAt_head {x : Json} (h : x.Readable) (lv : Nat) :
    ∃ c cs, (renderAt .compact lv x).toList = c :: cs ∧ isLayout c = false ∧ c ≠ ']'
      ∧ c ≠ '\x7d' := by
  cases x with
  | null => exact ⟨'n', ['u', 'l', 'l'], by simp [renderAt], by decide⟩
  | bool b =>
    cases b
    · exact ⟨'f', ['a', 'l', 's', 'e'], by simp [renderAt], by decide⟩
    · exact ⟨'t', ['r', 'u', 'e'], by simp [renderAt], by decide⟩
  | float x => exact h.elim
  | int n =>
    obtain ⟨c, cs, htext, hc⟩ := integerDigits_head n
    have hne := fun d => ne_of_startsInteger (d := d) hc
    refine ⟨c, cs, by rw [renderAt, htext], ?_, hne _ (by decide), hne _ (by decide)⟩
    simp [isLayout, hne ' ' (by decide), hne '\t' (by decide), hne '\n' (by decide),
      hne '\r' (by decide)]
  | str s => exact ⟨'"', _, toList_stringText s, by decide⟩
  | arr items => exact ⟨'[', _, toList_renderAt_arr lv items, by decide⟩
  | obj members => exact ⟨'\x7b', _, toList_renderAt_obj lv members, by decide⟩

/-- An object whose names are different is made of its members as they are. -/
theorem ofPairs_of_nodup {α : Type} {pairs : List (String × α)}
    (h : (pairs.map Prod.fst).Nodup) : Keyed.ofPairs pairs = pairs := by
  have hput : ∀ {key : String} {value : α} {acc : List (String × α)}, key ∉ acc.map Prod.fst →
      Keyed.put key value acc = acc ++ [(key, value)] := by
    intro key value acc hn
    induction acc with
    | nil => rfl
    | cons p r ih =>
      rw [List.map_cons, List.mem_cons, not_or] at hn
      rw [Keyed.put, if_neg (Ne.symm hn.1), ih hn.2]
      rfl
  have hfold : ∀ acc : List (String × α), ((acc ++ pairs).map Prod.fst).Nodup →
      pairs.foldl (fun acc p => Keyed.put p.1 p.2 acc) acc = acc ++ pairs := by
    clear h
    induction pairs with
    | nil => exact fun acc _ => (List.append_nil acc).symm
    | cons p r ih =>
      intro acc hn
      have hp : p.1 ∉ acc.map Prod.fst := by
        rw [List.map_append, List.map_cons, List.nodup_append] at hn
        exact fun hm => hn.2.2 _ hm _ List.mem_cons_self rfl
      rw [List.foldl_cons, hput hp, ih]
      · rw [List.append_assoc, List.singleton_append]
      · rwa [List.append_assoc, List.singleton_append]
  exact hfold [] h

theorem toList_joined_cons (s t : String) (r : List String) :
    (joined "," (s :: t :: r)).toList = s.toList ++ ',' :: (joined "," (t :: r)).toList := by
  rw [joined, String.toList_append, String.toList_append, List.append_assoc]
  · rfl
  · simp

theorem joined_head {s : String} {c : Char} {cs : List Char} (h : s.toList = c :: cs)
    (r : List String) : ∃ ds, (joined "," (s :: r)).toList = c :: ds := by
  cases r with
  | nil => exact ⟨cs, h⟩
  | cons t r =>
    rw [toList_joined_cons, h]
    exact ⟨_, rfl⟩

/-- The text of a member. -/
def memberText (lv : Nat) (k : String) (x : Json) : String :=
  stringText false k ++ ":" ++ renderAt .compact lv x

theorem toList_memberText (lv : Nat) (k : String) (x : Json) :
    (memberText lv k x).toList = '"' :: quotedTail k (':' :: (renderAt .compact lv x).toList) := by
  rw [memberText, String.toList_append, String.toList_append, List.append_assoc,
    toList_stringText_append]
  rfl

theorem length_memberText (lv : Nat) (k : String) (x : Json) :
    (renderAt .compact lv x).toList.length < (memberText lv k x).toList.length := by
  rw [toList_memberText, quotedTail]
  simp only [List.length_cons, List.length_append]
  omega

theorem quotedTail_append (s : String) (cs rest : List Char) :
    quotedTail s cs ++ rest = quotedTail s (cs ++ rest) := by
  rw [quotedTail, List.append_assoc, List.cons_append]
  rfl

theorem renderMembers_cons (lv : Nat) (k : String) (x : Json) (ms : List (String × Json)) :
    renderMembers .compact lv ((k, x) :: ms)
      = memberText lv k x :: renderMembers .compact lv ms := by
  rw [renderMembers]
  rfl

section

variable {limits : Limits} {level fuel : Nat}

theorem value_scalar {c : Char} (h : c ≠ '"' ∧ c ≠ '[' ∧ c ≠ '\x7b') (cs : List Char) :
    value limits level (fuel + 1) (c :: cs) = scalar limits (c :: cs) := by
  rw [value]
  · rintro cs' ⟨⟩
    exact h.1 rfl
  · rintro cs' ⟨⟩
    exact h.2.1 rfl
  · rintro cs' ⟨⟩
    exact h.2.2 rfl

theorem admits_of_le {digits nesting : Option Nat} {n : Nat}
    (h : ∀ m ∈ nesting, level + 1 + n ≤ m) : Limits.admits ⟨digits, nesting⟩ level = true := by
  cases nesting with
  | none => rfl
  | some m =>
    have hm := h m rfl
    exact decide_eq_true (by omega)

theorem value_bracket {c : Char} (hc : isLayout c = false) (hne : c ≠ ']') (cs : List Char)
    (ha : limits.admits level = true) :
    value limits level (fuel + 1) ('[' :: c :: cs)
      = (items limits (level + 1) fuel (c :: cs)).map fun r => (arr r.1, r.2) := by
  rw [value, skipLayout_cons hc]
  simp only [ha, if_true]
  split
  next h =>
    cases h
    exact absurd rfl hne
  next =>
    cases items limits (level + 1) fuel (c :: cs) <;> rfl

theorem value_brace (cs : List Char) (ha : limits.admits level = true) :
    value limits level (fuel + 1) ('\x7b' :: '"' :: cs)
      = (members limits (level + 1) fuel ('"' :: cs)).map fun r => (object r.1, r.2) := by
  rw [value, skipLayout_cons (by decide)]
  simp only [ha, if_true]
  split
  next h => cases h
  next => cases members limits (level + 1) fuel ('"' :: cs) <;> rfl

theorem items_last {x : Json} {cs rest : List Char}
    (h : value limits level fuel cs = .ok (x, ']' :: rest)) :
    items limits level (fuel + 1) cs = .ok ([x], rest) := by
  rw [items, h]
  rfl

theorem items_more {x : Json} {xs : List Json} {cs cs' rest : List Char}
    (h : value limits level fuel cs = .ok (x, ',' :: cs')) (hl : skipLayout cs' = cs')
    (hxs : items limits level fuel cs' = .ok (xs, rest)) :
    items limits level (fuel + 1) cs = .ok (x :: xs, rest) := by
  rw [items, h]
  show (items limits level fuel (skipLayout cs') >>= _) = _
  rw [hl, hxs]
  rfl

theorem members_last {k : String} {x : Json} {cs rest : List Char} (hl : skipLayout cs = cs)
    (h : value limits level fuel cs = .ok (x, '\x7d' :: rest)) :
    members limits level (fuel + 1) ('"' :: quotedTail k (':' :: cs)) = .ok ([(k, x)], rest) := by
  rw [members, stringFrom_quotedTail]
  show (value limits level fuel (skipLayout cs) >>= _) = _
  rw [hl, h]
  rfl

theorem members_more {k : String} {x : Json} {ms : List (String × Json)} {cs cs' rest : List Char}
    (hl : skipLayout cs = cs) (h : value limits level fuel cs = .ok (x, ',' :: cs'))
    (hl' : skipLayout cs' = cs') (hms : members limits level fuel cs' = .ok (ms, rest)) :
    members limits level (fuel + 1) ('"' :: quotedTail k (':' :: cs))
      = .ok ((k, x) :: ms, rest) := by
  rw [members, stringFrom_quotedTail]
  show (value limits level fuel (skipLayout cs) >>= _) = _
  rw [hl, h]
  show (members limits level fuel (skipLayout cs') >>= _) = _
  rw [hl', hms]
  rfl

end

/-! ## Trees -/

mutual

/-- The number of filled arrays and objects around the innermost part. -/
def filled : Json → Nat
  | arr (x :: xs) => max (filled x) (filledItems xs) + 1
  | obj ((_, x) :: ms) => max (filled x) (filledMembers ms) + 1
  | _ => 0

def filledItems : List Json → Nat
  | [] => 0
  | x :: xs => max (filled x) (filledItems xs)

def filledMembers : List (String × Json) → Nat
  | [] => 0
  | (_, x) :: ms => max (filled x) (filledMembers ms)

end

mutual

theorem filled_le_depth : ∀ x : Json, x.filled ≤ x.depth
  | arr [] | obj [] | null | bool _ | int _ | float _ | str _ => by
    rw [filled]
    · exact Nat.zero_le _
    all_goals simp
  | arr (x :: xs) => by
    rw [filled, depth, depthItems]
    have hx := filled_le_depth x
    have hxs := filledItems_le_depth xs
    omega
  | obj ((k, x) :: ms) => by
    rw [filled, depth, depthMembers]
    have hx := filled_le_depth x
    have hms := filledMembers_le_depth ms
    omega

theorem filledItems_le_depth : ∀ xs : List Json, filledItems xs ≤ depthItems xs
  | [] => Nat.le_refl 0
  | x :: xs => by
    rw [filledItems, depthItems]
    have hx := filled_le_depth x
    have hxs := filledItems_le_depth xs
    omega

theorem filledMembers_le_depth : ∀ ms : List (String × Json), filledMembers ms ≤ depthMembers ms
  | [] => Nat.le_refl 0
  | (k, x) :: ms => by
    rw [filledMembers, depthMembers]
    have hx := filled_le_depth x
    have hms := filledMembers_le_depth ms
    omega

end

section

variable {nesting : Option Nat}

mutual

/-- The text of a tree is read as the tree. -/
theorem value_renderAt : ∀ {x : Json}, x.Readable → ∀ {level lv fuel : Nat} {rest : List Char},
    (∀ m ∈ nesting, level + x.filled ≤ m) → (renderAt .compact lv x).toList.length < fuel →
    EndsNumber rest →
    value ⟨some Text.digitLimit, nesting⟩ level fuel ((renderAt .compact lv x).toList ++ rest)
      = .ok (x, rest)
  | x, h, level, lv, 0, rest, _, hfuel, _ => absurd hfuel (Nat.not_lt_zero _)
  | null, h, level, lv, fuel + 1, rest, _, _, _ => by
    rw [renderAt]
    rfl
  | bool b, h, level, lv, fuel + 1, rest, _, _, _ => by
    rw [renderAt]
    cases b <;> rfl
  | float x, h, level, lv, fuel + 1, rest, _, _, _ => h.elim
  | int n, h, level, lv, fuel + 1, rest, _, _, hr => by
    have hread := scalar_integerDigits nesting h hr
    obtain ⟨c, cs, htext, hc⟩ := integerDigits_head n
    have hne := fun d => ne_of_startsInteger (d := d) hc
    rw [htext, List.cons_append] at hread
    rw [renderAt, htext, List.cons_append]
    exact (value_scalar ⟨hne _ (by decide), hne _ (by decide), hne _ (by decide)⟩ _).trans hread
  | str s, h, level, lv, fuel + 1, rest, _, _, _ => by
    rw [renderAt, show Layout.compact.asciiOnly = false from rfl, toList_stringText_append, value]
    simp only [stringFrom_quotedTail, bind, Except.bind]
  | arr [], h, level, lv, fuel + 1, rest, hdepth, hfuel, _ => by
    rw [toList_renderAt_arr, renderItems]
    rfl
  | arr (x :: xs), h, level, lv, fuel + 1, rest, hdepth, hfuel, _ => by
    have hlevel : ∀ m ∈ nesting, level + 1 + filledItems (x :: xs) ≤ m := by
      intro m hm
      have hm := hdepth m hm
      rw [filled] at hm
      rw [filledItems]
      omega
    rw [toList_renderAt_arr, List.length_cons, List.length_append, List.length_singleton] at hfuel
    have hitems := items_renderItems (List.cons_ne_nil x xs) h (lv + 1) fuel rest hlevel (by omega)
    obtain ⟨c, cs, htext, hc, hne, _⟩ := renderAt_head h.1 (lv + 1)
    obtain ⟨ds, hds⟩ := joined_head htext (renderItems .compact (lv + 1) xs)
    rw [toList_renderAt_arr, List.cons_append, List.append_assoc, List.singleton_append]
    rw [renderItems, hds, List.cons_append] at hitems ⊢
    rw [value_bracket hc hne _ (admits_of_le hlevel), hitems]
    rfl
  | obj [], h, level, lv, fuel + 1, rest, hdepth, hfuel, _ => by
    rw [toList_renderAt_obj, renderMembers]
    rfl
  | obj ((k, x) :: ms), h, level, lv, fuel + 1, rest, hdepth, hfuel, _ => by
    have hlevel : ∀ m ∈ nesting, level + 1 + filledMembers ((k, x) :: ms) ≤ m := by
      intro m hm
      have hm := hdepth m hm
      rw [filled] at hm
      rw [filledMembers]
      omega
    rw [toList_renderAt_obj, List.length_cons, List.length_append, List.length_singleton] at hfuel
    have hmembers := members_renderMembers (List.cons_ne_nil (k, x) ms) h.2 (lv + 1) fuel rest
      hlevel (by omega)
    obtain ⟨ds, hds⟩ := joined_head (toList_memberText (lv + 1) k x)
      (renderMembers .compact (lv + 1) ms)
    rw [toList_renderAt_obj, List.cons_append, List.append_assoc, List.singleton_append]
    rw [renderMembers_cons, hds, List.cons_append] at hmembers ⊢
    rw [value_brace _ (admits_of_le hlevel), hmembers]
    show Except.ok (obj (Keyed.ofPairs ((k, x) :: ms)), rest) = _
    rw [ofPairs_of_nodup h.1]

/-- The texts of items between commas are read as the items. -/
theorem items_renderItems : ∀ {xs : List Json}, xs ≠ [] → ReadableItems xs →
    ∀ {level : Nat} (lv fuel : Nat) (rest : List Char),
    (∀ m ∈ nesting, level + filledItems xs ≤ m) →
    (joined "," (renderItems .compact lv xs)).toList.length + 1 < fuel →
    items ⟨some Text.digitLimit, nesting⟩ level fuel
        ((joined "," (renderItems .compact lv xs)).toList ++ ']' :: rest) = .ok (xs, rest)
  | [], hne, _, _, _, _, _, _, _ => absurd rfl hne
  | x :: xs, _, h, level, lv, 0, rest, _, hfuel => absurd hfuel (Nat.not_lt_zero _)
  | [x], _, h, level, lv, fuel + 1, rest, hdepth, hfuel => by
    have hx : ∀ m ∈ nesting, level + x.filled ≤ m := fun m hm => by
      have hm := hdepth m hm
      rw [filledItems] at hm
      omega
    rw [renderItems, renderItems, joined] at hfuel ⊢
    exact items_last (value_renderAt h.1 hx (by omega) (endsNumber_mark (.inr (.inl rfl)) rest))
  | x :: y :: r, _, h, level, lv, fuel + 1, rest, hdepth, hfuel => by
    have hlevel : ∀ m ∈ nesting, level + max x.filled (filledItems (y :: r)) ≤ m := hdepth
    have hx : ∀ m ∈ nesting, level + x.filled ≤ m := fun m hm =>
      Nat.le_trans (Nat.add_le_add_left (Nat.le_max_left _ _) _) (hlevel m hm)
    have hxs : ∀ m ∈ nesting, level + filledItems (y :: r) ≤ m := fun m hm =>
      Nat.le_trans (Nat.add_le_add_left (Nat.le_max_right _ _) _) (hlevel m hm)
    rw [renderItems, renderItems, toList_joined_cons, ← renderItems, List.length_append,
      List.length_cons] at hfuel
    rw [renderItems, renderItems, toList_joined_cons, ← renderItems, List.append_assoc,
      List.cons_append]
    have hread := items_renderItems (List.cons_ne_nil y r) h.2 lv fuel rest hxs (by omega)
    refine items_more (value_renderAt h.1 hx (by omega) (endsNumber_mark (.inl rfl) _)) ?_ hread
    obtain ⟨c, cs, htext, hc, _⟩ := renderAt_head h.2.1 lv
    obtain ⟨ds, hds⟩ := joined_head htext (renderItems .compact lv r)
    rw [renderItems, hds, List.cons_append, skipLayout_cons hc]

/-- The texts of members between commas are read as the members. -/
theorem members_renderMembers : ∀ {ms : List (String × Json)}, ms ≠ [] → ReadableMembers ms →
    ∀ {level : Nat} (lv fuel : Nat) (rest : List Char),
    (∀ m ∈ nesting, level + filledMembers ms ≤ m) →
    (joined "," (renderMembers .compact lv ms)).toList.length + 1 < fuel →
    members ⟨some Text.digitLimit, nesting⟩ level fuel
        ((joined "," (renderMembers .compact lv ms)).toList ++ '\x7d' :: rest) = .ok (ms, rest)
  | [], hne, _, _, _, _, _, _, _ => absurd rfl hne
  | (k, x) :: ms, _, h, level, lv, fuel, rest, hdepth, hfuel => by
    have hlevel : ∀ m ∈ nesting, level + max x.filled (filledMembers ms) ≤ m := hdepth
    have hx : ∀ m ∈ nesting, level + x.filled ≤ m := fun m hm =>
      Nat.le_trans (Nat.add_le_add_left (Nat.le_max_left _ _) _) (hlevel m hm)
    have hms : ∀ m ∈ nesting, level + filledMembers ms ≤ m := fun m hm =>
      Nat.le_trans (Nat.add_le_add_left (Nat.le_max_right _ _) _) (hlevel m hm)
    obtain ⟨fuel, rfl⟩ : ∃ g, fuel = g + 1 := ⟨fuel - 1, by omega⟩
    obtain ⟨c, cs, htext, hc, _⟩ := renderAt_head h.1 lv
    have hskip : ∀ tail, skipLayout ((renderAt .compact lv x).toList ++ tail)
        = (renderAt .compact lv x).toList ++ tail := fun tail => by
      rw [htext, List.cons_append, skipLayout_cons hc]
    have hlength := length_memberText lv k x
    cases ms with
    | nil =>
      rw [renderMembers_cons, renderMembers, joined] at hfuel ⊢
      rw [toList_memberText, List.cons_append, quotedTail_append, List.cons_append]
      exact members_last (hskip _)
        (value_renderAt h.1 hx (by omega) (endsNumber_mark (.inr (.inr rfl)) rest))
    | cons p r =>
      obtain ⟨l, y⟩ := p
      rw [renderMembers_cons, renderMembers_cons, toList_joined_cons, ← renderMembers_cons,
        List.length_append, List.length_cons] at hfuel
      rw [renderMembers_cons, renderMembers_cons, toList_joined_cons, ← renderMembers_cons,
        List.append_assoc, List.cons_append, toList_memberText, List.cons_append,
        quotedTail_append, List.cons_append]
      have hread := members_renderMembers (List.cons_ne_nil (l, y) r) h.2 lv fuel rest hms
        (by omega)
      refine members_more (hskip _)
        (value_renderAt h.1 hx (by omega) (endsNumber_mark (.inl rfl) _)) ?_ hread
      obtain ⟨ds, hds⟩ := joined_head (toList_memberText lv l y) (renderMembers .compact lv r)
      rw [renderMembers_cons, hds, List.cons_append, skipLayout_cons (by decide)]

end

theorem endsNumber_layout {tail : List Char} (h : tail.all isLayout = true) : EndsNumber tail := by
  intro c hc
  have hlayout : isLayout c = true := List.all_eq_true.1 h c (List.mem_of_mem_head? hc)
  simp only [isLayout, Bool.or_eq_true, decide_eq_true_eq] at hlayout
  rcases hlayout with ((rfl | rfl) | rfl) | rfl <;> decide

theorem skipLayout_layout {tail : List Char} (h : tail.all isLayout = true) :
    skipLayout tail = [] := by
  rw [skipLayout, ← List.append_nil tail, List.dropWhile_append_of_pos (List.all_eq_true.1 h)]
  rfl

/-- The compact text of a tree is read as the tree, within a bound on nesting. -/
theorem parseChars_render {x : Json} (h : x.Readable) (hd : ∀ m ∈ nesting, x.filled ≤ m)
    {tail : List Char} (ht : tail.all isLayout = true) :
    parseChars ⟨some Text.digitLimit, nesting⟩ ((render .compact x).toList ++ tail) = .ok x := by
  obtain ⟨c, cs, htext, hc, _⟩ := renderAt_head h 0
  have hskip : skipLayout ((render .compact x).toList ++ tail)
      = (render .compact x).toList ++ tail := by
    rw [render, htext, List.cons_append, skipLayout_cons hc]
  have hread : value ⟨some Text.digitLimit, nesting⟩ 0
      (2 * ((render .compact x).toList ++ tail).length + 2) ((render .compact x).toList ++ tail)
        = .ok (x, tail) :=
    value_renderAt h (fun m hm => by simpa using hd m hm)
      (show (render .compact x).toList.length < _ by rw [List.length_append]; omega)
      (endsNumber_layout ht)
  rw [parseChars, hskip, hread]
  show (if (skipLayout tail).isEmpty then Except.ok x else .error Fault.malformed) = _
  rw [skipLayout_layout ht]
  rfl

end

/-- The compact text of a tree, which may have a newline behind it, is read as the tree. -/
theorem parse_render {x : Json} (h : x.Readable) (hd : x.depth ≤ textNestingLimit)
    {tail : String} (ht : tail.toList.all isLayout = true) :
    parse (render .compact x ++ tail) = .ok x := by
  rw [parse, String.toList_append]
  refine parseChars_render h (fun m hm => ?_) ht
  cases hm
  exact Nat.le_trans (filled_le_depth x) hd

end CommitChain.Json
