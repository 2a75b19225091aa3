import Mathlib
/-!
# Text as lists of characters

Rust's `str` is a sequence of Unicode scalar values stored as UTF-8.  A parser that cuts a
message at separators and compares pieces of it reads the message as its list of characters.
This file gives the operations of `str` that such parsers use, on lists:

* `str::split` is `List.splitOn`: its pieces hold no separator, and `List.intercalate` puts them
  back together (`splitOn_eq_iff`);
* `str::strip_prefix` is `List.dropPrefix?` (`dropPrefix?_eq_some_iff'`);
* `str::rsplit_once` is `rsplitOnce`, which cuts at the last separator
  (`rsplitOnce_eq_some_iff`);
* `str::split` with a pattern of two characters, such as `"__"`, is `splitOnPair`; a text
  made of pieces without the pattern joined by it splits back into those pieces
  (`splitOnPair_append`);
* `str::as_bytes` is `utf8`, the UTF-8 encoding of the characters, and `&s[a..b]` with byte
  offsets is `sliceBytes`, which panics unless both offsets fall between characters; on ASCII
  text bytes and characters agree (`sliceBytes_of_isAscii`);
* a parser that answers `None` on a text it rejects and may panic is a program of
  `OptionT (Except Panic)`;
* `{:?}` of a text is `debugStr`.

A byte offset into a string becomes a position in the list where the parser cuts right after a
separator, and the two name the same place.  Nothing here refers to the repository.
-/

namespace NeonStorage

namespace Text

variable {α : Type*} [BEq α] [LawfulBEq α]

/-! ## Splitting at every separator -/

/-- No piece of `xs.splitOn x` contains `x`. -/
theorem not_mem_of_mem_splitOn {x : α} : ∀ {xs l : List α}, l ∈ xs.splitOn x → x ∉ l
  | [], l, h => by
    rw [List.splitOn_nil, List.mem_singleton] at h
    subst h
    exact List.not_mem_nil
  | y :: ys, l, h => by
    rw [List.splitOn_cons_eq_if_modifyHead] at h
    split at h
    · -- `y` is a separator: it starts a new piece and is in none
      rcases List.mem_cons.1 h with rfl | h
      · exact List.not_mem_nil
      · exact not_mem_of_mem_splitOn h
    · -- `y` goes in front of the first piece of the rest
      rename_i hy
      obtain ⟨p, ps, hps⟩ := List.exists_cons_of_ne_nil (List.splitOn_ne_nil x ys)
      rw [hps, List.modifyHead_cons] at h
      rcases List.mem_cons.1 h with rfl | h
      · intro hx
        rcases List.mem_cons.1 hx with hxy | hx
        · exact hy (by rw [hxy, beq_self_eq_true])
        · exact not_mem_of_mem_splitOn (hps ▸ List.mem_cons_self) hx
      · exact not_mem_of_mem_splitOn (hps ▸ List.mem_cons_of_mem p h)

/-- `str::split` cuts a text into the one list of separator-free pieces that joins back into it. -/
theorem splitOn_eq_iff {x : α} {xs : List α} {ls : List (List α)} :
    xs.splitOn x = ls ↔ ls ≠ [] ∧ (∀ l ∈ ls, x ∉ l) ∧ xs = [x].intercalate ls := by
  constructor
  · rintro rfl
    exact ⟨List.splitOn_ne_nil x xs, fun l hl => not_mem_of_mem_splitOn hl,
      (List.intercalate_splitOn x).symm⟩
  · rintro ⟨hne, hx, rfl⟩
    exact List.splitOn_intercalate x hx hne

/-! ## Prefixes -/

theorem dropPrefix?_eq_some_iff' {l p s : List α} : l.dropPrefix? p = some s ↔ l = p ++ s := by
  rw [List.dropPrefix?_eq_some_iff]
  constructor
  · rintro ⟨p', rfl, hp⟩
    rw [beq_iff_eq.1 hp]
  · rintro rfl
    exact ⟨p, rfl, beq_self_eq_true p⟩

@[simp] theorem dropPrefix?_cons_cons (a : α) (l p : List α) :
    (a :: l).dropPrefix? (a :: p) = l.dropPrefix? p := by
  simp [List.dropPrefix?]

/-! ## Splitting at the last separator -/

/-- `str::rsplit_once`: the text before and after the last `sep`, if there is one. -/
def rsplitOnce (sep : α) : List α → Option (List α × List α)
  | [] => none
  | a :: as =>
    match rsplitOnce sep as with
    | some (before, after) => some (a :: before, after)
    | none => if a == sep then some ([], as) else none

theorem rsplitOnce_eq_none_iff {sep : α} : ∀ {s : List α}, rsplitOnce sep s = none ↔ sep ∉ s
  | [] => by simp [rsplitOnce]
  | a :: as => by
    have ih := @rsplitOnce_eq_none_iff sep as
    unfold rsplitOnce
    cases h : rsplitOnce sep as with
    | some p =>
      have hmem : sep ∈ as := by
        by_contra hn
        rw [ih.2 hn] at h
        cases h
      simp [hmem]
    | none =>
      have hmem : sep ∉ as := ih.1 h
      by_cases has : a = sep
      · simp [has]
      · simp [beq_iff_eq, has, hmem, Ne.symm has]

theorem rsplitOnce_append_cons {sep : α} {after : List α} (h : sep ∉ after) :
    ∀ before : List α, rsplitOnce sep (before ++ sep :: after) = some (before, after)
  | [] => by
    rw [List.nil_append, rsplitOnce, rsplitOnce_eq_none_iff.2 h]
    simp
  | b :: before => by
    rw [List.cons_append, rsplitOnce, rsplitOnce_append_cons h before]

/-- `str::rsplit_once` cuts at the one separator that no other follows. -/
theorem rsplitOnce_eq_some_iff {sep : α} {s before after : List α} :
    rsplitOnce sep s = some (before, after) ↔ s = before ++ sep :: after ∧ sep ∉ after := by
  constructor
  · intro h
    -- the cut of the rest is kept, or the head is the last separator
    induction s generalizing before with
    | nil => cases h
    | cons a as ih =>
      unfold rsplitOnce at h
      cases hr : rsplitOnce sep as with
      | some p =>
        obtain ⟨b, a'⟩ := p
        rw [hr] at h
        cases h
        obtain ⟨rfl, hn⟩ := ih hr
        exact ⟨rfl, hn⟩
      | none =>
        rw [hr] at h
        by_cases ha : (a == sep) = true
        · rw [if_pos ha, Option.some.injEq, Prod.mk.injEq] at h
          obtain ⟨rfl, rfl⟩ := h
          exact ⟨by rw [beq_iff_eq.1 ha]; rfl, rsplitOnce_eq_none_iff.1 hr⟩
        · rw [if_neg ha] at h
          cases h
  · rintro ⟨rfl, h⟩
    exact rsplitOnce_append_cons h before

/-! ## Splitting at a pair of separators -/

/-- `str::split` with a pattern of two characters `x y`: the pieces between the occurrences of
`x y`, found from the left without overlap. -/
def splitOnPair (x y : α) : List α → List (List α)
  | [] => [[]]
  | [a] => [[a]]
  | a :: b :: rest =>
    if a == x && b == y then [] :: splitOnPair x y rest
    else (splitOnPair x y (b :: rest)).modifyHead (a :: ·)

/-- A text without `x` is one piece. -/
theorem splitOnPair_of_not_mem {x y : α} : ∀ {l : List α}, x ∉ l → splitOnPair x y l = [l]
  | [], _ => rfl
  | [_], _ => rfl
  | a :: b :: rest, h => by
    have ha : (a == x) = false := beq_false_of_ne fun hax => h (hax ▸ List.mem_cons_self)
    rw [splitOnPair, ha, Bool.false_and, if_neg Bool.false_ne_true,
      splitOnPair_of_not_mem fun hx => h (List.mem_cons_of_mem a hx)]
    rfl

/-- The first occurrence of `x y` in a text whose front holds no `x` ends the first piece. -/
theorem splitOnPair_append {x y : α} {b : List α} :
    ∀ {a : List α}, x ∉ a → splitOnPair x y (a ++ x :: y :: b) = a :: splitOnPair x y b
  | [], _ => by simp [splitOnPair]
  | c :: a, h => by
    have hc : (c == x) = false := beq_false_of_ne fun hcx => h (hcx ▸ List.mem_cons_self)
    obtain ⟨d, rest, hdr⟩ : ∃ d rest, a ++ x :: y :: b = d :: rest :=
      List.exists_cons_of_ne_nil (by simp)
    rw [List.cons_append, hdr, splitOnPair, hc, Bool.false_and, if_neg Bool.false_ne_true, ← hdr,
      splitOnPair_append fun hx => h (List.mem_cons_of_mem c hx)]
    rfl

/-! ## Panics -/

/-- A panic, with its message. -/
structure Panic where
  msg : String
deriving DecidableEq, Repr

/-! ## Debug output -/

/-- `char::escape_debug` as `{:?}` of a text applies it: the backslash, the double quote and the
usual control characters are escaped.  Rust also writes the other characters that are not
printable as `\u{…}`; those are kept as they are here. -/
def escapeDebug (c : Char) : List Char :=
  if c = '\\' then ['\\', '\\']
  else if c = '"' then ['\\', '"']
  else if c = '\n' then ['\\', 'n']
  else if c = '\r' then ['\\', 'r']
  else if c = '\t' then ['\\', 't']
  else if c = '\x00' then ['\\', '0']
  else [c]

/-- `{:?}` of a text: the text between double quotes, each character escaped. -/
def debugStr (s : List Char) : List Char := '"' :: s.flatMap escapeDebug ++ ['"']

/-! ## Bytes -/

/-- `str::as_bytes`: the UTF-8 encoding of the characters. -/
def utf8 (s : List Char) : List UInt8 := s.flatMap String.utf8EncodeChar

@[simp] theorem utf8_append (s t : List Char) : utf8 (s ++ t) = utf8 s ++ utf8 t :=
  List.flatMap_append

/-- The index of the character that starts at byte `i` of the text, when `i` falls between
characters (`str::is_char_boundary`); the end of the text counts. -/
def charIndexOfByte : List Char → ℕ → Option ℕ
  | _, 0 => some 0
  | [], _ + 1 => none
  | c :: cs, i + 1 =>
    if c.utf8Size ≤ i + 1 then (charIndexOfByte cs (i + 1 - c.utf8Size)).map (· + 1) else none

/-- `&s[a..b]` with byte offsets, which panics unless both fall between characters, in order. -/
def sliceBytes (s : List Char) (a b : ℕ) : Except Panic (List Char) :=
  match charIndexOfByte s a, charIndexOfByte s b with
  | some i, some j =>
    if i ≤ j then .ok ((s.take j).drop i) else .error ⟨"slice index starts after its end"⟩
  | _, _ => .error ⟨"byte index is not a char boundary"⟩

/-- Every character is ASCII, one byte long. -/
def IsAscii (s : List Char) : Prop := ∀ c ∈ s, c.val ≤ 127

theorem IsAscii.append {s t : List Char} : IsAscii (s ++ t) ↔ IsAscii s ∧ IsAscii t := by
  simp [IsAscii, or_imp, forall_and]

theorem IsAscii.cons {c : Char} {s : List Char} : IsAscii (c :: s) ↔ c.val ≤ 127 ∧ IsAscii s := by
  simp [IsAscii]

theorem length_utf8_of_isAscii : ∀ {s : List Char}, IsAscii s → (utf8 s).length = s.length
  | [], _ => rfl
  | c :: s, hs => by
    rw [IsAscii.cons] at hs
    rw [show c :: s = [c] ++ s from rfl, utf8_append, List.length_append,
      length_utf8_of_isAscii hs.2]
    simp [utf8, String.length_utf8EncodeChar, Char.utf8Size_eq_one_iff.2 hs.1, Nat.add_comm]

/-- In ASCII text every byte offset up to the length falls between characters. -/
theorem charIndexOfByte_of_isAscii : ∀ {s : List Char} {i : ℕ}, IsAscii s → i ≤ s.length →
    charIndexOfByte s i = some i
  | _, 0, _, _ => by cases ‹List Char› <;> rfl
  | [], _ + 1, _, hi => absurd hi (by simp)
  | c :: s, i + 1, hs, hi => by
    rw [IsAscii.cons] at hs
    have hc : c.utf8Size = 1 := Char.utf8Size_eq_one_iff.2 hs.1
    rw [charIndexOfByte, hc, if_pos (by omega), Nat.add_sub_cancel,
      charIndexOfByte_of_isAscii hs.2 (by simpa using hi)]
    rfl

theorem sliceBytes_of_isAscii {s : List Char} (hs : IsAscii s) {a b : ℕ} (hab : a ≤ b)
    (hb : b ≤ s.length) : sliceBytes s a b = .ok ((s.take b).drop a) := by
  rw [sliceBytes, charIndexOfByte_of_isAscii hs (le_trans hab hb), charIndexOfByte_of_isAscii hs hb]
  exact if_pos hab

end Text

end NeonStorage
