import Mathlib.Tactic

/-!
# Operations of Rust's `str`

The operations on texts that the standard library of Rust gives, on lists of characters.  White
space is Unicode's.
-/

namespace Text

open List

instance lawfulChars : LawfulBEq (List Char) := inferInstance

/-- Rust's `char::is_whitespace`. -/
def isWhitespace (c : Char) : Bool :=
  let n := c.toNat
  (9 ≤ n && n ≤ 13) || n == 0x20 || n == 0x85 || n == 0xA0 || n == 0x1680 ||
    (0x2000 ≤ n && n ≤ 0x200A) || n == 0x2028 || n == 0x2029 || n == 0x202F || n == 0x205F ||
    n == 0x3000

/-- `split_whitespace`: the words of a text. -/
def splitWhitespace (l : List Char) : List (List Char) :=
  (l.splitOnP isWhitespace).filter (· ≠ [])

/-- `trim_end_matches`, for a character. -/
def trimEnd (p : Char → Bool) (l : List Char) : List Char := (l.reverse.dropWhile p).reverse

def trim (l : List Char) : List Char := trimEnd isWhitespace (l.dropWhile isWhitespace)

/-- `strip_prefix`. -/
def stripStart : List Char → List Char → Option (List Char)
  | [], l => some l
  | c :: s, d :: l => if c = d then stripStart s l else none
  | _ :: _, [] => none

/-- `trim_end_matches`, for a text; at most `n` times. -/
def trimEndText (s : List Char) : ℕ → List Char → List Char
  | 0, l => l
  | n + 1, l => match stripStart s.reverse l.reverse with
      | some rest => trimEndText s n rest.reverse
      | none => l

/-- `split_once`: the text before the first occurrence of a character and the text after it. -/
def splitOnce (c : Char) (l : List Char) : Option (List Char × List Char) :=
  if c ∈ l then some (l.takeWhile (· ≠ c), (l.dropWhile (· ≠ c)).tail) else none

variable {c : Char} {a b l : List Char} {p : Char → Bool} {n : ℕ}

theorem splitOnce_append (h : c ∉ a) : splitOnce c (a ++ c :: b) = some (a, b) := by
  unfold splitOnce
  rw [if_pos (by simp), takeWhile_append_of_pos, dropWhile_append_of_pos]
  · simp
  · intro d hd
    simpa using fun hdc : d = c => h (hdc ▸ hd)
  · intro d hd
    simpa using fun hdc : d = c => h (hdc ▸ hd)

theorem splitOnce_eq_none : splitOnce c l = none ↔ c ∉ l := by
  unfold splitOnce
  split_ifs with h
  · simp [h]
  · simp [h]

/-- A text that is split is the two parts with the character between them. -/
theorem eq_of_splitOnce (h : splitOnce c l = some (a, b)) : l = a ++ c :: b := by
  have hc : c ∈ l := by
    by_contra hc
    rw [splitOnce_eq_none.2 hc] at h
    cases h
  obtain ⟨s, t, rfl, hs⟩ := eq_append_cons_of_mem hc
  rw [splitOnce_append hs] at h
  cases h
  rfl

/-- One text occurs in another. -/
def contains (s : List Char) : List Char → Bool
  | [] => s = []
  | c :: l => (stripStart s (c :: l)).isSome || contains s l

theorem isSome_stripStart {s l : List Char} : (stripStart s l).isSome ↔ s <+: l := by
  induction s generalizing l with
  | nil => simp [stripStart]
  | cons c s ih =>
    cases l with
    | nil => simp [stripStart]
    | cons d l =>
      rw [cons_prefix_cons, stripStart]
      split_ifs with h <;> simp [h, ih]

theorem contains_iff {s l : List Char} : contains s l ↔ s <:+: l := by
  induction l with
  | nil => simp [contains]
  | cons c l ih => simp [contains, infix_cons_iff, ih, isSome_stripStart]

/-- The runs of characters that satisfy a test, after those already read of the first. -/
def wordsFrom (p : Char → Bool) (word : List Char) : List Char → List (List Char)
  | [] => if word = [] then [] else [word]
  | c :: l =>
      if p c then wordsFrom p (word ++ [c]) l
      else if word = [] then wordsFrom p [] l
      else word :: wordsFrom p [] l

/-- `split` at the characters that fail a test, without the empty parts. -/
def words (p : Char → Bool) (l : List Char) : List (List Char) := wordsFrom p [] l

theorem wordsFrom_append (hc : p c = false) (a b word : List Char) :
    wordsFrom p word (a ++ c :: b) = wordsFrom p word a ++ words p b := by
  induction a generalizing word with
  | nil =>
    by_cases hword : word = []
    · simp [wordsFrom, words, hc, hword]
    · simp [wordsFrom, words, hc, hword]
  | cons d a ih =>
    simp only [cons_append, wordsFrom]
    split_ifs <;> simp [ih]

/-- The words of a text are those before a separator and those after it. -/
theorem words_append (hc : p c = false) (a b : List Char) :
    words p (a ++ c :: b) = words p a ++ words p b := wordsFrom_append hc a b []

theorem wordsFrom_of_all (hl : ∀ c ∈ l, p c) (word : List Char) :
    wordsFrom p word l = if word ++ l = [] then [] else [word ++ l] := by
  induction l generalizing word with
  | nil => simp [wordsFrom]
  | cons c l ih =>
    rw [wordsFrom, if_pos (hl c mem_cons_self), ih (fun d hd => hl d (mem_cons_of_mem c hd))]
    simp

theorem words_of_none (hl : ∀ c ∈ l, p c = false) : words p l = [] := by
  induction l with
  | nil => rfl
  | cons c l ih =>
    have := words_append (hl c mem_cons_self) [] l
    rw [nil_append] at this
    rw [this, ih fun d hd => hl d (mem_cons_of_mem c hd)]
    rfl

theorem words_append_left (ha : ∀ c ∈ a, p c = false)
    (b : List Char) : words p (a ++ b) = words p b := by
  induction a with
  | nil => rfl
  | cons c a ih =>
    have := words_append (ha c mem_cons_self) [] (a ++ b)
    rw [nil_append] at this
    rw [cons_append, this, ih fun d hd => ha d (mem_cons_of_mem c hd)]
    rfl

theorem words_append_right (hb : ∀ c ∈ b, p c = false)
    (a : List Char) : words p (a ++ b) = words p a := by
  cases b with
  | nil => rw [append_nil]
  | cons c b =>
    rw [words_append (hb c mem_cons_self),
      words_of_none fun d hd => hb d (mem_cons_of_mem c hd), append_nil]

/-- A word that is followed by the end of the text or by a separator. -/
theorem words_word {w : List Char} (hw : ∀ c ∈ w, p c) (hne : w ≠ [])
    (hb : ∀ c ∈ b.head?, p c = false) : words p (w ++ b) = w :: words p b := by
  have hone : words p w = [w] := by
    rw [words, wordsFrom_of_all hw, nil_append, if_neg hne]
  cases b with
  | nil => rw [append_nil, hone]; rfl
  | cons c b =>
    rw [words_append (hb c rfl), hone, singleton_append, ← words_append_left (a := [c])]
    · rfl
    · simpa using hb c rfl

/-! ### Numbers -/

/-- The text of a number without its sign. -/
def unsigned : List Char → List Char
  | '+' :: t => t
  | t => t

/-- The number that an optional plus sign and digits spell, of any size. -/
def parseDecimal (l : List Char) : Option ℕ :=
  if unsigned l ≠ [] ∧ (unsigned l).all Char.isDigit then
    some (Nat.ofDigitChars 10 (unsigned l) 0)
  else none

/-- `parse` of an unsigned number of so many bits: an optional plus sign and digits. -/
def parseUnsigned (bits : ℕ) (l : List Char) : Option ℕ :=
  (parseDecimal l).filter fun n => n < 2 ^ bits

theorem parseUnsigned_eq_some_iff {bits : ℕ} :
    parseUnsigned bits l = some n ↔ parseDecimal l = some n ∧ n < 2 ^ bits := by
  rw [parseUnsigned, Option.filter_eq_some_iff, decide_eq_true_eq]

theorem isDigit_of_parseDecimal (h : parseDecimal l = some n)
    (hc : c ∈ l) : c = '+' ∨ c.isDigit := by
  unfold parseDecimal at h
  split_ifs at h with hl
  have hdigits := all_eq_true.1 hl.2
  unfold unsigned at hdigits
  split at hdigits
  · exact (mem_cons.1 hc).imp_right (hdigits c)
  · exact .inr (hdigits c hc)

end Text
