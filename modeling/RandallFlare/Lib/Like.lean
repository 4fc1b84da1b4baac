import Mathlib.Data.List.Basic
import Mathlib.Tactic

/-!
# The LIKE operator

Pattern matching as SQL databases do it: `%` stands for any characters, `_` for one, and a
character behind the escape character for itself.  Letters of the ASCII alphabet match whatever
their case.

* `tokens`, `isLike`: the meaning of a pattern;
* `escape`: a text as a pattern that has no special characters;
* `isLike_escape`: a text followed by `%`.
-/

namespace Like

open List

/-- A part of a pattern. -/
inductive Token
  | anything
  | one
  | char (c : Char)
  deriving DecidableEq

/-- The parts of a pattern, where `escaped` says that the escape character has just been read; none
if it ends behind that. -/
def tokens (esc : Char) : Bool → List Char → Option (List Token)
  | true, [] => none
  | false, [] => some []
  | true, c :: rest => (tokens esc false rest).map (.char c :: ·)
  | false, c :: rest =>
      if c = esc then tokens esc true rest
      else if c = '%' then (tokens esc false rest).map (.anything :: ·)
      else if c = '_' then (tokens esc false rest).map (.one :: ·)
      else (tokens esc false rest).map (.char c :: ·)

/-- Letters are compared in lower case. -/
def fold (c : Char) : Char := c.toLower

/-- The parts match the text. -/
def matchTokens : List Token → List Char → Bool
  | [], text => text.isEmpty
  | .anything :: ts, text => text.tails.any (matchTokens ts)
  | .one :: ts, text => match text with
      | [] => false
      | _ :: text => matchTokens ts text
  | .char c :: ts, text => match text with
      | [] => false
      | d :: text => decide (fold c = fold d) && matchTokens ts text

/-- `text LIKE pattern ESCAPE esc`. -/
def isLike (esc : Char) (pattern text : List Char) : Bool :=
  (tokens esc false pattern).any fun ts => matchTokens ts text

/-- Put the escape character before every special one. -/
def escape (esc : Char) (text : List Char) : List Char :=
  text.flatMap fun c => if c = esc ∨ c = '%' ∨ c = '_' then [esc, c] else [c]

/-! ### Escaped texts -/

theorem tokens_escape_append (esc : Char) (text rest : List Char) :
    tokens esc false (escape esc text ++ rest) =
      (tokens esc false rest).map (text.map .char ++ ·) := by
  induction text with
  | nil => simp [escape]
  | cons c text ih =>
    have hcons : escape esc (c :: text) ++ rest =
        (if c = esc ∨ c = '%' ∨ c = '_' then [esc, c] else [c]) ++ (escape esc text ++ rest) := by
      simp [escape]
    rw [hcons]
    by_cases hspecial : c = esc ∨ c = '%' ∨ c = '_'
    · rw [if_pos hspecial]
      simp only [cons_append, nil_append, tokens, ↓reduceIte, ih, Option.map_map]
      rfl
    · obtain ⟨hesc, hany, hone⟩ : c ≠ esc ∧ c ≠ '%' ∧ c ≠ '_' := by
        simpa only [not_or] using hspecial
      rw [if_neg hspecial]
      simp only [cons_append, nil_append, tokens, if_neg hesc, if_neg hany, if_neg hone,
        ih, Option.map_map]
      rfl

theorem matchTokens_chars (cs : List Char) (ts : List Token) (text : List Char) :
    matchTokens (cs.map .char ++ ts) text ↔
      ∃ start rest, text = start ++ rest ∧ start.map fold = cs.map fold ∧
        matchTokens ts rest := by
  induction cs generalizing text with
  | nil =>
    constructor
    · intro h
      exact ⟨[], text, rfl, rfl, h⟩
    · rintro ⟨start, rest, rfl, hstart, h⟩
      rw [map_nil, map_eq_nil_iff] at hstart
      rwa [hstart]
  | cons c cs ih =>
    cases text with
    | nil =>
      refine ⟨fun h => by simp [matchTokens] at h, ?_⟩
      rintro ⟨start, rest, htext, hstart, -⟩
      rw [(append_eq_nil_iff.1 htext.symm).1] at hstart
      simp at hstart
    | cons d text =>
      simp only [map_cons, cons_append, matchTokens, Bool.and_eq_true, decide_eq_true_eq, ih]
      constructor
      · rintro ⟨hfold, start, rest, rfl, hstart, h⟩
        exact ⟨d :: start, rest, rfl, by rw [map_cons, hfold, hstart], h⟩
      · rintro ⟨start, rest, htext, hstart, h⟩
        cases start with
        | nil => simp at hstart
        | cons e start =>
          obtain ⟨rfl, rfl⟩ := cons.inj htext
          obtain ⟨hfold, hstart⟩ := cons.inj hstart
          exact ⟨hfold.symm, start, rest, rfl, hstart, h⟩

/-- **A text that is escaped and followed by `%` matches what starts with it, up to case.** -/
theorem isLike_escape {esc : Char} (hesc : esc ≠ '%') (start text : List Char) :
    isLike esc (escape esc start ++ ['%']) text ↔ start.map fold <+: text.map fold := by
  have htail : tokens esc false ['%'] = some [.anything] := by
    simp [tokens, hesc.symm]
  have hany : ∀ rest, matchTokens [.anything] rest := fun rest => by
    simp only [matchTokens, any_eq_true, mem_tails]
    exact ⟨[], nil_suffix, rfl⟩
  unfold isLike
  rw [tokens_escape_append, htail, Option.map_some, Option.any_some, matchTokens_chars]
  constructor
  · rintro ⟨s, rest, rfl, hs, -⟩
    rw [map_append, hs]
    exact prefix_append _ _
  · rintro ⟨t, ht⟩
    refine ⟨text.take start.length, text.drop start.length, (take_append_drop _ _).symm, ?_, hany _⟩
    rw [map_take, ← ht, take_left' (length_map _)]

end Like
