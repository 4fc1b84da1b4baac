import Mathlib.Data.List.Basic
import Mathlib.Tactic

/-!
# Paging through a sorted list

A page is the first items behind a cursor; one item more is looked up to know whether there is a
next page, and the cursor of the next page is the last item of this one.

* `after`: what is behind a cursor; `items`, `next`: a page;
* `follow`: all pages, one after the other;
* `follow_eq`: they are the list.
-/

namespace Paging

open List

variable {K ε : Type} [LinearOrder K]

/-- What is behind the cursor. -/
def after (l : List K) : Option K → List K
  | none => l
  | some k => l.filter (k < ·)

/-- The items of the page, of `limit + 1` that are looked up. -/
def items (limit : ℕ) (l : List K) : List K := (l.take (limit + 1)).take limit

/-- The cursor of the next page, if there is one. -/
def next (limit : ℕ) (l : List K) : Option K :=
  if limit < (l.take (limit + 1)).length then (items limit l).getLast? else none

/-- All pages from a cursor on; none if `n` pages are not enough. -/
def follow (fetch : Option K → Except ε (List K × Option K)) :
    ℕ → Option K → Option (Except ε (List K))
  | 0, _ => none
  | n + 1, cursor => match fetch cursor with
      | .error e => some (.error e)
      | .ok (page, none) => some (.ok page)
      | .ok (page, some k) => (follow fetch n (some k)).map fun rest => rest.map (page ++ ·)

variable {l : List K} {limit : ℕ}

theorem next_eq_none (h : next limit l = none) (hlimit : 0 < limit) : items limit l = l := by
  unfold next at h
  split_ifs at h with hlen
  · rw [getLast?_eq_none_iff, items, take_take, take_eq_nil_iff] at h
    rcases h with h | h
    · omega
    · simp [h] at hlen
  · rw [length_take] at hlen
    rw [items, take_take, take_of_length_le (by omega)]

/-- Behind the last item of a page is what the page has left. -/
theorem next_eq_some (hl : l.Pairwise (· < ·)) {k : K} (h : next limit l = some k) :
    k ∈ l ∧ items limit l ++ l.filter (k < ·) = l ∧ (l.filter (k < ·)).length < l.length := by
  unfold next at h
  split_ifs at h with hlen
  rw [items, take_take, Nat.min_eq_left (Nat.le_succ limit)] at h
  obtain ⟨start, hstart⟩ := getLast?_eq_some_iff.1 h
  have hsplit : l = (start ++ [k]) ++ l.drop limit := by
    rw [← hstart, take_append_drop]
  have hsorted := hl
  rw [hsplit, pairwise_append, pairwise_append] at hsorted
  obtain ⟨⟨-, -, hbefore⟩, -, hbehind⟩ := hsorted
  have hfilter : l.filter (k < ·) = l.drop limit := by
    have hno : (start ++ [k]).filter (fun a => decide (k < a)) = [] := by
      refine filter_eq_nil_iff.2 fun a ha => ?_
      rcases mem_append.1 ha with ha | ha
      · simpa using (hbefore a ha k (mem_singleton_self k)).le
      · simp [mem_singleton.1 ha]
    have hall : (l.drop limit).filter (fun a => decide (k < a)) = l.drop limit :=
      filter_eq_self.2 fun a ha =>
        decide_eq_true (hbehind k (mem_append_right _ (mem_singleton_self k)) a ha)
    conv_lhs => rw [hsplit]
    rw [filter_append, hno, hall, nil_append]
  refine ⟨?_, ?_, ?_⟩
  · rw [hsplit]
    simp
  · rw [hfilter, items, take_take, Nat.min_eq_left (Nat.le_succ limit), take_append_drop]
  · rw [hfilter, length_drop]
    have hpos : 0 < (l.take limit).length := by simp [hstart]
    rw [length_take] at hpos
    omega

/-- **Following the cursors gives the list**, if every page is the one behind its cursor. -/
theorem follow_eq {fetch : Option K → Except ε (List K × Option K)} (hl : l.Pairwise (· < ·))
    (hlimit : 0 < limit) (hfetch : ∀ cursor, (∀ k ∈ cursor, k ∈ l) →
      fetch cursor = .ok (items limit (after l cursor), next limit (after l cursor)))
    {n : ℕ} {cursor : Option K} (hcursor : ∀ k ∈ cursor, k ∈ l)
    (hn : (after l cursor).length < n) : follow fetch n cursor = some (.ok (after l cursor)) := by
  induction n generalizing cursor with
  | zero => omega
  | succ n ih =>
    have hsorted : (after l cursor).Pairwise (· < ·) := by
      cases cursor with
      | none => exact hl
      | some k => exact hl.filter _
    unfold follow
    rw [hfetch cursor hcursor]
    cases hnext : next limit (after l cursor) with
    | none =>
      rw [next_eq_none hnext hlimit]
    | some k =>
      obtain ⟨hk, hsplit, hlen⟩ := next_eq_some hsorted hnext
      -- what is behind `k` in the list is what is behind it in the part that is left
      have hafter : after l (some k) = (after l cursor).filter (k < ·) := by
        cases cursor with
        | none => rfl
        | some c =>
          have hck : c < k := of_decide_eq_true (mem_filter.1 hk).2
          show l.filter _ = (l.filter _).filter _
          rw [filter_filter]
          refine filter_congr fun a _ => ?_
          by_cases hka : k < a
          · simp [hka, hck.trans hka]
          · simp [hka]
      have hmem : ∀ j ∈ some k, j ∈ l := by
        rintro j ⟨⟩
        cases cursor with
        | none => exact hk
        | some c => exact (mem_filter.1 hk).1
      dsimp only
      rw [ih hmem (by rw [hafter]; omega), hafter, Option.map_some]
      exact congrArg (fun r => some (Except.ok r)) hsplit

end Paging
