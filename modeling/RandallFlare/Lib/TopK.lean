import Mathlib.Data.List.Sort
import Mathlib.Tactic

/-!
# The highest elements of a list

The `k` highest elements of a list under a total order, the highest first: sort, reverse, take.

* `highest`;
* `mem_highest`: an element is among them if fewer than `k` others lie above it;
* `highest_perm`, `length_highest`: the order of the list does not matter, and `k` are taken if
  there are so many;
* `mem_highest_erase`, `highest_cons_subset`, `length_displaced_le`: what one element less or one
  more changes.
-/

namespace TopK

open List

variable {α : Type*} (r : α → α → Prop) [DecidableRel r]

/-- The `k` highest elements. -/
def highest (k : ℕ) (l : List α) : List α := ((l.insertionSort r).reverse).take k

variable {r} {k : ℕ} {l : List α}

theorem highest_subset : highest r k l ⊆ l := by
  intro x hx
  have hx' := mem_of_mem_take hx
  rwa [mem_reverse, mem_insertionSort] at hx'

theorem length_highest : (highest r k l).length = min k l.length := by
  simp [highest]

theorem nodup_highest (hl : l.Nodup) : (highest r k l).Nodup := by
  refine Nodup.sublist (take_sublist _ _) (nodup_reverse.2 ?_)
  exact (perm_insertionSort r l).nodup_iff.2 hl

variable [Std.Total r] [IsTrans α r] [Std.Antisymm r]

theorem highest_perm {l' : List α} (h : l'.Perm l) : highest r k l' = highest r k l := by
  unfold highest
  rw [Perm.eq_of_pairwise (fun a b _ _ => Std.Antisymm.antisymm a b)
    (pairwise_insertionSort r l') (pairwise_insertionSort r l)
    (((perm_insertionSort r l').trans h).trans (perm_insertionSort r l).symm)]

variable [DecidableEq α] {x a : α}

/-- How many elements of the list lie above `x`. -/
def above (r : α → α → Prop) [DecidableRel r] (x : α) (l : List α) : ℕ :=
  l.countP fun y => decide (r x y) && decide (y ≠ x)

omit [Std.Total r] [IsTrans α r] in
/-- In a falling list the elements above `x` are those before it. -/
theorem mem_take_iff {l : List α} (hl : l.Pairwise fun a b => r b a) (hnodup : l.Nodup) :
    x ∈ l.take k ↔ x ∈ l ∧ above r x l < k := by
  induction l generalizing k with
  | nil => simp
  | cons a l ih =>
    obtain ⟨ha, hl⟩ := pairwise_cons.1 hl
    obtain ⟨hmem, hnodup⟩ := nodup_cons.1 hnodup
    cases k with
    | zero => simp
    | succ k =>
      rw [take_succ_cons, mem_cons, ih hl hnodup, mem_cons]
      by_cases hx : x = a
      · subst hx
        -- nothing lies above the first element
        have hzero : above r x (x :: l) = 0 := by
          refine countP_eq_zero.2 fun y hy => ?_
          rcases mem_cons.1 hy with rfl | hy
          · simp
          · simp only [Bool.and_eq_true, decide_eq_true_eq, not_and, not_not]
            exact fun hxy => Std.Antisymm.antisymm y x (ha y hy) hxy
        simp [hzero]
      · have hcount : x ∈ l → above r x (a :: l) = above r x l + 1 := fun hxl =>
          countP_cons_of_pos (by simp [ha x hxl, Ne.symm hx])
        simp only [hx, false_or]
        refine and_congr_right fun hxl => ?_
        rw [hcount hxl]
        omega

/-- **An element is among the `k` highest if fewer than `k` lie above it.** -/
theorem mem_highest (hl : l.Nodup) : x ∈ highest r k l ↔ x ∈ l ∧ above r x l < k := by
  have hperm := perm_insertionSort r l
  unfold highest
  rw [mem_take_iff (pairwise_reverse.2 (pairwise_insertionSort r l))
    (nodup_reverse.2 (hperm.nodup_iff.2 hl)), mem_reverse, hperm.mem_iff]
  refine and_congr_right fun _ => ?_
  rw [above, (reverse_perm _).countP_eq, hperm.countP_eq, ← above]

omit [Std.Total r] [IsTrans α r] [Std.Antisymm r] in
theorem above_cons (x a : α) (l : List α) :
    above r x (a :: l) = above r x l + if r x a ∧ a ≠ x then 1 else 0 := by
  simp [above, countP_cons]

omit [Std.Total r] [IsTrans α r] [Std.Antisymm r] in
theorem above_erase (ha : a ∈ l) (x : α) :
    above r x l = above r x (l.erase a) + if r x a ∧ a ≠ x then 1 else 0 := by
  rw [← above_cons, above, (perm_cons_erase ha).countP_eq, ← above]

omit [Std.Total r] in
theorem above_lt_above (ha : a ∈ l) (hxa : r x a) (hne : a ≠ x) : above r a l < above r x l := by
  rw [above_erase ha a, above_erase ha x, if_neg (by simp), if_pos ⟨hxa, hne⟩, add_zero,
    Nat.lt_succ_iff]
  refine countP_mono_left fun y _ hy => ?_
  simp only [Bool.and_eq_true, decide_eq_true_eq] at hy ⊢
  refine ⟨IsTrans.trans x a y hxa hy.1, ?_⟩
  rintro rfl
  exact hne (Std.Antisymm.antisymm a y hy.1 hxa)

theorem mem_highest_erase (hl : l.Nodup) (ha : a ∉ highest r k l) :
    x ∈ highest r k (l.erase a) ↔ x ∈ highest r k l := by
  by_cases hal : a ∈ l
  · rw [mem_highest hl] at ha
    have hk : k ≤ above r a l := not_lt.1 fun h => ha ⟨hal, h⟩
    rw [mem_highest (hl.erase a), mem_highest hl, hl.mem_erase_iff]
    constructor
    · rintro ⟨⟨hxa, hx⟩, hlt⟩
      refine ⟨hx, ?_⟩
      rw [above_erase hal x]
      split_ifs with h
      · -- `a` above `x` would be among the highest
        have hsucc := above_erase (r := r) hal x
        rw [if_pos h] at hsucc
        have := above_lt_above hal h.1 h.2
        omega
      · omega
    · rintro ⟨hx, hlt⟩
      have hne : x ≠ a := by
        rintro rfl
        omega
      refine ⟨⟨hne, hx⟩, ?_⟩
      have := above_erase (r := r) hal x
      omega
  · rw [erase_of_not_mem hal]

/-- One element more displaces others only for itself. -/
theorem highest_cons_subset (hl : l.Nodup) (ha : a ∉ l) :
    highest r k (a :: l) ⊆ a :: highest r k l := by
  intro x hx
  rw [mem_highest (nodup_cons.2 ⟨ha, hl⟩), mem_cons, above_cons] at hx
  rcases hx with ⟨rfl | hx, hlt⟩
  · exact mem_cons_self
  · exact mem_cons_of_mem a ((mem_highest hl).2 ⟨hx, by omega⟩)

/-- One element more displaces at most one. -/
theorem length_displaced_le (hl : l.Nodup) (ha : a ∉ l) :
    ((highest r k l).filter (· ∉ highest r k (a :: l))).length ≤ 1 := by
  set old := highest r k l
  set new := highest r k (a :: l)
  have hnew : new.Nodup := nodup_highest (nodup_cons.2 ⟨ha, hl⟩)
  -- the new ones but for `a` are old ones that stay
  have hstay : new.erase a ⊆ old.filter (· ∈ new) := by
    intro x hx
    obtain ⟨hxa, hxnew⟩ := hnew.mem_erase_iff.1 hx
    have hxold := (mem_cons.1 (highest_cons_subset hl ha hxnew)).resolve_left hxa
    exact mem_filter.2 ⟨hxold, by simpa using hxnew⟩
  have hle := ((hnew.erase a).subperm hstay).length_le
  have hsplit : (old.filter (· ∈ new)).length + (old.filter (· ∉ new)).length = old.length := by
    simpa using (length_eq_length_filter_add (l := old) (· ∈ new)).symm
  have hlen : old.length = min k l.length := length_highest
  have hlen' : new.length = min k (l.length + 1) := length_highest
  have herase := length_erase (a := a) (l := new)
  split_ifs at herase <;> omega

end TopK
