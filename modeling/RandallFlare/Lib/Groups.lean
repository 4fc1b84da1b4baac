import RandallFlare.Lib.Latest
import RandallFlare.Lib.SortedMap

/-!
# Items by key

Two ways to file the items of a list under a key of theirs: all of them in order, or the one of the
highest rank.

* `groupBy` files all items; `getD_groupBy`: a key has the items of that key;
* `latestBy` files the latest item; `isTop_latestBy`: a key has a top of the items of that key.
-/

namespace SortedMap

open List

variable {K α : Type*} [LinearOrder K] (key : α → K)

/-- File an item under its key, after those already there. -/
def push (m : SortedMap K (List α)) (x : α) : SortedMap K (List α) :=
  m.insert (key x) ((m.get (key x)).getD [] ++ [x])

/-- File all items of a list. -/
def groupBy (l : List α) : SortedMap K (List α) := l.foldl (push key) empty

theorem getD_foldl_push (l : List α) (m : SortedMap K (List α)) (k : K) :
    ((l.foldl (push key) m).get k).getD [] = (m.get k).getD [] ++ l.filter (key · = k) := by
  induction l generalizing m with
  | nil => simp
  | cons x l ih =>
    rw [foldl_cons, ih, push, get_insert]
    by_cases hk : key x = k
    · subst hk
      simp
    · rw [if_neg (Ne.symm hk), filter_cons_of_neg (by simpa using hk)]

theorem getD_groupBy (l : List α) (k : K) : ((groupBy key l).get k).getD [] = l.filter
    (key · = k) :=
  getD_foldl_push key l empty k

theorem eq_filter_of_get_groupBy {l g : List α} {k : K} (h : (groupBy key l).get k = some g) :
    g = l.filter (key · = k) := by
  rw [← getD_groupBy, h]
  rfl

variable {β : Type*} [LinearOrder β] (rank : α → β)

/-- File an item under its key, if it ranks above the one there. -/
def fileLatest (m : SortedMap K α) (x : α) : SortedMap K α :=
  match m.get (key x) with
  | none => m.insert (key x) x
  | some y => if rank y < rank x then m.insert (key x) x else m

/-- File the latest item of each key. -/
def latestBy (l : List α) : SortedMap K α := l.foldl (fileLatest key rank) empty

theorem get_fileLatest (m : SortedMap K α) (x : α) (k : K) : (fileLatest key rank m x).get k =
      if key x = k then Latest.keep rank (m.get k) x else m.get k := by
  unfold fileLatest
  by_cases hk : key x = k
  · subst hk
    rw [if_pos rfl]
    cases hm : m.get (key x) with
    | none => exact get_insert_self _ _ _
    | some y =>
      unfold Latest.keep
      dsimp only
      split_ifs with hlt
      · exact get_insert_self _ _ _
      · exact hm
  · rw [if_neg hk]
    cases m.get (key x) with
    | none => exact get_insert_of_ne _ _ (Ne.symm hk)
    | some y =>
      dsimp only
      split_ifs
      · exact get_insert_of_ne _ _ (Ne.symm hk)
      · rfl

theorem get_foldl_fileLatest (l : List α) (m : SortedMap K α) (k : K) :
    (l.foldl (fileLatest key rank) m).get k =
      (l.filter (key · = k)).foldl (Latest.keep rank) (m.get k) := by
  induction l generalizing m with
  | nil => rfl
  | cons x l ih =>
    rw [foldl_cons, ih, get_fileLatest]
    by_cases hk : key x = k
    · rw [if_pos hk, filter_cons_of_pos (by simpa using hk), foldl_cons]
    · rw [if_neg hk, filter_cons_of_neg (by simpa using hk)]

theorem isTop_latestBy (l : List α) (k : K) :
    Latest.IsTop rank {x | x ∈ l ∧ key x = k} ((latestBy key rank l).get k) := by
  have htop : Latest.IsTop rank {x | x ∈ l.filter (key · = k)}
      ((l.filter (key · = k)).foldl (Latest.keep rank) none) := Latest.isTop_foldl _
  simp only [mem_filter, decide_eq_true_eq] at htop
  rw [latestBy, get_foldl_fileLatest]
  exact htop

end SortedMap
