import Mathlib.Data.List.Sort
import Mathlib.Data.Prod.Lex
import Mathlib.Data.String.Basic
import Mathlib.Tactic

/-!
# Paging through analytics events

`recent` of `rf/src/analytics.rs` orders the events by timestamp and id and is asked for those
before a timestamp, so that a page that ends between two events of one timestamp loses the second.

* `Dataset`: the events, none stamped above `MAX_TIMESTAMP_MS`; `recent`: a page;
* `walk`: page after page, each bound the timestamp of the last event;
* `walk_all_iff` is the result.
-/

namespace RandallFlare

namespace Analytics

open List

def maxTimestampMs : ℕ := 4102444800000

structure AnalyticsEvent where
  id : String
  tsMs : ℕ
  deriving DecidableEq

/-- `ORDER BY ts_ms DESC, id DESC`. -/
def newer (a b : AnalyticsEvent) : Bool := decide (toLex (b.tsMs, b.id) ≤ toLex (a.tsMs, a.id))

/-- The table `analytics_events`. -/
structure Dataset where
  rows : List AnalyticsEvent := []
  capped : ∀ e ∈ rows, e.tsMs ≤ maxTimestampMs := by simp

namespace Dataset

/-- The `DELETE` and the `INSERT` of `write`, of points with their new ids. -/
def write (d : Dataset) (points : List (String × Option ℕ)) (threshold : Option ℕ)
    (created : ℕ) : Dataset where
  rows := d.rows.filter (fun e => threshold.all (· ≤ e.tsMs)) ++
    points.map fun p => ⟨p.1, min (p.2.getD created) maxTimestampMs⟩
  capped e he := by
    rcases mem_append.1 he with he | he
    · exact d.capped e (mem_filter.1 he).1
    · obtain ⟨p, -, rfl⟩ := mem_map.1 he
      exact min_le_right _ _

def recent (d : Dataset) (beforeTsMs : Option ℕ) (limit : ℕ) : List AnalyticsEvent :=
  ((d.rows.filter fun e => e.tsMs < beforeTsMs.getD (maxTimestampMs + 1)).mergeSort newer).take
    (max 1 (min limit 1000))

/-- What the pages from a bound on return, up to an empty one; none if `fuel` calls do not do. -/
def walk (d : Dataset) (limit : ℕ) : ℕ → Option ℕ → Option (List AnalyticsEvent)
  | 0, _ => none
  | fuel + 1, bound => match (d.recent bound limit).getLast? with
      | none => some []
      | some e => (d.walk limit fuel (some e.tsMs)).map (d.recent bound limit ++ ·)

/-- The events before a bound, newest first. -/
def before (d : Dataset) (bound : Option ℕ) : List AnalyticsEvent :=
  (d.rows.mergeSort newer).filter fun e => e.tsMs < bound.getD (maxTimestampMs + 1)

end Dataset

/-- No page of `n` events ends between two events of one timestamp. -/
def Apart (n : ℕ) (l : List AnalyticsEvent) : Prop :=
  ∀ k, ∀ a ∈ l.take (n * k), ∀ b ∈ l.drop (n * k), a.tsMs ≠ b.tsMs

/-! ### One page -/

variable {l : List AnalyticsEvent} {e : AnalyticsEvent} {n : ℕ}

theorem pairwise_newer (l : List AnalyticsEvent) : (l.mergeSort newer).Pairwise (newer · ·) :=
  pairwise_mergeSort (by simpa [newer] using fun a b c h h' => h'.trans h)
    (by simpa [newer] using fun a b => le_total _ _) l

theorem mergeSort_filter (l : List AnalyticsEvent) (p : AnalyticsEvent → Bool) :
    (l.filter p).mergeSort newer = (l.mergeSort newer).filter p := by
  have hperm : ((l.filter p).mergeSort newer).Perm ((l.mergeSort newer).filter p) :=
    (mergeSort_perm _ _).trans ((mergeSort_perm l newer).symm.filter p)
  refine hperm.eq_of_pairwise (fun a b _ _ hab hba => ?_) (pairwise_newer _)
    ((pairwise_newer l).filter p)
  have heq := le_antisymm (of_decide_eq_true hab) (of_decide_eq_true hba)
  cases a
  cases b
  simpa [and_comm] using heq.symm

theorem pairwise_tsMs (l : List AnalyticsEvent) :
    (l.mergeSort newer).Pairwise fun a b => b.tsMs ≤ a.tsMs :=
  (pairwise_newer l).imp fun h => (Prod.Lex.toLex_le_toLex.1 (of_decide_eq_true h)).elim
    le_of_lt fun h => h.1.le

section Page

variable (hl : l.Pairwise fun a b => b.tsMs ≤ a.tsMs) (he : (l.take n).getLast? = some e)

include hl he

theorem le_of_mem_take {a : AnalyticsEvent} (ha : a ∈ l.take n) : e.tsMs ≤ a.tsMs := by
  obtain ⟨start, hstart⟩ := getLast?_eq_some_iff.1 he
  have hpage := hl.sublist (take_sublist n l)
  rw [hstart] at hpage ha
  rcases mem_append.1 ha with ha | ha
  · exact (pairwise_append.1 hpage).2.2 a ha e (mem_singleton_self e)
  · rw [mem_singleton.1 ha]

/-- What is left for the bound of a page is behind the page. -/
theorem filter_eq :
    l.filter (fun a => a.tsMs < e.tsMs) = (l.drop n).filter fun a => a.tsMs < e.tsMs := by
  have hno : (l.take n).filter (fun a => decide (a.tsMs < e.tsMs)) = [] :=
    filter_eq_nil_iff.2 fun a ha => by simpa using le_of_mem_take hl he ha
  conv_lhs => rw [← take_append_drop n l, filter_append, hno, nil_append]

/-- Pages end well if the first does and those behind it do. -/
theorem apart_iff : Apart n l ↔ (∀ b ∈ l.drop n, b.tsMs < e.tsMs) ∧ Apart n (l.drop n) := by
  constructor
  · intro h
    refine ⟨fun b hb => ?_, fun k a ha b hb => ?_⟩
    · have hmem := mem_of_getLast? he
      rw [← take_append_drop n l, pairwise_append] at hl
      have hne := h 1 e (by simpa using hmem) b (by simpa using hb)
      exact lt_of_le_of_ne (hl.2.2 e hmem b hb) hne.symm
    · refine h (k + 1) a ?_ b ?_
      · rw [Nat.mul_succ, Nat.add_comm, take_add]
        exact mem_append_right _ ha
      · rwa [drop_drop, Nat.add_comm, ← Nat.mul_succ] at hb
  · rintro ⟨hfirst, h⟩ (- | k) a ha b hb
    · simp at ha
    · rw [Nat.mul_succ, Nat.add_comm] at ha hb
      rw [← drop_drop] at hb
      rcases mem_append.1 (take_add.symm ▸ ha) with ha | ha
      · exact ((hfirst b (mem_of_mem_drop hb)).trans_le (le_of_mem_take hl he ha)).ne'
      · exact h k a ha b hb

end Page

namespace Dataset

variable {bound : Option ℕ}

theorem recent_eq (d : Dataset) (bound : Option ℕ) (limit : ℕ) :
    d.recent bound limit = (d.before bound).take (max 1 (min limit 1000)) :=
  congrArg (take _) (mergeSort_filter _ _)

theorem before_eq (d : Dataset) (bound : Option ℕ) (he : e ∈ d.before bound) :
    d.before (some e.tsMs) = (d.before bound).filter fun a => a.tsMs < e.tsMs := by
  have hlt := of_decide_eq_true (mem_filter.1 he).2
  unfold before
  rw [filter_filter]
  refine filter_congr fun a _ => ?_
  by_cases h : a.tsMs < e.tsMs
  · simp [h, h.trans hlt]
  · simp [h]

/-- **A walk ends**, and has returned all events exactly if the pages end well. -/
theorem exists_walk (d : Dataset) (limit : ℕ) {fuel : ℕ} (hfuel : (d.before bound).length < fuel) :
    ∃ visited, d.walk limit fuel bound = some visited ∧ visited.Sublist (d.before bound) ∧
      (visited = d.before bound ↔ Apart (max 1 (min limit 1000)) (d.before bound)) := by
  induction fuel generalizing bound with
  | zero => omega
  | succ fuel ih =>
    unfold walk
    rw [recent_eq]
    set n := max 1 (min limit 1000) with hn
    have hl : (d.before bound).Pairwise fun a b => b.tsMs ≤ a.tsMs :=
      (pairwise_tsMs d.rows).filter _
    cases he : ((d.before bound).take n).getLast? with
    | none =>
      have hnil : d.before bound = [] := by
        rcases take_eq_nil_iff.1 (getLast?_eq_none_iff.1 he) with h | h
        · omega
        · exact h
      simp [hnil, Apart]
    | some e =>
      have hmem := mem_of_mem_take (mem_of_getLast? he)
      have hrest := (before_eq d bound hmem).trans (filter_eq hl he)
      have hsub : (d.before (some e.tsMs)).Sublist ((d.before bound).drop n) :=
        hrest ▸ filter_sublist
      have hlen := length_pos_of_mem hmem
      obtain ⟨visited, hwalk, hvis, hall⟩ := @ih (some e.tsMs) (by
        have := hsub.length_le
        rw [length_drop] at this
        omega)
      refine ⟨(d.before bound).take n ++ visited, by simp [hwalk], ?_, ?_⟩
      · conv_rhs => rw [← take_append_drop n (d.before bound)]
        exact (Sublist.refl _).append (hvis.trans hsub)
      · rw [apart_iff hl he]
        have hcancel : (d.before bound).take n ++ visited = d.before bound ↔
            visited = (d.before bound).drop n := by
          nth_rewrite 2 [← take_append_drop n (d.before bound)]
          rw [append_cancel_left_eq]
        rw [hcancel]
        constructor
        · rintro rfl
          have heq := hsub.antisymm hvis
          exact ⟨fun b hb => of_decide_eq_true (filter_eq_self.1 (hrest.symm.trans heq) b hb),
            heq ▸ hall.1 heq.symm⟩
        · rintro ⟨hfirst, hapart⟩
          have heq := hrest.trans (filter_eq_self.2 fun b hb => decide_eq_true (hfirst b hb))
          exact (hall.2 (heq ▸ hapart)).trans heq

/-- **Paging visits every event exactly once and stops** after at most one call more than there are
events, exactly if no page ends between two events of one timestamp. -/
theorem walk_all_iff (d : Dataset) (limit : ℕ) :
    (∃ visited, d.walk limit (d.rows.length + 1) none = some visited ∧ visited.Perm d.rows) ↔
      Apart (max 1 (min limit 1000)) (d.rows.mergeSort newer) := by
  have hall : d.before none = d.rows.mergeSort newer := filter_eq_self.2 fun e he =>
    decide_eq_true (Nat.lt_succ_of_le (d.capped e (mem_mergeSort.1 he)))
  have hperm : (d.before none).Perm d.rows := hall ▸ mergeSort_perm _ _
  obtain ⟨visited, hwalk, hsub, hiff⟩ := d.exists_walk limit
    (Nat.lt_succ_of_le hperm.length_eq.le)
  rw [← hall, ← hiff, hwalk]
  constructor
  · rintro ⟨_, h, hp⟩
    cases h
    exact hsub.eq_of_length (hp.trans hperm.symm).length_eq
  · rintro rfl
    exact ⟨_, rfl, hperm⟩

/-- Two events of one batch, a page each: the second is never returned. -/
theorem walk_misses_tie : ∃ d : Dataset, d = write {} [("a", none), ("b", none)] none 5 ∧
    d.walk 1 3 none = some [⟨"b", 5⟩] ∧ ¬ [⟨"b", 5⟩].Perm d.rows := by
  refine ⟨_, rfl, ?_, fun h => ?_⟩
  · have hab : newer ⟨"a", 5⟩ ⟨"b", 5⟩ = false := by decide +kernel
    simp [write, walk, recent, mergeSort, MergeSort.Internal.splitInTwo, hab, maxTimestampMs]
  · exact absurd h.length_eq (by decide)

end Dataset

end Analytics

end RandallFlare
