import Mathlib.Data.Set.Basic
import Mathlib.Order.Lattice
import Mathlib.Tactic

/-!
# Registers that keep the item of the highest rank

A register holds at most one item and takes a new one only if it ranks above what it holds, so that
among items of equal rank the first one stays.  What a register holds is a top of the items it has
been offered, in whatever order, how often and through whichever other registers they came.

* `keep` offers an item, `join` offers what another register holds;
* `IsTop rank s r`: the register `r` is left of the items `s`; kept by both (`IsTop.keep`,
  `IsTop.join`);
* `IsTop.eq`: if no two tops differ, it says what the register holds.
-/

namespace Latest

open List

variable {α β : Type*} [LinearOrder β] (rank : α → β)

/-- Offer an item to a register. -/
def keep (r : Option α) (x : α) : Option α :=
  match r with
  | none => some x
  | some y => if rank y < rank x then some x else some y

theorem keep_cases (r : Option α) (x : α) : keep rank r x = r ∨ keep rank r x = some x := by
  cases r with
  | none => exact .inr rfl
  | some y =>
    by_cases h : rank y < rank x
    · exact .inr (if_pos h)
    · exact .inl (if_neg h)

/-- Offer to a register what another one holds. -/
def join (r t : Option α) : Option α :=
  match t with
  | none => r
  | some x => keep rank r x

/-- The register `r` is empty and there are no items, or it holds one of the highest rank. -/
def IsTop (s : Set α) : Option α → Prop
  | none => s = ∅
  | some y => y ∈ s ∧ ∀ x ∈ s, rank x ≤ rank y

variable {rank} {s t : Set α} {r q : Option α} {x y : α}

theorem IsTop.keep (h : IsTop rank s r) (x : α) : IsTop rank (insert x s) (keep rank r x) := by
  cases r with
  | none =>
    obtain rfl : s = ∅ := h
    refine ⟨Set.mem_insert _ _, fun z hz => ?_⟩
    rw [LawfulSingleton.insert_empty_eq, Set.mem_singleton_iff] at hz
    rw [hz]
  | some y =>
    obtain ⟨hy, htop⟩ := h
    unfold Latest.keep
    dsimp only
    split_ifs with hlt
    · refine ⟨Set.mem_insert _ _, fun z hz => ?_⟩
      rcases Set.mem_insert_iff.1 hz with rfl | hz
      · exact le_rfl
      · exact (htop z hz).trans hlt.le
    · refine ⟨Set.mem_insert_of_mem _ hy, fun z hz => ?_⟩
      rcases Set.mem_insert_iff.1 hz with rfl | hz
      · exact not_lt.1 hlt
      · exact htop z hz

theorem IsTop.join (h : IsTop rank s r) (h' : IsTop rank t q) :
    IsTop rank (s ∪ t) (join rank r q) := by
  cases q with
  | none =>
    obtain rfl : t = ∅ := h'
    rwa [Set.union_empty]
  | some x =>
    obtain ⟨hx, hle⟩ := h'
    have hkeep : IsTop rank (insert x s) (Latest.keep rank r x) := h.keep x
    show IsTop rank (s ∪ t) (Latest.keep rank r x)
    -- The register ranks as high as `x`, and `x` as high as everything the other one was offered.
    cases hres : Latest.keep rank r x with
    | none =>
      rw [hres] at hkeep
      exact absurd hkeep (Set.insert_nonempty x s).ne_empty
    | some y =>
      rw [hres] at hkeep
      obtain ⟨hy, htop⟩ := hkeep
      refine ⟨?_, fun z hz => ?_⟩
      · rcases Set.mem_insert_iff.1 hy with rfl | hy
        · exact .inr hx
        · exact .inl hy
      · rcases hz with hz | hz
        · exact htop z (Set.mem_insert_of_mem _ hz)
        · exact (hle z hz).trans (htop x (Set.mem_insert _ _))

theorem IsTop.eq (huniq : ∀ y ∈ s, ∀ z ∈ s, (∀ x ∈ s, rank x ≤ rank y) →
      (∀ x ∈ s, rank x ≤ rank z) → y = z) (h : IsTop rank s r) (h' : IsTop rank s q) : r = q := by
  cases r with
  | none =>
    obtain rfl : s = ∅ := h
    cases q with
    | none => rfl
    | some z => exact absurd h'.1 (Set.notMem_empty z)
  | some y =>
    cases q with
    | none =>
      obtain rfl : s = ∅ := h'
      exact absurd h.1 (Set.notMem_empty y)
    | some z => rw [huniq y h.1 z h'.1 h.2 h'.2]

/-- A register that is offered a list holds a top of it, whichever of two items of equal rank it
keeps. -/
theorem isTop_foldl_of {f : Option α → α → Option α} (hnone : ∀ x, f none x = some x)
    (hsome : ∀ y x, f (some y) x = some y ∧ rank x ≤ rank y ∨
      f (some y) x = some x ∧ rank y ≤ rank x) (l : List α) :
    IsTop rank {x | x ∈ l} (l.foldl f none) := by
  induction l using reverseRecOn with
  | nil => exact Set.eq_empty_of_forall_notMem fun x hx => nomatch hx
  | append_singleton l x ih =>
    rw [foldl_append, foldl_cons, foldl_nil]
    simp only [mem_append, mem_singleton]
    cases hr : l.foldl f none with
    | none =>
      have hempty : ∀ y, y ∉ l := by
        intro y hy
        rw [hr] at ih
        exact Set.notMem_empty y (ih ▸ hy)
      rw [hnone]
      exact ⟨.inr rfl, fun y hy => hy.elim (fun hy => absurd hy (hempty y)) fun hy => hy ▸ le_rfl⟩
    | some y =>
      rw [hr] at ih
      obtain ⟨hy, htop⟩ := ih
      rcases hsome y x with ⟨heq, hle⟩ | ⟨heq, hle⟩ <;> rw [heq]
      · exact ⟨.inl hy, fun z hz => hz.elim (htop z) fun hz => hz ▸ hle⟩
      · exact ⟨.inr rfl, fun z hz => hz.elim (fun hz => (htop z hz).trans hle) fun hz => hz ▸ le_rfl⟩

theorem isTop_foldl (l : List α) : IsTop rank {x | x ∈ l} (l.foldl (Latest.keep rank) none) := by
  refine isTop_foldl_of (fun x => rfl) (fun y x => ?_) l
  unfold Latest.keep
  dsimp only
  split_ifs with hlt
  · exact .inr ⟨rfl, hlt.le⟩
  · exact .inl ⟨rfl, not_lt.1 hlt⟩

/-- An item that nothing offered ranks above stays. -/
theorem foldl_keep_of_le {l : List α} (h : ∀ x ∈ l, rank x ≤ rank y) :
    l.foldl (keep rank) (some y) = some y := by
  induction l with
  | nil => rfl
  | cons x l ih =>
    have hx : keep rank (some y) x = some y := if_neg (not_lt.2 (h x mem_cons_self))
    rw [foldl_cons, hx]
    exact ih fun z hz => h z (mem_cons_of_mem x hz)

theorem foldl_keep_const {l : List α} (hl : ∀ x ∈ l, x = y) (hne : l ≠ []) (r : Option α) :
    l.foldl (keep rank) r = keep rank r y := by
  obtain ⟨x, t, rfl⟩ := exists_cons_of_ne_nil hne
  obtain rfl := hl x mem_cons_self
  rw [foldl_cons]
  have hle : ∃ w, keep rank r x = some w ∧ rank x ≤ rank w := by
    cases r with
    | none => exact ⟨x, rfl, le_rfl⟩
    | some w =>
      by_cases hlt : rank w < rank x
      · exact ⟨x, if_pos hlt, le_rfl⟩
      · exact ⟨w, if_neg hlt, not_lt.1 hlt⟩
  obtain ⟨w, hw, hxw⟩ := hle
  rw [hw]
  exact foldl_keep_of_le fun z hz => by rwa [hl z (mem_cons_of_mem x hz)]

end Latest
