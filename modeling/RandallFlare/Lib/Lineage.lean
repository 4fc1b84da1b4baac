import Mathlib.Data.List.Sort
import RandallFlare.Lib.SortedMap

/-!
# Records linked by digests

Every record has a version and the digest of the record of the version before, but for those of
version 1, which have none.  A store may have records whose predecessors it does not have; only the
connected ones count.  They are found in one pass over the records in the order of their versions.

* `Connected s r`: there is a chain in `s` from a record of version 1 to `r`;
* `scan` is the pass; `mem_scan`: it finds the connected records.
-/

/-- What links records. -/
structure Lineage (R D : Type*) where
  version : R → ℕ
  prev : R → Option D
  digest : R → D

namespace Lineage

open List Option

variable {R D : Type*} (g : Lineage R D)

/-- A chain of records of `s` leads from one of version 1 to the record. -/
inductive Connected (s : Set R) : R → Prop
  | first {r : R} : r ∈ s → g.version r = 1 → g.prev r = none → Connected s r
  | next {r p : R} : r ∈ s → Connected s p → g.prev r = some (g.digest p) →
      g.version r = g.version p + 1 → Connected s r

variable {g} {s t : Set R} {r : R}

theorem Connected.mem (h : g.Connected s r) : r ∈ s := by
  cases h with
  | first hr => exact hr
  | next hr => exact hr

theorem Connected.mono (hst : s ⊆ t) (h : g.Connected s r) : g.Connected t r := by
  induction h with
  | first hr hversion hprev => exact .first (hst hr) hversion hprev
  | next hr _ hprev hversion ih => exact .next (hst hr) ih hprev hversion

theorem Connected.version_pos (h : g.Connected s r) : 0 < g.version r := by
  cases h with
  | first _ hversion => omega
  | next _ _ _ hversion => omega

/-! ### The pass -/

variable [LinearOrder D] (g)

/-- The record is of version 1, or the one before has been accepted. -/
def chainOk (accepted : SortedMap D ℕ) (r : R) : Bool :=
  if g.version r = 1 then (g.prev r).isNone
  else (g.prev r).bind accepted.get == some (g.version r - 1)

/-- The records that are accepted, after those whose digests are given. -/
def scan (accepted : SortedMap D ℕ) : List R → List R
  | [] => []
  | r :: l =>
      if g.chainOk accepted r then r :: scan (accepted.insert (g.digest r) (g.version r)) l
      else scan accepted l

variable {g} {accepted : SortedMap D ℕ}

variable {l before : List R} {q : R}

theorem mem_of_mem_scan (h : r ∈ g.scan accepted l) : r ∈ l := by
  induction l generalizing accepted with
  | nil => cases h
  | cons q l ih =>
    rw [scan] at h
    split_ifs at h
    · exact (mem_cons.1 h).elim (fun hr => hr ▸ mem_cons_self)
        fun hr => mem_cons_of_mem q (ih hr)
    · exact mem_cons_of_mem q (ih h)

/-- What has been accepted: the connected records before. -/
def Accepted (g : Lineage R D) (s : Set R) (before : List R) (accepted : SortedMap D ℕ) : Prop :=
  ∀ d v, accepted.get d = some v ↔
    ∃ p ∈ before, g.Connected s p ∧ g.digest p = d ∧ g.version p = v

section

variable (hacc : g.Accepted s before accepted)

include hacc

/-- If all records of lower versions come before, those accepted are the connected ones. -/
theorem chainOk_iff (hpos : ∀ p ∈ s, g.version p ≠ 0) (hr : r ∈ s)
    (hbefore : ∀ p ∈ s, g.version p < g.version r → p ∈ before) :
    g.chainOk accepted r ↔ g.Connected s r := by
  unfold chainOk
  constructor
  · intro h
    split_ifs at h with hone
    · exact .first hr hone (isNone_iff_eq_none.1 h)
    · obtain ⟨d, hd, hget⟩ := bind_eq_some_iff.1 (beq_iff_eq.1 h)
      obtain ⟨p, -, hp, rfl, hversion⟩ := (hacc d _).1 hget
      have := hpos r hr
      exact .next hr hp hd (by omega)
  · intro h
    cases h with
    | first _ hone hprev => rw [if_pos hone, hprev, isNone_none]
    | @next _ p _ hp hprev hversion =>
      have := hp.version_pos
      rw [if_neg (by omega), hprev, bind_some, beq_iff_eq, hacc]
      exact ⟨p, hbefore p hp.mem (by omega), hp, rfl, by omega⟩

theorem Accepted.accept (hq : g.Connected s q)
    (hdigest : ∀ p ∈ s, g.digest p = g.digest q → g.version p = g.version q) :
    g.Accepted s (before ++ [q]) (accepted.insert (g.digest q) (g.version q)) := by
  intro d v
  rw [SortedMap.get_insert]
  simp only [mem_append, mem_singleton, or_and_right, exists_or, exists_eq_left]
  split_ifs with hd
  · subst hd
    rw [some_inj]
    constructor
    · rintro rfl
      exact .inr ⟨hq, rfl, rfl⟩
    · rintro (⟨p, hp, hc, hpd, rfl⟩ | ⟨-, -, rfl⟩)
      · exact (hdigest p hc.mem hpd).symm
      · rfl
  · rw [hacc]
    exact ⟨.inl, fun h => h.resolve_right fun h => hd h.2.1.symm⟩

theorem Accepted.skip (hq : ¬ g.Connected s q) : g.Accepted s (before ++ [q]) accepted := by
  intro d v
  rw [hacc]
  simp only [mem_append, mem_singleton, or_and_right, exists_or, exists_eq_left]
  exact ⟨.inl, fun h => h.resolve_right fun h => hq h.1⟩

end

/-- **The pass finds the connected records**, if it goes by version and no two versions have records
of the same digest. -/
theorem mem_scan (hsorted : l.Pairwise fun a b => g.version a ≤ g.version b)
    (hpos : ∀ p ∈ l, g.version p ≠ 0)
    (hdigest : ∀ p ∈ l, ∀ q ∈ l, g.digest p = g.digest q → g.version p = g.version q) :
    r ∈ g.scan SortedMap.empty l ↔ g.Connected {p | p ∈ l} r := by
  -- The induction is on what is left of the list.
  have hscan : ∀ (rest before : List R) (accepted : SortedMap D ℕ), l = before ++ rest →
      g.Accepted {p | p ∈ l} before accepted →
      (r ∈ g.scan accepted rest ↔ r ∈ rest ∧ g.Connected {p | p ∈ l} r) := by
    intro rest
    induction rest with
    | nil => simp [scan]
    | cons q rest ih =>
      intro before accepted hl hacc
      have hq : q ∈ l := by simp [hl]
      have hbefore : ∀ p ∈ l, g.version p < g.version q → p ∈ before := by
        intro p hp hlt
        rw [hl, mem_append, mem_cons] at hp
        rw [hl] at hsorted
        have hle := (pairwise_cons.1 (pairwise_append.1 hsorted).2.1).1
        rcases hp with hp | rfl | hp
        · exact hp
        · exact absurd hlt (lt_irrefl _)
        · exact absurd (hle p hp) (not_le.2 hlt)
      have hok := chainOk_iff hacc hpos hq hbefore
      have hl' : l = (before ++ [q]) ++ rest := by rw [hl, append_assoc]; rfl
      rw [scan, mem_cons]
      by_cases hconn : g.Connected {p | p ∈ l} q
      · rw [if_pos (hok.2 hconn), mem_cons,
          ih _ _ hl' (hacc.accept hconn fun p hp => hdigest p hp q hq)]
        constructor
        · rintro (rfl | ⟨hr, hc⟩)
          · exact ⟨.inl rfl, hconn⟩
          · exact ⟨.inr hr, hc⟩
        · rintro ⟨rfl | hr, hc⟩
          · exact .inl rfl
          · exact .inr ⟨hr, hc⟩
      · rw [if_neg fun h => hconn (hok.1 h), ih _ _ hl' (hacc.skip hconn)]
        constructor
        · rintro ⟨hr, hc⟩
          exact ⟨.inr hr, hc⟩
        · rintro ⟨rfl | hr, hc⟩
          · exact absurd hc hconn
          · exact ⟨hr, hc⟩
  rw [hscan l [] SortedMap.empty rfl fun d v => by simp [SortedMap.empty, SortedMap.get]]
  exact ⟨fun h => h.2, fun h => ⟨h.mem, h⟩⟩

end Lineage
