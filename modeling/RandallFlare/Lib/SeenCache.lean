import Mathlib.Data.List.Nodup
import Mathlib.Data.List.Perm.Subperm

/-!
# A bounded cache of things seen

A cache remembers keys together with the time they were first seen.  Before each use entries older
than `window` are dropped, and a full cache makes room by dropping an oldest entry.

* `SeenCache.remember`: note a key; was it there already?
* `SeenCache.mem_remember`: an entry inside the window stays, unless it has to make room.
-/

variable {K : Type*}

/-- Keys with the time they were seen; no key stands twice. -/
structure SeenCache (K : Type*) where
  entries : List (K × ℕ)
  nodup : (entries.map Prod.fst).Nodup

namespace SeenCache

open List

def empty : SeenCache K := ⟨[], nodup_nil⟩

/-- Keep what satisfies `p`. -/
def filter (c : SeenCache K) (p : K × ℕ → Bool) : SeenCache K where
  entries := c.entries.filter p
  nodup := c.nodup.sublist (filter_sublist.map Prod.fst)

/-- Drop what is older than `window`. -/
def retain (c : SeenCache K) (window now : ℕ) : SeenCache K :=
  c.filter fun p => decide (now - p.2 ≤ window)

theorem mem_retain {c : SeenCache K} {window now t : ℕ} {k : K} :
    (k, t) ∈ (c.retain window now).entries ↔ (k, t) ∈ c.entries ∧ now - t ≤ window := by
  simp [retain, filter]

variable [DecidableEq K]

/-- Make room for one more entry: `oldest` picks the entry to go. -/
def makeRoom (c : SeenCache K) (capacity : ℕ) (oldest : List (K × ℕ) → Option (K × ℕ)) :
    SeenCache K :=
  if capacity ≤ c.entries.length then
    match oldest c.entries with
    | none => c
    | some victim => c.filter fun p => decide (p.1 ≠ victim.1)
  else c

theorem mem_of_mem_makeRoom {c : SeenCache K} {capacity : ℕ}
    {oldest : List (K × ℕ) → Option (K × ℕ)} {p : K × ℕ}
    (h : p ∈ (c.makeRoom capacity oldest).entries) : p ∈ c.entries := by
  unfold makeRoom at h
  split_ifs at h
  · split at h
    · exact h
    · exact mem_of_mem_filter h
  · exact h

/-- Note `k` at the time `now`, unless it is there already, which is the second result. -/
def remember (c : SeenCache K) (window capacity : ℕ) (oldest : List (K × ℕ) → Option (K × ℕ))
    (now : ℕ) (k : K) : SeenCache K × Bool :=
  let kept := c.retain window now
  if hk : k ∈ kept.entries.map Prod.fst then (kept, true)
  else
    (⟨(k, now) :: (kept.makeRoom capacity oldest).entries, by
      refine nodup_cons.2 ⟨fun hm => hk ?_, (kept.makeRoom capacity oldest).nodup⟩
      obtain ⟨p, hp, hpk⟩ := mem_map.1 hm
      exact mem_map.2 ⟨p, mem_of_mem_makeRoom hp, hpk⟩⟩, false)

variable {c : SeenCache K} {window capacity now t : ℕ} {oldest : List (K × ℕ) → Option (K × ℕ)}
  {k k' : K}

/-- A key is new only when no entry inside the window has it, and then it is noted. -/
theorem of_remember_eq_false (h : (c.remember window capacity oldest now k).2 = false) :
    (∀ u, (k, u) ∈ c.entries → window < now - u) ∧
      (k, now) ∈ (c.remember window capacity oldest now k).1.entries := by
  unfold remember at h ⊢
  dsimp only at h ⊢
  split_ifs at h with hk
  rw [dif_neg hk]
  refine ⟨fun u hu => ?_, mem_cons_self⟩
  by_contra hle
  exact hk (mem_map.2 ⟨(k, u), mem_retain.2 ⟨hu, by omega⟩, rfl⟩)

/-- The choice is an entry, and none is older. -/
def IsOldest (oldest : List (K × ℕ) → Option (K × ℕ)) : Prop :=
  ∀ l p, oldest l = some p → p ∈ l ∧ ∀ q ∈ l, p.2 ≤ q.2

/-- **An entry inside the window stays**, when there is room or an older entry to go. -/
theorem mem_remember (hold : IsOldest oldest) (hmem : (k', t) ∈ c.entries) (hwin : now - t ≤ window)
    (hroom : (c.retain window now).entries.length < capacity ∨
      ∃ p ∈ (c.retain window now).entries, p.2 < t) :
    (k', t) ∈ (c.remember window capacity oldest now k).1.entries := by
  have hkept : (k', t) ∈ (c.retain window now).entries := mem_retain.2 ⟨hmem, hwin⟩
  unfold remember
  dsimp only
  split_ifs
  · exact hkept
  refine mem_cons_of_mem _ ?_
  unfold makeRoom
  split_ifs with hfull
  · obtain ⟨p, hp, hlt⟩ := hroom.resolve_left (by omega)
    split
    · exact hkept
    · rename_i victim hvictim
      obtain ⟨hv, hmin⟩ := hold _ _ hvictim
      refine mem_filter.2 ⟨hkept, decide_eq_true fun heq => ?_⟩
      -- the keys are distinct, so the victim would be this very entry
      have hsame := inj_on_of_nodup_map (c.retain window now).nodup hkept hv heq
      have hle := hmin p hp
      rw [← hsame] at hle
      omega
  · exact hkept

end SeenCache
