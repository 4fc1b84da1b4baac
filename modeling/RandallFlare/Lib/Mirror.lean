import RandallFlare.Lib.SortedMap

/-!
# Memory and the table behind it

A program keeps values in memory and writes each of them to a table, from which it fills its memory
when it starts again.  The table has keys and values of its own; a `Codec` says which entry stands
for which value.  The memory may drop values that are dead, which the table keeps.

* `Codec`: the keys of the table tell the keys of the memory apart, and an entry stands for one value;
* `Mirrors`: the table has what the memory has, and beyond that only what is dead;
* `get_hydrate`: what filling an empty memory from the table gives.
-/

/-- How the values of a memory stand in a table. -/
structure Codec (K V T W : Type*) where
  enc : K → T
  /-- The value `w` of the table, under the key of `k`, stands for `v`. -/
  rel : K → V → W → Prop
  enc_injective : ∀ {k k' v v' w w'}, rel k v w → rel k' v' w' → enc k = enc k' → k = k'
  functional : ∀ {k v v' w}, rel k v w → rel k v' w → v = v'

namespace Codec

open List

variable {K V T W S : Type*} [LinearOrder T]

/-- The table has what the memory has, and what the memory has not is dead. -/
structure Mirrors (c : Codec K V T W) (dead : V → Prop) (memory : K → Option V)
    (table : SortedMap T W) : Prop where
  entry : ∀ t w, table.get t = some w → ∃ k v, t = c.enc k ∧ c.rel k v w
  held : ∀ k v, memory k = some v → ∃ w, c.rel k v w ∧ table.get (c.enc k) = some w
  dropped : ∀ k v w, table.get (c.enc k) = some w → c.rel k v w →
    memory k = some v ∨ memory k = none ∧ dead v

variable {c : Codec K V T W} {dead dead' : V → Prop} {memory : K → Option V}
  {table : SortedMap T W}

theorem mirrors_empty : c.Mirrors dead (fun _ => none) SortedMap.empty where
  entry := fun t w h => by cases h
  held := fun k v h => by cases h
  dropped := fun k v w h => by cases h

section

variable (h : c.Mirrors dead memory table) {v : V} {k : K}

include h

theorem Mirrors.put [DecidableEq K] {w : W} (hrel : c.rel k v w) :
    c.Mirrors dead (fun k' => if k' = k then some v else memory k') (table.insert (c.enc k) w) := by
  -- The entry of another key is another one.
  have hother : ∀ {k' v' w'}, c.rel k' v' w' → k' ≠ k →
      (table.insert (c.enc k) w).get (c.enc k') = table.get (c.enc k') := fun hrel' hne =>
    SortedMap.get_insert_of_ne _ _ fun henc => hne (c.enc_injective hrel' hrel henc)
  refine ⟨fun t w' ht => ?_, fun k' v' hk' => ?_, fun k' v' w' hw' hrel' => ?_⟩
  · rw [SortedMap.get_insert] at ht
    split_ifs at ht with htk
    · cases ht
      exact ⟨k, v, htk, hrel⟩
    · exact h.entry t w' ht
  · split_ifs at hk' with hkk
    · cases hk'
      subst hkk
      exact ⟨w, hrel, SortedMap.get_insert_self _ _ _⟩
    · obtain ⟨w', hrel', hw'⟩ := h.held k' v' hk'
      exact ⟨w', hrel', (hother hrel' hkk).trans hw'⟩
  · by_cases hkk : k' = k
    · subst hkk
      rw [SortedMap.get_insert_self] at hw'
      cases hw'
      exact .inl (by rw [if_pos rfl, c.functional hrel hrel'])
    · rw [hother hrel' hkk] at hw'
      rw [if_neg hkk]
      exact h.dropped k' v' w' hw' hrel'

theorem Mirrors.drop (hdead : ∀ v, dead v → dead' v)
    {keeps : V → Bool} (hdrop : ∀ v, keeps v = false → dead' v) :
    c.Mirrors dead' (fun k => (memory k).filter keeps) table := by
  refine ⟨h.entry, fun k v hk => ?_, fun k v w hw hrel => ?_⟩
  · exact h.held k v (Option.filter_eq_some_iff.1 hk).1
  · rcases h.dropped k v w hw hrel with hk | ⟨hk, hv⟩
    · cases hkeep : keeps v with
      | true => exact .inl (by simp [hk, hkeep])
      | false => exact .inr ⟨by simp [hk, hkeep], hdrop v hkeep⟩
    · exact .inr ⟨by simp [hk], hdead v hv⟩

/-! ### Starting again -/

/-- What is rebuilt from the table is what the memory has, but for what is dead. -/
theorem Mirrors.rebuilt {rebuilt : K → Option V}
    (hrebuilt : ∀ k v, rebuilt k = some v ↔ ∃ w, table.get (c.enc k) = some w ∧ c.rel k v w)
    (k : K) : rebuilt k = memory k ∨ memory k = none ∧ ∃ v, rebuilt k = some v ∧ dead v := by
  cases hr : rebuilt k with
  | none =>
    refine .inl ?_
    cases hm : memory k with
    | none => rfl
    | some v =>
      obtain ⟨w, hrel, hw⟩ := h.held k v hm
      rw [(hrebuilt k v).2 ⟨w, hw, hrel⟩] at hr
      cases hr
  | some v =>
    obtain ⟨w, hw, hrel⟩ := (hrebuilt k v).1 hr
    rcases h.dropped k v w hw hrel with hm | ⟨hm, hv⟩
    · exact .inl hm.symm
    · exact .inr ⟨hm, v, rfl, hv⟩

/-- What does not tell a dead value from none does not tell the rebuilt from the memory. -/
theorem Mirrors.view_rebuilt {O : Type*} {rebuilt : K → Option V}
    (hrebuilt : ∀ k v, rebuilt k = some v ↔ ∃ w, table.get (c.enc k) = some w ∧ c.rel k v w)
    (view : Option V → O) (hview : ∀ v, dead v → view (some v) = view none) (k : K) :
    view (rebuilt k) = view (memory k) := by
  rcases h.rebuilt hrebuilt k with heq | ⟨hnone, v, hv, hdead⟩
  · rw [heq]
  · rw [hnone, hv, hview v hdead]

variable [DecidableEq K] (get : S → K → Option V) (load : S → T × W → S) (P : S → Prop)

omit h in
/-- Entries of distinct keys, loaded one after the other, are all there and nothing else is. -/
theorem get_foldl_load {l : List (T × W)} (hl : l.Pairwise fun a b => a.1 < b.1)
    (hentry : ∀ p ∈ l, ∃ k v, p.1 = c.enc k ∧ c.rel k v p.2)
    (hload : ∀ s p k v, P s → p ∈ l → p.1 = c.enc k → c.rel k v p.2 → get s k = none →
      P (load s p) ∧ ∀ k', get (load s p) k' = if k' = k then some v else get s k')
    {s : S} (hs : P s) (hnone : ∀ p ∈ l, ∀ k v, p.1 = c.enc k → c.rel k v p.2 → get s k = none) :
    get (l.foldl load s) k = some v ↔
      get s k = some v ∨ ∃ p ∈ l, p.1 = c.enc k ∧ c.rel k v p.2 := by
  induction l generalizing s with
  | nil => simp
  | cons p l ih =>
    obtain ⟨hfirst, hrest⟩ := pairwise_cons.1 hl
    obtain ⟨k₀, v₀, hk₀, hrel₀⟩ := hentry p mem_cons_self
    have hempty := hnone p mem_cons_self k₀ v₀ hk₀ hrel₀
    obtain ⟨hP, hget⟩ := hload s p k₀ v₀ hs mem_cons_self hk₀ hrel₀ hempty
    have hnone' : ∀ q ∈ l, ∀ k v, q.1 = c.enc k → c.rel k v q.2 → get (load s p) k = none := by
      intro q hq k v hk hrel
      rw [hget, if_neg fun hkk => ?_]
      · exact hnone q (mem_cons_of_mem p hq) k v hk hrel
      · exact (hfirst q hq).ne (by rw [hk₀, hk, hkk])
    rw [foldl_cons, ih hrest (fun q hq => hentry q (mem_cons_of_mem p hq))
      (fun s q k v hs hq => hload s q k v hs (mem_cons_of_mem p hq)) hP hnone', hget]
    by_cases hk : k = k₀
    · subst hk
      have hv : v₀ = v ↔ p.1 = c.enc k ∧ c.rel k v p.2 :=
        ⟨fun hv => hv ▸ ⟨hk₀, hrel₀⟩, fun h => c.functional hrel₀ h.2⟩
      simp [hempty, hv]
    · have hp : ¬ (p.1 = c.enc k ∧ c.rel k v p.2) := fun h =>
        hk (c.enc_injective h.2 hrel₀ (h.1.symm.trans hk₀))
      simp [hk, hp]

/-- Filling an empty memory from a table gives what its entries stand for. -/
theorem Mirrors.get_hydrate (hload : ∀ s t w k v, P s → t = c.enc k → c.rel k v w → get s k = none →
      P (load s (t, w)) ∧ ∀ k', get (load s (t, w)) k' = if k' = k then some v else get s k')
    {s : S} (hs : P s) (hempty : ∀ k, get s k = none) :
    get (table.entries.foldl load s) k = some v ↔
      ∃ w, table.get (c.enc k) = some w ∧ c.rel k v w := by
  rw [get_foldl_load get load P table.sorted
    (fun p hp => h.entry p.1 p.2 ((SortedMap.get_eq_some_iff table).2 hp))
    (fun s p k v hs _ => hload s p.1 p.2 k v hs) hs (fun p _ k _ _ _ => hempty k), hempty k]
  constructor
  · rintro (hnone | ⟨p, hp, hk, hrel⟩)
    · cases hnone
    · exact ⟨p.2, by rw [← hk]; exact (SortedMap.get_eq_some_iff table).2 hp, hrel⟩
  · rintro ⟨w, hw, hrel⟩
    exact .inr ⟨(c.enc k, w), (SortedMap.get_eq_some_iff table).1 hw, rfl, hrel⟩

end

end Codec
