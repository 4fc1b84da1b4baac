import Mathlib.Data.List.Basic
import Mathlib.Tactic

/-!
# Maps as sorted lists

A finite map from a linear order is the list of its bindings, strictly increasing in the key.  The
structure carries the proof, so that two maps with the same bindings are the same list and an
iteration over a map has one order.
-/

/-- A finite map: its bindings in increasing order of the keys. -/
structure SortedMap (K V : Type*) [LinearOrder K] where
  entries : List (K × V)
  sorted : entries.Pairwise fun a b => a.1 < b.1

namespace SortedMap

open List

variable {K V : Type*} [LinearOrder K]

instance [DecidableEq V] : DecidableEq (SortedMap K V) := fun m n =>
  decidable_of_iff (m.entries = n.entries) ⟨fun h => by cases m; cases n; congr, congrArg entries⟩

/-- No binding. -/
def empty : SortedMap K V := ⟨[], Pairwise.nil⟩

/-- The value bound to a key. -/
def get (m : SortedMap K V) (k : K) : Option V := m.entries.lookup k

/-- Bind `k` in a sorted list, replacing the value it had. -/
def insertEntry (k : K) (v : V) : List (K × V) → List (K × V)
  | [] => [(k, v)]
  | (k', v') :: t =>
      if k < k' then (k, v) :: (k', v') :: t
      else if k = k' then (k, v) :: t
      else (k', v') :: insertEntry k v t

variable {k : K} {v : V} {l : List (K × V)} {p : K × V} {W : Type*}

theorem mem_insertEntry (h : p ∈ insertEntry k v l) : p = (k, v) ∨ p ∈ l := by
  induction l with
  | nil => exact .inl (mem_singleton.1 h)
  | cons q t ih =>
    unfold insertEntry at h
    split_ifs at h
    · exact mem_cons.1 h
    · exact (mem_cons.1 h).imp_right (mem_cons_of_mem q)
    · rcases mem_cons.1 h with rfl | h
      · exact .inr mem_cons_self
      · exact (ih h).imp_right (mem_cons_of_mem q)

theorem pairwise_insertEntry (k : K) (v : V) (h : l.Pairwise fun a b => a.1 < b.1) :
    (insertEntry k v l).Pairwise fun a b => a.1 < b.1 := by
  induction l with
  | nil => exact pairwise_singleton _ _
  | cons q t ih =>
    obtain ⟨hq, ht⟩ := pairwise_cons.1 h
    unfold insertEntry
    split_ifs with hlt heq
    · refine pairwise_cons.2 ⟨fun p hp => ?_, h⟩
      rcases mem_cons.1 hp with rfl | hp
      · exact hlt
      · exact hlt.trans (hq p hp)
    · exact pairwise_cons.2 ⟨fun p hp => heq ▸ hq p hp, ht⟩
    · refine pairwise_cons.2 ⟨fun p hp => ?_, ih ht⟩
      rcases mem_insertEntry hp with rfl | hp
      · exact lt_of_le_of_ne (not_lt.1 hlt) (Ne.symm heq)
      · exact hq p hp

theorem insertEntry_of_forall_lt (h : ∀ p ∈ l, p.1 < k) : insertEntry k v l = l ++ [(k, v)] := by
  induction l with
  | nil => rfl
  | cons q t ih =>
    have hq := h q mem_cons_self
    unfold insertEntry
    rw [if_neg hq.not_gt, if_neg hq.ne', ih fun p hp => h p (mem_cons_of_mem q hp)]
    rfl

/-- Bind a key, replacing the value it had. -/
def insert (m : SortedMap K V) (k : K) (v : V) : SortedMap K V :=
  ⟨insertEntry k v m.entries, pairwise_insertEntry k v m.sorted⟩

@[simp] theorem get_empty (k : K) : (empty : SortedMap K V).get k = none := rfl

section

variable (m : SortedMap K V)

@[simp] theorem get_insert_self (k : K) (v : V) : (m.insert k v).get k = some v := by
  obtain ⟨l, hl⟩ := m
  show (insertEntry k v l).lookup k = some v
  clear hl
  induction l with
  | nil => simp [insertEntry]
  | cons q t ih =>
    unfold insertEntry
    split_ifs with hlt heq
    · simp
    · simp
    · rw [lookup_cons, beq_eq_false_iff_ne.2 heq]
      exact ih

theorem get_insert_of_ne {k' : K} (v : V) (hne : k' ≠ k) : (m.insert k v).get k' = m.get k' := by
  obtain ⟨l, hl⟩ := m
  show (insertEntry k v l).lookup k' = l.lookup k'
  clear hl
  induction l with
  | nil => simp [insertEntry, hne]
  | cons q t ih =>
    unfold insertEntry
    split_ifs with hlt heq
    · rw [lookup_cons, beq_eq_false_iff_ne.2 hne]
    · rw [lookup_cons, lookup_cons, beq_eq_false_iff_ne.2 hne, beq_eq_false_iff_ne.2 (heq ▸ hne)]
    · rw [lookup_cons, lookup_cons, ih]

theorem get_insert (k k' : K) (v : V) :
    (m.insert k v).get k' = if k' = k then some v else m.get k' := by
  split_ifs with h
  · rw [h, get_insert_self]
  · exact get_insert_of_ne m v h

/-- Bind the keys to the values, one pair after the other. -/
def insertAll (m : SortedMap K V) (l : List (K × V)) : SortedMap K V :=
  l.foldl (fun m p => m.insert p.1 p.2) m

theorem insertAll_append (l l' : List (K × V)) :
    m.insertAll (l ++ l') = (m.insertAll l).insertAll l' := foldl_append

theorem entries_insertAll (l : List (K × V)) :
    (m.insertAll l).entries = l.foldl (fun e p => insertEntry p.1 p.2 e) m.entries := by
  induction l generalizing m with
  | nil => rfl
  | cons p l ih => exact ih (m.insert p.1 p.2)

/-- Where no key comes with two values, each is bound to its own. -/
theorem get_insertAll (hl : ∀ p ∈ l, ∀ q ∈ l, p.1 = q.1 → p.2 = q.2) (hp : p ∈ l) :
    (m.insertAll l).get p.1 = some p.2 := by
  induction l using reverseRecOn with
  | nil => cases hp
  | append_singleton l q ih =>
    rw [insertAll_append]
    change ((m.insertAll l).insert q.1 q.2).get p.1 = _
    rw [get_insert]
    split_ifs with h
    · rw [hl p hp q (by simp) h]
    · refine ih (fun r hr t ht => hl r (by simp [hr]) t (by simp [ht])) ?_
      rcases mem_append.1 hp with hp | hp
      · exact hp
      · exact absurd (congrArg Prod.fst (mem_singleton.1 hp)) h

theorem get_eq_some_iff : m.get k = some v ↔ (k, v) ∈ m.entries := by
  obtain ⟨l, hl⟩ := m
  show l.lookup k = some v ↔ (k, v) ∈ l
  induction l with
  | nil => simp
  | cons q t ih =>
    obtain ⟨hq, ht⟩ := pairwise_cons.1 hl
    rw [lookup_cons, mem_cons]
    by_cases hk : k = q.1
    · rw [beq_iff_eq.2 hk]
      constructor
      · intro h
        exact .inl (Prod.ext hk (Option.some.inj h).symm)
      · rintro (rfl | h)
        · rfl
        · exact absurd (hq _ h) (by rw [hk]; exact lt_irrefl _)
    · rw [beq_eq_false_iff_ne.2 hk]
      refine (ih ht).trans ⟨.inr, ?_⟩
      rintro (rfl | h)
      · exact absurd rfl hk
      · exact h

theorem lookup_eq_none_of_lt (h : ∀ p ∈ l, k < p.1) : l.lookup k = none :=
  lookup_eq_none_iff.2 fun p hp => by simpa using (h p hp).ne

/-- Two maps agree up to `R` at every key if their bindings do, one by one. -/
theorem forall₂_entries_iff {R : V → W → Prop} (n : SortedMap K W) :
    Forall₂ (fun p q => p.1 = q.1 ∧ R p.2 q.2) m.entries n.entries ↔
      ∀ k, Option.Rel R (m.get k) (n.get k) := by
  obtain ⟨l, hl⟩ := m
  obtain ⟨l', hl'⟩ := n
  show Forall₂ _ l l' ↔ ∀ k, Option.Rel R (l.lookup k) (l'.lookup k)
  constructor
  · intro h k
    induction h with
    | nil => exact .none
    | @cons p q t t' hpq _ ih =>
      rw [lookup_cons, lookup_cons, hpq.1]
      by_cases hk : k = q.1
      · rw [beq_iff_eq.2 hk]
        exact .some hpq.2
      · rw [beq_eq_false_iff_ne.2 hk]
        exact ih (pairwise_cons.1 hl).2 (pairwise_cons.1 hl').2
  · intro h
    induction l generalizing l' with
    | nil =>
      cases l' with
      | nil => exact .nil
      | cons q t' =>
        have hq := h q.1
        rw [lookup_cons, beq_self_eq_true] at hq
        cases hq
    | cons p t ih =>
      obtain ⟨hp, ht⟩ := pairwise_cons.1 hl
      cases l' with
      | nil =>
        have hp := h p.1
        rw [lookup_cons, beq_self_eq_true] at hp
        cases hp
      | cons q t' =>
        obtain ⟨hq, ht'⟩ := pairwise_cons.1 hl'
        -- the smaller of the two first keys would be bound on one side only
        have hkey : p.1 = q.1 := by
          rcases lt_trichotomy p.1 q.1 with hlt | heq | hgt
          · have hk := h p.1
            rw [lookup_cons, beq_self_eq_true, lookup_eq_none_of_lt (l := q :: t')
              fun r hr => (mem_cons.1 hr).elim (fun e => e ▸ hlt)
                fun hr => hlt.trans (hq r hr)] at hk
            cases hk
          · exact heq
          · have hk := h q.1
            rw [lookup_eq_none_of_lt (l := p :: t) fun r hr => (mem_cons.1 hr).elim
                (fun e => e ▸ hgt) fun hr => hgt.trans (hp r hr),
              lookup_cons, beq_self_eq_true] at hk
            cases hk
        have hvalue : R p.2 q.2 := by
          have hk := h q.1
          rw [lookup_cons, lookup_cons, hkey, beq_self_eq_true] at hk
          cases hk with
          | some hv => exact hv
        refine .cons ⟨hkey, hvalue⟩ (ih ht t' ht' fun k => ?_)
        by_cases hk : k = q.1
        · subst hk
          rw [lookup_eq_none_of_lt fun r hr => hkey ▸ hp r hr, lookup_eq_none_of_lt hq]
          exact .none
        · have hk' := h k
          rwa [lookup_cons, lookup_cons, hkey, beq_eq_false_iff_ne.2 hk] at hk'

theorem filter_entries (k : K) : (m.entries.filter (·.1 = k)).map Prod.snd = (m.get k).toList := by
  obtain ⟨l, hl⟩ := m
  show (l.filter (·.1 = k)).map Prod.snd = (l.lookup k).toList
  induction l with
  | nil => rfl
  | cons q t ih =>
    obtain ⟨hq, ht⟩ := pairwise_cons.1 hl
    by_cases hk : q.1 = k
    · have hnone : t.filter (·.1 = k) = [] :=
        filter_eq_nil_iff.2 fun p hp => by simpa [← hk] using (hq p hp).ne'
      rw [filter_cons_of_pos (by simpa using hk), hnone, lookup_cons, beq_iff_eq.2 hk.symm]
      rfl
    · rw [filter_cons_of_neg (by simpa using hk), lookup_cons,
        beq_eq_false_iff_ne.2 (Ne.symm hk)]
      exact ih ht

theorem nodup_entries : m.entries.Nodup :=
  m.sorted.imp fun hab heq => absurd (congrArg Prod.fst heq) hab.ne

theorem ext_get {m n : SortedMap K V} (h : ∀ k, m.get k = n.get k) : m = n := by
  have hmem : ∀ p, p ∈ m.entries ↔ p ∈ n.entries := fun p => by
    rw [← get_eq_some_iff m, ← get_eq_some_iff n, h]
  have hperm := (perm_ext_iff_of_nodup m.nodup_entries n.nodup_entries).2 hmem
  obtain ⟨l, hl⟩ := m
  obtain ⟨l', hl'⟩ := n
  obtain rfl := hperm.eq_of_pairwise (fun a b _ _ hab hba => absurd hab hba.asymm) hl hl'
  rfl

/-- The bindings that satisfy a test. -/
def filter (m : SortedMap K V) (p : K → V → Bool) : SortedMap K V :=
  ⟨m.entries.filter fun q => p q.1 q.2, m.sorted.filter _⟩

theorem get_filter (p : K → V → Bool) (k : K) : (m.filter p).get k = (m.get k).filter (p k) := by
  ext v
  rw [get_eq_some_iff, Option.filter_eq_some_iff, get_eq_some_iff]
  exact mem_filter

/-- What the keys are bound to, in the order of the keys. -/
def values (m : SortedMap K V) : List V := m.entries.map Prod.snd

theorem mem_values : v ∈ m.values ↔ ∃ k, m.get k = some v := by
  simp only [values, mem_map, Prod.exists, exists_eq_right, get_eq_some_iff]

theorem values_filter (q : V → Bool) : (m.filter fun _ v => q v).values = m.values.filter q := by
  rw [values, values, filter_map]
  rfl

/-- Change each binding, knowing its key. -/
def mapEntries {W : Type*} (m : SortedMap K V) (f : K → V → W) : SortedMap K W :=
  ⟨m.entries.map fun q => (q.1, f q.1 q.2), m.sorted.map _ fun _ _ h => h⟩

theorem get_mapEntries (f : K → V → W) (k : K) : (m.mapEntries f).get k = (m.get k).map (f k) := by
  ext w
  rw [get_eq_some_iff, Option.map_eq_some_iff]
  simp only [mapEntries, mem_map, Prod.mk.injEq, Prod.exists, get_eq_some_iff]
  constructor
  · rintro ⟨k', v, hv, rfl, rfl⟩
    exact ⟨v, hv, rfl⟩
  · rintro ⟨v, hv, rfl⟩
    exact ⟨k, v, hv, rfl, rfl⟩

/-- Change what the keys are bound to. -/
def mapValues {W : Type*} (m : SortedMap K V) (f : V → W) : SortedMap K W :=
  ⟨m.entries.map fun q => (q.1, f q.2), m.sorted.map _ fun _ _ h => h⟩

theorem get_mapValues (f : V → W) (k : K) : (m.mapValues f).get k = (m.get k).map f :=
  m.get_mapEntries (fun _ => f) k

/-- Drop what a key is bound to. -/
def erase (m : SortedMap K V) (k : K) : SortedMap K V := m.filter fun k' _ => k' ≠ k

theorem get_erase (k k' : K) : (m.erase k).get k' = if k' = k then none else m.get k' := by
  rw [erase, get_filter]
  split_ifs with h
  · simp [h]
  · cases m.get k' <;> simp [h]

theorem insert_of_get {m : SortedMap K V} (h : m.get k = some v) : m.insert k v = m := by
  refine ext_get fun k' => ?_
  rw [get_insert]
  split_ifs with hk
  · rw [hk, h]
  · rfl

/-- A binding that is replaced goes, and the new one comes. -/
theorem perm_insert (k : K) (v : V) :
    (m.insert k v).entries.Perm ((k, v) :: (m.erase k).entries) := by
  refine (perm_ext_iff_of_nodup (nodup_entries _)
    (nodup_cons.2 ⟨fun h => ?_, nodup_entries _⟩)).2 fun p => ?_
  · rw [← get_eq_some_iff, get_erase, if_pos rfl] at h
    cases h
  · rw [mem_cons, ← get_eq_some_iff, ← get_eq_some_iff, get_insert, get_erase, Prod.ext_iff]
    by_cases hk : p.1 = k
    · simp [hk, eq_comm]
    · simp [hk]

end

end SortedMap
