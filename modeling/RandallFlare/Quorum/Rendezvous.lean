import RandallFlare.Lib.TopK
import RandallFlare.Quorum.Raft

/-!
# Choosing a replica group

`rendezvous_group` in `rf-core/src/quorum.rs` ranks the nodes of a universe by a hash of the object
and the node and takes the highest.  The hash is SHA-256 in the source and a function `score` here,
its 32 bytes read as one number.  Callers sort the universe and drop duplicates first, so the group
depends only on which nodes are in it (`sortDedup_eq`).

* `Outranked`: the order of the nodes for one object, which is total even if scores are equal;
* `rendezvousGroup_stable`: what the group is made of, and what one node less or one more changes.
-/

namespace RandallFlare

open List TopK

/-- The order of keys. -/
def PublicId.Le (a b : PublicId) : Prop := a.key ≤ b.key

instance : DecidableRel PublicId.Le := fun a b => inferInstanceAs (Decidable (a.key ≤ b.key))

instance : Std.Total PublicId.Le := ⟨fun a b => BitVec.le_total a.key b.key⟩

instance : IsTrans PublicId PublicId.Le := ⟨fun _ _ _ hab hbc => BitVec.le_trans hab hbc⟩

theorem PublicId.Le.antisymm {a b : PublicId} (hab : a.Le b) (hba : b.Le a) : a = b := by
  obtain ⟨a⟩ := a
  obtain ⟨b⟩ := b
  exact congrArg PublicId.mk (BitVec.le_antisymm hab hba)

/-- Drop every element equal to the one before it. -/
def dedupAdjacent : List PublicId → List PublicId
  | [] => []
  | [a] => [a]
  | a :: b :: t => if a = b then dedupAdjacent (b :: t) else a :: dedupAdjacent (b :: t)

/-- `universe.sort(); universe.dedup();` -/
def sortDedup (univ : List PublicId) : List PublicId :=
  dedupAdjacent (univ.insertionSort PublicId.Le)

/-- The `size` nodes of the universe with the highest scores, the highest first. -/
def rendezvousGroup (score : String → PublicId → ℕ) (object : String) (univ : List PublicId)
    (size : ℕ) : List PublicId :=
  let scored := univ.map fun node => (score object node, node)
  let sorted := scored.insertionSort fun a b => a.1 < b.1 ∨ a.1 = b.1 ∧ a.2.Le b.2
  (sorted.reverse.take size).map Prod.snd

variable {l : List PublicId}

@[simp] theorem mem_dedupAdjacent {x : PublicId} : x ∈ dedupAdjacent l ↔ x ∈ l := by
  induction l using dedupAdjacent.induct with
  | case1 => rfl
  | case2 a => rfl
  | case3 a t ih =>
    rw [dedupAdjacent, if_pos rfl, ih]
    simp
  | case4 a b t hab ih => rw [dedupAdjacent, if_neg hab, mem_cons, ih, mem_cons (a := x) (b := a)]

theorem nodup_dedupAdjacent (h : l.Pairwise PublicId.Le) : (dedupAdjacent l).Nodup := by
  induction l using dedupAdjacent.induct with
  | case1 => exact nodup_nil
  | case2 a => exact nodup_singleton a
  | case3 a t ih =>
    rw [dedupAdjacent, if_pos rfl]
    exact ih h.of_cons
  | case4 a b t hab ih =>
    rw [dedupAdjacent, if_neg hab]
    obtain ⟨ha, ht⟩ := pairwise_cons.1 h
    refine nodup_cons.2 ⟨fun hmem => ?_, ih ht⟩
    -- `a` lies below its neighbour, which lies below everything after it
    rcases mem_cons.1 (mem_dedupAdjacent.1 hmem) with rfl | hmem
    · exact hab rfl
    · exact hab ((ha b mem_cons_self).antisymm ((pairwise_cons.1 ht).1 a hmem))

theorem pairwise_dedupAdjacent (h : l.Pairwise PublicId.Le) :
    (dedupAdjacent l).Pairwise PublicId.Le := by
  induction l using dedupAdjacent.induct with
  | case1 => exact h
  | case2 a => exact h
  | case3 a t ih =>
    rw [dedupAdjacent, if_pos rfl]
    exact ih h.of_cons
  | case4 a b t hab ih =>
    rw [dedupAdjacent, if_neg hab]
    obtain ⟨ha, ht⟩ := pairwise_cons.1 h
    exact pairwise_cons.2 ⟨fun x hx => ha x (mem_dedupAdjacent.1 hx), ih ht⟩

/-- **Universes with the same nodes are the same after sorting and deduplicating.** -/
theorem sortDedup_eq {U W : List PublicId} (h : ∀ x, x ∈ U ↔ x ∈ W) :
    sortDedup U = sortDedup W := by
  have hsorted : ∀ l : List PublicId, (l.insertionSort PublicId.Le).Pairwise PublicId.Le :=
    fun l => pairwise_insertionSort _ l
  refine Perm.eq_of_pairwise (fun a b _ _ => PublicId.Le.antisymm)
    (pairwise_dedupAdjacent (hsorted U)) (pairwise_dedupAdjacent (hsorted W)) ?_
  refine (perm_ext_iff_of_nodup (nodup_dedupAdjacent (hsorted U))
    (nodup_dedupAdjacent (hsorted W))).2 fun x => ?_
  simp [h x]

/-! ### The group as the highest nodes -/

/-- For the object, `b` comes before `a`: a higher score, or the same and a key that is not lower. -/
def Outranked (score : String → PublicId → ℕ) (object : String) (a b : PublicId) : Prop :=
  score object a < score object b ∨ score object a = score object b ∧ a.Le b

section

variable {score : String → PublicId → ℕ} {object : String}

instance : DecidableRel (Outranked score object) := fun a b =>
  inferInstanceAs (Decidable (_ < _ ∨ _ = _ ∧ a.Le b))

instance : Std.Total (Outranked score object) := by
  refine ⟨fun a b => ?_⟩
  rcases lt_trichotomy (score object a) (score object b) with h | h | h
  · exact .inl (.inl h)
  · rcases Std.Total.total (r := PublicId.Le) a b with hab | hba
    · exact .inl (.inr ⟨h, hab⟩)
    · exact .inr (.inr ⟨h.symm, hba⟩)
  · exact .inr (.inl h)

instance : IsTrans PublicId (Outranked score object) := by
  refine ⟨fun a b c hab hbc => ?_⟩
  rcases hab with hab | ⟨hab, hab'⟩ <;> rcases hbc with hbc | ⟨hbc, hbc'⟩
  · exact .inl (hab.trans hbc)
  · exact .inl (hbc ▸ hab)
  · exact .inl (hab ▸ hbc)
  · exact .inr ⟨hab.trans hbc, IsTrans.trans a b c hab' hbc'⟩

instance : Std.Antisymm (Outranked score object) := by
  refine ⟨fun a b hab hba => ?_⟩
  rcases hab with hab | ⟨heq, hab⟩ <;> rcases hba with hba | ⟨heq', hba⟩
  · omega
  · omega
  · omega
  · exact hab.antisymm hba

/-- The group are the highest nodes of the universe. -/
theorem rendezvousGroup_eq (score : String → PublicId → ℕ) (object : String) (U : List PublicId)
    (size : ℕ) : rendezvousGroup score object U size = highest (Outranked score object) size U := by
  have hsort := map_insertionSort (Outranked score object)
    (fun a b : ℕ × PublicId => a.1 < b.1 ∨ a.1 = b.1 ∧ a.2.Le b.2)
    (fun node => (score object node, node)) U fun a _ b _ => Iff.rfl
  unfold rendezvousGroup highest
  dsimp only
  rw [← hsort, ← map_reverse, ← map_take, map_map]
  exact map_id _

end

/-- **A group depends on the set of nodes only, and on few of them.**  It has `size` different nodes
of the universe, or all of them if there are fewer; a node outside it can leave without a change,
and a node that joins displaces at most one, for itself. -/
theorem rendezvousGroup_stable (score : String → PublicId → ℕ) (object : String) (size : ℕ)
    {U : List PublicId} (hU : U.Nodup) : (∀ W : List PublicId, W.Perm U →
      rendezvousGroup score object W size = rendezvousGroup score object U size) ∧
    (rendezvousGroup score object U size).length = min size U.length ∧
    (rendezvousGroup score object U size).Nodup ∧ rendezvousGroup score object U size ⊆ U ∧
    (∀ x ∉ rendezvousGroup score object U size, ∀ y,
      y ∈ rendezvousGroup score object (U.erase x) size ↔ y ∈ rendezvousGroup score object U size) ∧
    ∀ x ∉ U, rendezvousGroup score object (x :: U) size ⊆ x :: rendezvousGroup score object U size ∧
      ((rendezvousGroup score object U size).filter
        (· ∉ rendezvousGroup score object (x :: U) size)).length ≤ 1 := by
  simp only [rendezvousGroup_eq]
  exact ⟨fun W hW => highest_perm hW, length_highest, nodup_highest hU,
    highest_subset, fun x hx y => mem_highest_erase hU hx,
    fun x hx => ⟨highest_cons_subset hU hx, length_displaced_le hU hx⟩⟩

/-- Three nodes, two of them with the same score. -/
theorem rendezvousGroup_stable_tie : [(⟨1⟩ : PublicId), ⟨2⟩, ⟨3⟩].Nodup ∧
      (rendezvousGroup (fun _ node => if node = ⟨1⟩ then 7 else 5) "db"
        [⟨1⟩, ⟨2⟩, ⟨3⟩] 2).length = 2 :=
  ⟨by decide, (rendezvousGroup_stable (fun _ node => if node = ⟨1⟩ then 7 else 5) "db" 2
    (U := [⟨1⟩, ⟨2⟩, ⟨3⟩]) (by decide)).2.1⟩

end RandallFlare
