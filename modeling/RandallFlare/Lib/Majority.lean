import Mathlib.Data.Finset.Card
import Mathlib.Data.List.Nodup
import Mathlib.Tactic

/-!
# Majorities of a duplicate-free group

A quorum of a group is a set of at least `length / 2 + 1` of its members.  Any two quorums of a
duplicate-free group meet, which is all that the arguments about votes and acknowledgements use.
-/

namespace Majority

variable {N : Type*} [DecidableEq N] {group : List N}

/-- `Q` is a majority of `group`. -/
def Quorum (group : List N) (Q : Finset N) : Prop :=
  Q ⊆ group.toFinset ∧ group.length / 2 + 1 ≤ Q.card

/-- Two majorities of one group have a member in common. -/
theorem Quorum.meet (hnd : group.Nodup) {Q R : Finset N} (hQ : Quorum group Q)
    (hR : Quorum group R) : ∃ v, v ∈ Q ∧ v ∈ R := by
  have hcard : group.toFinset.card = group.length := List.toFinset_card_of_nodup hnd
  have hlt : group.toFinset.card < Q.card + R.card := by
    have := hQ.2
    have := hR.2
    omega
  obtain ⟨v, hv⟩ := Finset.inter_nonempty_of_card_lt_card_add_card hQ.1 hR.1 hlt
  exact ⟨v, (Finset.mem_inter.1 hv).1, (Finset.mem_inter.1 hv).2⟩

/-- A duplicate-free list of members that is long enough is a quorum. -/
theorem Quorum.of_list (votes : List N) (hnd : votes.Nodup)
    (hsub : ∀ v ∈ votes, v ∈ group) (hlen : group.length / 2 + 1 ≤ votes.length) :
    Quorum group votes.toFinset := by
  refine ⟨fun v hv => List.mem_toFinset.2 (hsub v (List.mem_toFinset.1 hv)), ?_⟩
  rw [List.toFinset_card_of_nodup hnd]
  exact hlen

end Majority
