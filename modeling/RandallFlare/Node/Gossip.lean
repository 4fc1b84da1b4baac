import RandallFlare.Lib.SortedMap
import Mathlib.Data.String.Basic
import Mathlib.Order.Bounds.Basic

/-!
# The claims of a peer's gossip state

What the observer of `rf/src/gossip.rs` does with the claims that a peer publishes.  A peer numbers
its writes, and the observer remembers for every peer and generation the highest version it has
seen.  The keys are visited in their own order while the watermark rises, so that a claim is passed
over if a key before it has been written later.

* `scanClaims`: the loop over the claim keys; `observePeer`: with the watermark of the peer;
* `missesNothing_iff`: when no new claim is passed over.
-/

namespace RandallFlare

open List

/-- A value of a gossip state. -/
structure VersionedValue where
  value : String
  version : ℕ
  isDeleted : Bool
  deriving DecidableEq

abbrev PeerState := SortedMap String VersionedValue

/-- The highest version processed, for each peer and generation. -/
abbrev Watermarks := String × ℕ → Option ℕ

def claimKeyStart : String := "rf:claim:"

namespace PeerState

/-- The keys that start with `start`, in their order. -/
def iterPrefix (state : PeerState) (start : String) : List (String × VersionedValue) :=
  state.entries.filter fun e => start.toList.isPrefixOf e.1.toList

def claims (state : PeerState) : List (String × VersionedValue) := state.iterPrefix claimKeyStart

/-- One turn of the loop: what has been collected, and the highest version so far. -/
def scanKey (acc : List (String × VersionedValue) × ℕ) (e : String × VersionedValue) :
    List (String × VersionedValue) × ℕ :=
  (if acc.2 < e.2.version ∧ e.2.isDeleted = false then acc.1 ++ [e] else acc.1,
    max acc.2 e.2.version)

def scanClaims (state : PeerState) (maxSeen : ℕ) : List (String × VersionedValue) × ℕ :=
  state.claims.foldl scanKey ([], maxSeen)

/-- The texts of the claims of a peer to look at, and the watermarks after. -/
def observePeer (state : PeerState) (seen : Watermarks) (id : String × ℕ) :
    List String × Watermarks :=
  ((state.scanClaims ((seen id).getD 0)).1.map fun e => e.2.value,
    Function.update seen id (some (state.scanClaims ((seen id).getD 0)).2))

/-! ### The loop -/

variable {l out : List (String × VersionedValue)} {e : String × VersionedValue} {w : ℕ}

/-- The watermark is the highest of all versions. -/
theorem isGreatest_scan (l out : List (String × VersionedValue)) (w : ℕ) :
    IsGreatest {v | v = w ∨ ∃ e ∈ l, v = e.2.version} (l.foldl scanKey (out, w)).2 := by
  induction l generalizing out w with
  | nil => exact ⟨.inl rfl, by rintro v (rfl | ⟨e, he, -⟩); exacts [le_rfl, nomatch he]⟩
  | cons a l ih =>
    obtain ⟨hmem, hle⟩ := ih (scanKey (out, w) a).1 (max w a.2.version)
    refine ⟨?_, ?_⟩
    · rcases hmem with h | ⟨e, he, h⟩
      · rcases max_choice w a.2.version with hm | hm
        · exact .inl (h.trans hm)
        · exact .inr ⟨a, mem_cons_self, h.trans hm⟩
      · exact .inr ⟨e, mem_cons_of_mem a he, h⟩
    · rintro v (rfl | ⟨e, he, rfl⟩)
      · exact (le_max_left _ _).trans (hle (.inl rfl))
      · rcases mem_cons.1 he with rfl | he
        · exact (le_max_right _ _).trans (hle (.inl rfl))
        · exact hle (.inr ⟨e, he, rfl⟩)

/-- **What the loop collects**: the keys of a version above the watermark and above all that come
before. -/
theorem mem_scan : e ∈ (l.foldl scanKey (out, w)).1 ↔ e ∈ out ∨ e.2.isDeleted = false ∧
    w < e.2.version ∧ ∃ before after, l = before ++ e :: after ∧
      ∀ a ∈ before, a.2.version < e.2.version := by
  induction l generalizing out w with
  | nil => simp
  | cons a l ih =>
    rw [foldl_cons, scanKey, ih]
    constructor
    · rintro (hmem | ⟨hdel, hlt, before, after, rfl, hbefore⟩)
      · split_ifs at hmem with hnew
        · rcases mem_append.1 hmem with hmem | hmem
          · exact .inl hmem
          · obtain rfl := mem_singleton.1 hmem
            exact .inr ⟨hnew.2, hnew.1, [], l, rfl, by simp⟩
        · exact .inl hmem
      · refine .inr ⟨hdel, (le_max_left _ _).trans_lt hlt, a :: before, after, rfl, ?_⟩
        intro b hb
        rcases mem_cons.1 hb with rfl | hb
        · exact (le_max_right _ _).trans_lt hlt
        · exact hbefore b hb
    · rintro (hmem | ⟨hdel, hlt, before, after, hl, hbefore⟩)
      · left
        split_ifs
        · exact mem_append_left _ hmem
        · exact hmem
      · -- the key is the first one, or one of those that follow
        rcases before with _ | ⟨b, before⟩
        · obtain ⟨rfl, rfl⟩ := cons.inj hl
          left
          rw [if_pos ⟨hlt, hdel⟩]
          exact mem_append_right _ (mem_singleton_self a)
        · obtain ⟨rfl, rfl⟩ := cons.inj hl
          exact .inr ⟨hdel, max_lt hlt (hbefore a mem_cons_self), before, after, rfl,
            fun b hb => hbefore b (mem_cons_of_mem a hb)⟩

/-! ### What is passed over -/

/-- Every claim above the watermark is collected, and the watermark becomes the highest version. -/
def MissesNothing (state : PeerState) (seen : Watermarks) (id : String × ℕ) : Prop :=
  (∀ e ∈ state.claims, e.2.isDeleted = false → (seen id).getD 0 < e.2.version →
    e ∈ (state.scanClaims ((seen id).getD 0)).1) ∧
  ∃ mark, (state.observePeer seen id).2 id = some mark ∧
    IsGreatest {v | v = (seen id).getD 0 ∨ ∃ e ∈ state.claims, v = e.2.version} mark

/-- The keys before a claim that is new were written before it. -/
def InWriteOrder (state : PeerState) (maxSeen : ℕ) : Prop :=
  ∀ before e after, state.claims = before ++ e :: after → e.2.isDeleted = false →
    maxSeen < e.2.version → ∀ a ∈ before, a.2.version < e.2.version

theorem nodup_claims (state : PeerState) : state.claims.Nodup :=
  (state.sorted.imp fun h => fun heq => h.ne (congrArg Prod.fst heq)).filter _

/-- **When the scan misses nothing.** -/
theorem missesNothing_iff (state : PeerState) (seen : Watermarks) (id : String × ℕ) :
    state.MissesNothing seen id ↔ state.InWriteOrder ((seen id).getD 0) := by
  have hmark : ∃ mark, (state.observePeer seen id).2 id = some mark ∧
      IsGreatest {v | v = (seen id).getD 0 ∨ ∃ e ∈ state.claims, v = e.2.version} mark :=
    ⟨_, Function.update_self _ _ _, isGreatest_scan state.claims [] _⟩
  constructor
  · rintro ⟨hall, -⟩ before e after hsplit hdel hlt
    have he : e ∈ state.claims := by
      rw [hsplit]
      exact mem_append_right _ mem_cons_self
    rcases mem_scan.1 (hall e he hdel hlt) with hno | ⟨-, -, before', after', hsplit', hbefore⟩
    · cases hno
    · -- a key occurs once, so that it has one list of keys before it
      have hnodup := state.nodup_claims
      rw [hsplit, nodup_middle, nodup_cons, mem_append, not_or] at hnodup
      obtain ⟨rfl, -⟩ := (append_cons_inj_of_notMem hnodup.1.1 hnodup.1.2).1
        (hsplit.symm.trans hsplit')
      exact hbefore
  · intro horder
    refine ⟨fun e he hdel hlt => ?_, hmark⟩
    obtain ⟨before, after, hsplit⟩ := append_of_mem he
    exact mem_scan.2 (.inr ⟨hdel, hlt, before, after, hsplit,
      horder before e after hsplit hdel hlt⟩)

/-- Two claims, the second task written before the first. -/
def swappedClaims : PeerState :=
  (SortedMap.empty.insert "rf:claim:b" ⟨"B", 3, false⟩).insert "rf:claim:a" ⟨"A", 5, false⟩

/-- The first scan collects one of the two only. -/
theorem swappedClaims_misses : ¬ swappedClaims.MissesNothing (fun _ => none) ("peer", 1) := by
  rintro ⟨hall, -⟩
  exact absurd (hall ("rf:claim:b", ⟨"B", 3, false⟩)) (by decide +kernel)

end PeerState

end RandallFlare
