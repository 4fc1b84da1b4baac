import RandallFlare.Lib.SortedMap
import Mathlib.Data.String.Basic

/-!
# The request budget of the cluster

`Node::admit_public_request` of `rf/src/node.rs`: the signed limit of requests per minute is divided
among the public nodes, and each counts the requests of the minute it is in.  The remainder of the
division goes to the first nodes in the order of their identities, one each.

* `PublicGate`: what a node reads and counts; `publicNodes`, `localLimit`, `admitPublicRequest`;
* `Gates`, `Gates.admitted`: the requests that the nodes of a cluster admit;
* `Gates.budget`: the cluster keeps to the limit.
-/

namespace RandallFlare

open List

/-- What a node reads and writes when it admits requests. -/
structure PublicGate where
  idHex : String
  /-- `cfg.public`. -/
  isPublic : Bool
  /-- The live peers, and whether each is public. -/
  peers : SortedMap String Bool
  /-- The minute that is counted, and the requests admitted in it. -/
  window : ℕ × ℕ := (0, 0)

namespace PublicGate

/-- The identities of the public nodes in their order; the node itself if there are none. -/
def publicNodes (g : PublicGate) : List String :=
  let others := g.peers.filter fun _ isPublic => isPublic
  let nodes := if g.isPublic then others.insert g.idHex true else others
  let nodes := if nodes.entries.isEmpty then nodes.insert g.idHex true else nodes
  nodes.entries.map Prod.fst

/-- What one of `count` nodes gets of the limit, by its rank. -/
def share (limit count rank : ℕ) : ℕ := limit / count + if rank < limit % count then 1 else 0

def localLimit (limit : ℕ) (g : PublicGate) : ℕ :=
  share limit g.publicNodes.length ((g.publicNodes.findIdx? (· = g.idHex)).getD 0)

/-- `admit_public_request`, with the limit of the policy. -/
def admitPublicRequest (limit nowMs : ℕ) (g : PublicGate) : PublicGate × Bool :=
  let minute := nowMs / 60000
  let window := if g.window.1 ≠ minute then (minute, 0) else g.window
  if g.localLimit limit ≤ window.2 then ({ g with window }, false)
  else ({ g with window := (window.1, window.2 + 1) }, true)

/-- The times of the requests that one node admits. -/
def admittedTimes (limit : ℕ) : PublicGate → List ℕ → List ℕ
  | _, [] => []
  | g, nowMs :: times =>
      let result := g.admitPublicRequest limit nowMs
      if result.2 then nowMs :: admittedTimes limit result.1 times
      else admittedTimes limit result.1 times

end PublicGate

/-- A request to a node of the cluster. -/
structure PublicCall where
  node : String
  nowMs : ℕ
  deriving DecidableEq

/-- The nodes of a cluster. -/
abbrev Gates := String → PublicGate

/-- The requests that are admitted, in their order. -/
def Gates.admitted (limit : ℕ) : Gates → List PublicCall → List PublicCall
  | _, [] => []
  | gates, call :: calls =>
      let result := (gates call.node).admitPublicRequest limit call.nowMs
      let rest := Gates.admitted limit (Function.update gates call.node result.1) calls
      if result.2 then call :: rest else rest

/-! ### Shares -/

namespace PublicGate

theorem sum_range_share (limit count n : ℕ) : ((range n).map (share limit count)).sum =
      n * (limit / count) + min n (limit % count) := by
  induction n with
  | zero => simp
  | succ n ih =>
    rw [range_succ, map_append, sum_append, ih, map_singleton, sum_singleton, share, Nat.succ_mul]
    split_ifs <;> omega

theorem sum_share (limit : ℕ) {count : ℕ} (hcount : 0 < count) :
    ((range count).map (share limit count)).sum = limit := by
  rw [sum_range_share, Nat.min_eq_right (Nat.mod_lt limit hcount).le]
  exact Nat.div_add_mod limit count

theorem localLimit_eq {limit : ℕ} {g : PublicGate} (hself : g.idHex ∈ g.publicNodes) :
    g.localLimit limit = share limit g.publicNodes.length (g.publicNodes.idxOf g.idHex) := by
  have hidx : g.publicNodes.findIdx? (· = g.idHex) = some (g.publicNodes.idxOf g.idHex) := by
    rw [findIdx?_eq_some_iff_getElem]
    refine ⟨idxOf_lt_length_iff.2 hself, by simp, fun j hj => ?_⟩
    have := not_of_lt_findIdx (p := (· == g.idHex)) hj
    simpa using this
  rw [localLimit, hidx, Option.getD_some]

theorem sum_map_share (limit : ℕ) {nodes : List String} (hnodup : nodes.Nodup) (hne : nodes ≠ []) :
    (nodes.map fun id => share limit nodes.length (nodes.idxOf id)).sum = limit := by
  have hrange : nodes.map (fun id => share limit nodes.length (nodes.idxOf id)) =
      (range nodes.length).map (share limit nodes.length) := by
    refine ext_getElem (by simp) fun i hi _ => ?_
    simp [hnodup.idxOf_getElem]
  rw [hrange]
  exact sum_share limit (length_pos_iff.2 hne)

/-! ### One node -/

@[simp] theorem localLimit_admitPublicRequest (limit nowMs : ℕ) (g : PublicGate) :
    (g.admitPublicRequest limit nowMs).1.localLimit limit = g.localLimit limit := by
  unfold admitPublicRequest
  dsimp only
  split_ifs <;> rfl

theorem admitPublicRequest_cases (limit nowMs : ℕ) (g : PublicGate) :
    let result := g.admitPublicRequest limit nowMs
    result.1.window.1 = nowMs / 60000 ∧
      ((result.2 = false ∧
          result.1.window.2 = if g.window.1 ≠ nowMs / 60000 then 0 else g.window.2) ∨
        (result.2 ∧ result.1.window.2 ≤ g.localLimit limit ∧
          result.1.window.2 =
            (if g.window.1 ≠ nowMs / 60000 then 0 else g.window.2) + 1)) := by
  unfold admitPublicRequest
  dsimp only
  split_ifs with hminute hlimit hlimit
  · exact ⟨rfl, .inl ⟨rfl, rfl⟩⟩
  · exact ⟨rfl, .inr ⟨rfl, not_le.1 hlimit, rfl⟩⟩
  · exact ⟨not_not.1 hminute, .inl ⟨rfl, rfl⟩⟩
  · exact ⟨not_not.1 hminute, .inr ⟨rfl, not_le.1 hlimit, rfl⟩⟩

/-- A node admits what is left of its share in the minute it counts, and its share in a later
one. -/
theorem countP_admittedTimes_le (limit : ℕ) (g : PublicGate) {times : List ℕ}
    (hsorted : times.Pairwise (· ≤ ·)) (hlater : ∀ t ∈ times, g.window.1 ≤ t / 60000) (minute : ℕ) :
    (g.admittedTimes limit times).countP (· / 60000 = minute) ≤
      if minute = g.window.1 then g.localLimit limit - g.window.2
      else if minute < g.window.1 then 0 else g.localLimit limit := by
  induction times generalizing g with
  | nil => simp [admittedTimes]
  | cons t times ih =>
    obtain ⟨ht, hsorted⟩ := pairwise_cons.1 hsorted
    have hnow := hlater t mem_cons_self
    obtain ⟨hwindow, hcount⟩ := g.admitPublicRequest_cases limit t
    have ih := ih (g.admitPublicRequest limit t).1 hsorted fun u hu => by
      rw [hwindow]
      exact Nat.div_le_div_right (ht u hu)
    rw [hwindow, localLimit_admitPublicRequest] at ih
    rcases hcount with ⟨hno, hcount⟩ | ⟨hyes, hle, hcount⟩
    · rw [admittedTimes, if_neg (by simp [hno])]
      rw [hcount] at ih
      split_ifs at ih ⊢ <;> omega
    · rw [admittedTimes, if_pos hyes, countP_cons]
      rw [hcount] at ih hle
      simp only [decide_eq_true_eq]
      split_ifs at ih hle ⊢ <;> omega

end PublicGate

/-! ### The cluster -/

namespace Gates

variable {limit : ℕ}

theorem admitted_sublist (gates : Gates) (calls : List PublicCall) :
    (gates.admitted limit calls).Sublist calls := by
  induction calls generalizing gates with
  | nil => exact Sublist.refl _
  | cons call calls ih =>
    simp only [admitted]
    split_ifs
    · exact (ih _).cons_cons call
    · exact (ih _).cons call

theorem admitted_filter (gates : Gates) (calls : List PublicCall) (id : String) :
    ((gates.admitted limit calls).filter (·.node = id)).map PublicCall.nowMs =
      (gates id).admittedTimes limit ((calls.filter (·.node = id)).map PublicCall.nowMs) := by
  induction calls generalizing gates with
  | nil => rfl
  | cons call calls ih =>
    by_cases hid : call.node = id
    · subst hid
      have hself : ∀ l : List PublicCall, (call :: l).filter (fun c => c.node = call.node) =
          call :: l.filter (fun c => c.node = call.node) := fun l => by simp
      have ih := ih (Function.update gates call.node
        ((gates call.node).admitPublicRequest limit call.nowMs).1)
      rw [Function.update_self] at ih
      rw [hself, map_cons, PublicGate.admittedTimes, ← ih]
      simp only [admitted]
      split_ifs
      · rw [hself, map_cons]
      · rfl
    · have ih := ih (Function.update gates call.node
        ((gates call.node).admitPublicRequest limit call.nowMs).1)
      rw [Function.update_of_ne (Ne.symm hid)] at ih
      rw [filter_cons_of_neg (by simpa using hid), ← ih]
      simp only [admitted]
      split_ifs
      · rw [filter_cons_of_neg (by simpa using hid)]
      · rfl

variable {nodes : List String} {calls : List PublicCall} {gates : Gates}

theorem length_eq_sum_filter (hnodup : nodes.Nodup) (hcalls : ∀ call ∈ calls, call.node ∈ nodes) :
    calls.length = (nodes.map fun id => (calls.filter (·.node = id)).length).sum := by
  induction calls with
  | nil => simp
  | cons call calls ih =>
    have hcount : ∀ l : List String,
        (l.map fun id => if call.node = id then 1 else 0).sum = l.count call.node := by
      intro l
      induction l with
      | nil => rfl
      | cons id l ih =>
        rw [map_cons, sum_cons, ih, count_cons, Nat.add_comm]
        by_cases hid : call.node = id
        · simp [hid]
        · simp [hid, Ne.symm hid]
    have hone := (hcount nodes).trans
      (count_eq_one_of_mem hnodup (hcalls call mem_cons_self))
    have hcons : ∀ id, ((call :: calls).filter (·.node = id)).length =
        (if call.node = id then 1 else 0) + (calls.filter (·.node = id)).length := by
      intro id
      by_cases hid : call.node = id
      · simp [hid, Nat.add_comm]
      · simp [hid]
    simp only [hcons, sum_map_add, hone]
    rw [length_cons, ih fun c hc => hcalls c (mem_cons_of_mem call hc), Nat.add_comm]

/-- Every node counts the same public nodes, itself among them, and has admitted nothing yet. -/
structure Fresh (gates : Gates) (nodes : List String) : Prop where
  idHex : ∀ id ∈ nodes, (gates id).idHex = id
  seen : ∀ id ∈ nodes, (gates id).publicNodes = nodes
  window : ∀ id ∈ nodes, (gates id).window = (0, 0)

theorem length_filter_le (hfresh : gates.Fresh nodes) {id : String} (hid : id ∈ nodes)
    (hsorted : ((calls.filter (·.node = id)).map PublicCall.nowMs).Pairwise (· ≤ ·)) (minute : ℕ) :
    (((gates.admitted limit calls).filter (·.nowMs / 60000 = minute)).filter
      (·.node = id)).length ≤ (gates id).localLimit limit := by
  have hle := PublicGate.countP_admittedTimes_le limit (gates id) hsorted
    (fun t _ => by simp [hfresh.window id hid]) minute
  rw [← admitted_filter, countP_map, countP_eq_length_filter, hfresh.window id hid]
    at hle
  rw [filter_comm]
  refine hle.trans ?_
  split_ifs <;> omega

/-- **The cluster keeps to the limit.**  If all public nodes see the same public nodes and the time
of each does not go back, the nodes' limits add up to the signed limit, and no more requests than
that are admitted in any minute. -/
theorem budget {nodes : List String} (hne : nodes ≠ [])
    (hsorted : nodes.Pairwise (· < ·)) (hfresh : gates.Fresh nodes) {calls : List PublicCall}
    (hcalls : ∀ call ∈ calls, call.node ∈ nodes)
    (htime : ∀ id ∈ nodes, ((calls.filter (·.node = id)).map PublicCall.nowMs).Pairwise (· ≤ ·)) :
    (nodes.map fun id => (gates id).localLimit limit).sum = limit ∧
      ∀ minute, ((gates.admitted limit calls).filter (·.nowMs / 60000 = minute)).length ≤
        limit := by
  have hnodup : nodes.Nodup := hsorted.imp ne_of_lt
  have hsum : (nodes.map fun id => (gates id).localLimit limit).sum = limit := by
    refine Eq.trans (congrArg sum (map_congr_left fun id hid => ?_))
      (PublicGate.sum_map_share limit hnodup hne)
    have hself : (gates id).idHex ∈ (gates id).publicNodes := by
      rw [hfresh.idHex id hid, hfresh.seen id hid]
      exact hid
    rw [PublicGate.localLimit_eq hself, hfresh.idHex id hid, hfresh.seen id hid]
  refine ⟨hsum, fun minute => ?_⟩
  rw [length_eq_sum_filter hnodup fun call hcall => hcalls call
    ((admitted_sublist gates calls).subset (mem_of_mem_filter hcall))]
  calc _ ≤ (nodes.map fun id => (gates id).localLimit limit).sum :=
        sum_le_sum fun id hid => length_filter_le hfresh hid (htime id hid) minute
    _ = limit := hsum

/-- Two public nodes, each of which knows the other. -/
def twoGates : Gates := fun id =>
  ⟨id, true, (SortedMap.empty.insert "a" true).insert "b" true, (0, 0)⟩

/-- A limit of three: the first node gets two, the second one. -/
theorem budget_twoGates : (["a", "b"].map fun id => (twoGates id).localLimit 3).sum = 3 ∧
      ((twoGates.admitted 3 [⟨"a", 0⟩, ⟨"b", 5⟩, ⟨"a", 9⟩, ⟨"b", 60000⟩]).filter
        (·.nowMs / 60000 = 0)).length ≤ 3 := by
  have hfresh : twoGates.Fresh ["a", "b"] := by
    refine ⟨by simp [twoGates], fun id hid => ?_, by simp [twoGates]⟩
    fin_cases hid <;> decide
  have hcalls : ∀ call ∈ ([⟨"a", 0⟩, ⟨"b", 5⟩, ⟨"a", 9⟩, ⟨"b", 60000⟩] : List PublicCall),
      call.node ∈ ["a", "b"] := by decide
  obtain ⟨hsum, hminute⟩ := budget (by simp) (by decide) hfresh hcalls (by decide)
  exact ⟨hsum, hminute 0⟩

end Gates

end RandallFlare
