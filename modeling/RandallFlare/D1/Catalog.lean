import RandallFlare.Kv.Namespace
import RandallFlare.Quorum.Rendezvous

/-!
# Where a database lives

The replica group of a database is a record of the replicated key-value store, written by
`ensure_database` or `ensure_database_on` in `rf/src/d1.rs` when a node sees none, and read by each
node's manager when it starts its driver.  Writing is a check followed by a put, on a store where
the last writer wins, so two nodes that see no record may both write one.

* `Catalog`: the nodes, every version of the record ever written, and every driver ever started;
* `groupsAgree_of_converged`: the drivers agree when all nodes that create the record see the same
  universe, as the source asks of its callers;
* `splitRun`: two nodes that do not see each other end up with a group each.

What is not part of the repository is a parameter: the two hashes and the JSON coding.
-/

namespace RandallFlare

/-- The record of a database. -/
structure DbMeta where
  group : List PublicId
  createdMs : ℕ
  deriving DecidableEq

/-- What the catalog takes from libraries: SHA-256 as a score and as a tie-breaker, and the JSON
coding of a record. -/
structure Externals where
  score : String → PublicId → ℕ
  valueHash : ValueHash
  encode : DbMeta → Bytes
  decode : Bytes → Except String DbMeta
  decode_encode : ∀ m, decode (encode m) = .ok m

/-- The key of a database's record. -/
def kvKey (name : String) : String := "d1/" ++ name

/-- A node: its store, its view of the other nodes, and whether it runs a driver of the
database. -/
structure Host where
  kv : KvNode
  peers : List PublicId
  registered : Bool

namespace Host

/-- Create the record on the given universe if the node sees none; the clock is read when looking
for the record, for the record itself and for its timestamp. -/
def ensureDatabaseOn (X : Externals) (h : Host) (me : PublicId) (name : String)
    (univ : List PublicId) (nowMs createdMs wallMs : ℕ) : Except String (Host × List PublicId) :=
  match h.kv.kvGet (kvKey name) nowMs with
  | some raw => (X.decode raw).map fun m => (h, m.group)
  | none =>
      if sortDedup univ = [] then .error "D1 replica universe cannot be empty"
      else
        let group := rendezvousGroup X.score name (sortDedup univ) 3
        .ok ({ h with
          kv := h.kv.kvPut me (kvKey name) (some (X.encode ⟨group, createdMs⟩)) none wallMs }, group)

/-- Create the record on the nodes this one knows. -/
def ensureDatabase (X : Externals) (h : Host) (me : PublicId) (name : String)
    (nowMs createdMs wallMs : ℕ) : Except String (Host × List PublicId) :=
  h.ensureDatabaseOn X me name (me :: h.peers) nowMs createdMs wallMs

/-- One pass of the manager over the database: the group of the driver it starts, if any; `opens`
says whether the driver could be opened. -/
def manage (X : Externals) (h : Host) (me : PublicId) (name : String) (nowMs : ℕ) (opens : Bool) :
    Host × Option (List PublicId) :=
  match h.kv.kvGet (kvKey name) nowMs with
  | none => (h, none)
  | some raw =>
      match X.decode raw with
      | .error _ => (h, none)
      | .ok m =>
          if me ∉ m.group ∨ h.registered ∨ ¬ opens then (h, none)
          else ({ h with registered := true }, some m.group)

end Host

/-- All nodes, the versions of the record ever written, and the drivers ever started, each with the
node it runs on and the group it uses. -/
structure Catalog where
  hosts : PublicId → Host
  sent : List KvEntry
  drivers : List (PublicId × List PublicId)

/-- What happens to one node. -/
inductive CatalogEvent
  /-- Gossip changes its view. -/
  | view (peers : List PublicId)
  | ensure (nowMs createdMs wallMs : ℕ)
  | ensureOn (univ : List PublicId) (nowMs createdMs wallMs : ℕ)
  /-- It merges a version another node had. -/
  | merge (e : KvEntry) (wallMs : ℕ)
  | manage (nowMs : ℕ) (opens : Bool)
  deriving DecidableEq

namespace Catalog

/-- Nodes that know nothing. -/
def init : Catalog := ⟨fun _ => ⟨KvNode.new, [], false⟩, [], []⟩

/-- The node `id` becomes `h`; what it now holds may reach any other. -/
def put (name : String) (s : Catalog) (id : PublicId) (h : Host) : Catalog :=
  { s with
    hosts := Function.update s.hosts id h
    sent := s.sent ++ (h.kv.ns.entry (kvKey name)).toList }

/-- A call that failed changes nothing. -/
def putResult (name : String) (s : Catalog) (id : PublicId) :
    Except String (Host × List PublicId) → Catalog
  | .ok out => s.put name id out.1
  | .error _ => s

/-- One event of a run, for one database. -/
def step (X : Externals) (name : String) (s : Catalog) (ev : PublicId × CatalogEvent) :
    Option Catalog :=
  let h := s.hosts ev.1
  match ev.2 with
  | .view peers => some (s.put name ev.1 { h with peers := peers })
  | .ensure nowMs createdMs wallMs =>
      some (s.putResult name ev.1 (h.ensureDatabase X ev.1 name nowMs createdMs wallMs))
  | .ensureOn univ nowMs createdMs wallMs =>
      some (s.putResult name ev.1 (h.ensureDatabaseOn X ev.1 name univ nowMs createdMs wallMs))
  | .merge e wallMs =>
      if e ∈ s.sent then
        some (s.put name ev.1
          { h with kv := h.kv.kvMergeRemote X.valueHash (kvKey name) e wallMs })
      else none
  | .manage nowMs opens =>
      let out := h.manage X ev.1 name nowMs opens
      some { s.put name ev.1 out.1 with
        drivers := s.drivers ++ (out.2.map fun group => (ev.1, group)).toList }

/-- All drivers ever started use one group. -/
def GroupsAgree (s : Catalog) : Prop := ∀ p ∈ s.drivers, ∀ q ∈ s.drivers, p.2 = q.2

instance (s : Catalog) : Decidable s.GroupsAgree :=
  inferInstanceAs (Decidable (∀ p ∈ s.drivers, ∀ q ∈ s.drivers, p.2 = q.2))

/-- A node that sees no record at `nowMs` is about to create one on `univ`: those are the nodes
of `U`. -/
def CreatesOn (name : String) (U : List PublicId) (h : Host) (univ : List PublicId) (nowMs : ℕ) :
    Prop :=
  h.kv.kvGet (kvKey name) nowMs = none → univ ⊆ U ∧ U ⊆ univ

instance (name : String) (U : List PublicId) (h : Host) (univ : List PublicId) (nowMs : ℕ) :
    Decidable (CreatesOn name U h univ nowMs) :=
  inferInstanceAs (Decidable (_ → _))

/-- Membership has converged to `U` wherever the event creates the record. -/
def Converged (name : String) (U : List PublicId) (s : Catalog) (ev : PublicId × CatalogEvent) :
    Prop :=
  match ev.2 with
  | .ensure nowMs _ _ => CreatesOn name U (s.hosts ev.1) (ev.1 :: (s.hosts ev.1).peers) nowMs
  | .ensureOn univ nowMs _ _ => CreatesOn name U (s.hosts ev.1) univ nowMs
  | _ => True

instance (name : String) (U : List PublicId) (s : Catalog) (ev : PublicId × CatalogEvent) :
    Decidable (Converged name U s ev) := by
  unfold Converged
  split <;> infer_instance

/-! ### Agreement -/

section

variable {X : Externals} {name : String} {G : List PublicId} {s t : Catalog}

/-- The entry is a visible record of the group `G`. -/
def Records (X : Externals) (G : List PublicId) (e : KvEntry) : Prop :=
  ∃ createdMs, e.value = some (X.encode ⟨G, createdMs⟩)

/-- Every version of the record and every driver has the group `G`. -/
structure OneGroup (X : Externals) (name : String) (G : List PublicId) (s : Catalog) : Prop where
  hosts : ∀ id e, (s.hosts id).kv.ns.entry (kvKey name) = some e → Records X G e
  sent : ∀ e ∈ s.sent, Records X G e
  drivers : ∀ p ∈ s.drivers, p.2 = G

section

variable (h : OneGroup X name G s) {id : PublicId}

include h

theorem OneGroup.decode_get {nowMs : ℕ} {raw : Bytes}
    (hraw : (s.hosts id).kv.kvGet (kvKey name) nowMs = some raw) :
    ∃ createdMs, X.decode raw = .ok ⟨G, createdMs⟩ := by
  obtain ⟨e, he, hvis⟩ := Option.bind_eq_some_iff.1 hraw
  obtain ⟨createdMs, hval⟩ := h.hosts id e he
  obtain ⟨hv, -⟩ := Option.filter_eq_some_iff.1 hvis
  rw [hval, Option.some.injEq] at hv
  exact ⟨createdMs, by rw [← hv, X.decode_encode]⟩

theorem OneGroup.put {d : Host} (hd : ∀ e, d.kv.ns.entry (kvKey name) = some e → Records X G e) :
    OneGroup X name G (s.put name id d) where
  hosts w e he := by
    by_cases hw : w = id
    · subst hw
      exact hd e (by simpa [Catalog.put] using he)
    · exact h.hosts w e (by simpa [Catalog.put, Function.update_of_ne hw] using he)
  sent e he := by
    rcases List.mem_append.1 he with he | he
    · exact h.sent e he
    · exact hd e (Option.mem_toList.1 he)
  drivers := h.drivers

theorem OneGroup.ensureDatabaseOn {univ : List PublicId}
    {nowMs createdMs wallMs : ℕ} (hG : (s.hosts id).kv.kvGet (kvKey name) nowMs = none →
      rendezvousGroup X.score name (sortDedup univ) 3 = G) : OneGroup X name G (s.putResult name id
      ((s.hosts id).ensureDatabaseOn X id name univ nowMs createdMs wallMs)) := by
  unfold Host.ensureDatabaseOn
  split
  · rename_i raw hraw
    obtain ⟨c, hdec⟩ := h.decode_get hraw
    rw [hdec]
    exact h.put (h.hosts id)
  · rename_i hnone
    split_ifs
    · exact h
    · refine h.put fun e he => ⟨createdMs, ?_⟩
      rw [KvNode.kvPut, Namespace.entry_put_self, Option.some.injEq] at he
      rw [← he, hG hnone]

theorem OneGroup.manage (id : PublicId) (nowMs : ℕ) (opens : Bool) :
    ((s.hosts id).manage X id name nowMs opens).1.kv = (s.hosts id).kv ∧
      ∀ group, ((s.hosts id).manage X id name nowMs opens).2 = some group → group = G := by
  unfold Host.manage
  split
  · exact ⟨rfl, fun _ hg => by cases hg⟩
  · rename_i raw hraw
    obtain ⟨c, hdec⟩ := h.decode_get hraw
    rw [hdec]
    dsimp only
    split_ifs
    · exact ⟨rfl, fun _ hg => by cases hg⟩
    · exact ⟨rfl, fun _ hg => (Option.some.inj hg).symm⟩

end

/-- **Every event of a converged run keeps one group.** -/
theorem OneGroup.step {U : List PublicId}
    (h : OneGroup X name (rendezvousGroup X.score name (sortDedup U) 3) s)
    {ev : PublicId × CatalogEvent} (hok : Converged name U s ev)
    (hstep : s.step X name ev = some t) :
    OneGroup X name (rendezvousGroup X.score name (sortDedup U) 3) t := by
  have hgroup : ∀ {univ nowMs}, CreatesOn name U (s.hosts ev.1) univ nowMs →
      (s.hosts ev.1).kv.kvGet (kvKey name) nowMs = none →
      rendezvousGroup X.score name (sortDedup univ) 3 =
        rendezvousGroup X.score name (sortDedup U) 3 := by
    intro univ nowMs hc hnone
    rw [sortDedup_eq fun x => ⟨fun hx => (hc hnone).1 hx, fun hx => (hc hnone).2 hx⟩]
  obtain ⟨id, act⟩ := ev
  cases act with
  | view peers =>
    cases hstep
    exact h.put (h.hosts id)
  | ensure nowMs createdMs wallMs =>
    cases hstep
    exact h.ensureDatabaseOn (hgroup hok)
  | ensureOn univ nowMs createdMs wallMs =>
    cases hstep
    exact h.ensureDatabaseOn (hgroup hok)
  | merge e wallMs =>
    simp only [Catalog.step] at hstep
    split_ifs at hstep with hsent
    cases hstep
    refine h.put fun x hx => ?_
    rcases (s.hosts id).kv.ns.entry_merge X.valueHash (kvKey name) e with heq | heq
    · exact h.hosts id x (heq.symm.trans hx)
    · cases heq.symm.trans hx
      exact h.sent e hsent
  | manage nowMs opens =>
    cases hstep
    obtain ⟨hkv, hnew⟩ := h.manage id nowMs opens
    have hput : OneGroup X name _ (s.put name id ((s.hosts id).manage X id name nowMs opens).1) :=
      h.put fun e he => h.hosts id e (by rw [← hkv]; exact he)
    refine ⟨hput.hosts, hput.sent, fun p hp => ?_⟩
    rcases List.mem_append.1 hp with hp | hp
    · exact h.drivers p hp
    · obtain ⟨group, hg, rfl⟩ := Option.map_eq_some_iff.1 (Option.mem_toList.1 hp)
      exact hnew group hg

theorem oneGroup_init : OneGroup X name G init where
  hosts id e he := by cases he
  sent e he := by cases he
  drivers p hp := by cases hp

end

end Catalog

open Catalog Runs List

/-- **One group for all drivers**, in every run in which whoever creates the record sees the same
nodes. -/
theorem groupsAgree_of_converged {X : Externals} {name : String} {U : List PublicId}
    {evs : List (PublicId × CatalogEvent)} {s : Catalog}
    (hconv : Runs.Meets (step X name) (Catalog.Converged name U) init evs)
    (hrun : run (step X name) init evs = some s) : s.GroupsAgree := by
  have h := run_invariant
    (P := Catalog.OneGroup X name (rendezvousGroup X.score name (sortDedup U) 3))
    (fun _ _ _ h hok hstep => h.step hok hstep) oneGroup_init hconv hrun
  exact fun p hp q hq => (h.drivers p hp).trans (h.drivers q hq).symm

/-! ### Two runs

The coding of records used here writes a number as that many zeros and a one. -/

def encodeNats (l : List ℕ) : Bytes := l.flatMap fun n => replicate n 0 ++ [1]

/-- Read numbers, `n` zeros of the first of which are already read. -/
def decodeNats : Bytes → ℕ → List ℕ
  | [], _ => []
  | b :: t, n => if b = 0 then decodeNats t (n + 1) else n :: decodeNats t 0

theorem decodeNats_replicate (n k : ℕ) (t : Bytes) :
    decodeNats (replicate n 0 ++ 1 :: t) k = (k + n) :: decodeNats t 0 := by
  induction n generalizing k with
  | zero => simp [decodeNats]
  | succ n ih =>
    rw [replicate_succ, cons_append, decodeNats, if_pos rfl, ih]
    congr 1
    omega

theorem decodeNats_encodeNats (l : List ℕ) : decodeNats (encodeNats l) 0 = l := by
  induction l with
  | nil => rfl
  | cons n l ih =>
    have h := decodeNats_replicate n 0 (encodeNats l)
    rw [ih, zero_add] at h
    simpa [encodeNats] using h

/-- Scores are the keys, all hashes are equal, records are written in unary. -/
def unaryExternals : Externals where
  score _ id := id.key.toNat
  valueHash _ _ := 0
  encode m := encodeNats (m.createdMs :: m.group.map fun id => id.key.toNat)
  decode raw :=
    match decodeNats raw 0 with
    | [] => .error "no record"
    | c :: keys => .ok ⟨keys.map fun k => ⟨BitVec.ofNat 256 k⟩, c⟩
  decode_encode m := by
    simp [decodeNats_encodeNats, Function.comp_def]

/-- Two nodes that know each other create the record at the same time. -/
def convergedRun : List (PublicId × CatalogEvent) :=
  [(⟨1⟩, .view [⟨2⟩]), (⟨2⟩, .view [⟨1⟩]), (⟨1⟩, .ensure 5 5 5), (⟨2⟩, .ensure 6 6 6),
    (⟨1⟩, .manage 7 true),
    (⟨1⟩, .merge ⟨⟨6, 0⟩, ⟨2⟩, some (unaryExternals.encode ⟨[⟨2⟩, ⟨1⟩], 6⟩), none⟩ 7),
    (⟨2⟩, .manage 8 true)]

theorem groupsAgree_convergedRun : ∃ s, run (step unaryExternals "db") init convergedRun = some s ∧
      s.drivers = [(⟨1⟩, [⟨2⟩, ⟨1⟩]), (⟨2⟩, [⟨2⟩, ⟨1⟩])] ∧ s.GroupsAgree := by
  exact Runs.exists_of_view drivers (by decide +kernel) fun s hs hd =>
    ⟨hd, groupsAgree_of_converged (U := [⟨1⟩, ⟨2⟩]) (by decide +kernel) hs⟩

/-- Two nodes that do not know each other both create the record and start a driver. -/
def splitRun : List (PublicId × CatalogEvent) :=
  [(⟨1⟩, .ensure 5 5 5), (⟨2⟩, .ensure 6 6 6), (⟨1⟩, .manage 7 true), (⟨2⟩, .manage 7 true)]

/-- The two drivers use disjoint groups. -/
theorem splitRun_disagrees : ∃ s, run (step unaryExternals "db") init splitRun = some s ∧
      s.drivers = [(⟨1⟩, [⟨1⟩]), (⟨2⟩, [⟨2⟩])] ∧ ¬ s.GroupsAgree := by
  refine Runs.exists_of_view drivers (by decide +kernel) fun s hs hd => ⟨hd, fun h => ?_⟩
  have := h (⟨1⟩, [⟨1⟩]) (by simp [hd]) (⟨2⟩, [⟨2⟩]) (by simp [hd])
  revert this
  decide

end RandallFlare
