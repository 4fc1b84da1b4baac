import RandallFlare.Kv.Merge

/-!
# Collecting tombstones

Replicas of a namespace that write, exchange dumps and drop dead entries, all reading one clock.
`Namespace::gc` drops a tombstone, or an expired value, once it has been dead for the horizon.  What
blocks an old value then is gone, so the value must be gone everywhere: every replica has to have
heard of the write before.

* `Replicas`, `KvEvent`, `Replicas.step`: the replicas and what happens to them;
* `Covers`: a replica holds nothing older than a timestamp and will not write anything older;
* `StaysDeleted`: what a write promises; `staysDeleted_of_prompt` is the result.
-/

namespace RandallFlare

open Runs Namespace Option Clock List

/-! ### Garbage collection -/

/-- Since when an entry has been dead: a tombstone since it was written, a value since it
expired. -/
def KvEntry.deadSince (e : KvEntry) (nowMs : ℕ) : Option ℕ :=
  match e.value, e.expiresAtMs with
  | none, _ => some e.hlc.wallMs
  | some _, some exp => if exp ≤ nowMs then some exp else none
  | some _, none => none

/-- The entry is not dead, or not for long. -/
def KvEntry.keeps (nowMs horizonMs : ℕ) (e : KvEntry) : Bool :=
  match e.deadSince nowMs with
  | some t => nowMs - t < horizonMs
  | none => true

def Namespace.gc (n : Namespace) (nowMs horizonMs : ℕ) : Namespace :=
  ⟨n.entries.filter fun _ e => e.keeps nowMs horizonMs⟩

theorem Namespace.entry_gc (n : Namespace) (nowMs horizonMs : ℕ) (key : String) :
    (n.gc nowMs horizonMs).entry key = (n.entry key).filter (KvEntry.keeps nowMs horizonMs) :=
  n.entries.get_filter _ key

/-- A write does not expire before it is made. -/
def KvEntry.Timely (e : KvEntry) : Prop := ∀ exp, e.expiresAtMs = some exp → e.hlc.wallMs ≤ exp

variable {e : KvEntry}

theorem KvEntry.keeps_of_young {nowMs horizonMs : ℕ} (he : e.Timely)
    (hpast : e.hlc.wallMs ≤ nowMs) (h : nowMs < e.hlc.wallMs + horizonMs) :
    e.keeps nowMs horizonMs := by
  unfold keeps deadSince
  split
  · rename_i t ht
    split at ht
    · obtain rfl := some.inj ht
      exact decide_eq_true (by omega)
    · rename_i exp _ hexp
      split_ifs at ht with hle
      obtain rfl := some.inj ht
      have := he exp hexp
      exact decide_eq_true (by omega)
    · cases ht
  · rfl

/-! ### Nodes -/

namespace KvNode

variable (x : Crypto)

/-- `Node::kv_merge_remote`. -/
def kvMergeAll (n : KvNode) (items : List (String × KvEntry)) (wallMs : ℕ) : KvNode :=
  items.foldl (fun n p => n.kvMergeRemote (valueHash x) p.1 p.2 wallMs) n

/-- No counter wraps around while the items are merged. -/
def MergeFits (wallMs : ℕ) : KvNode → List (String × KvEntry) → Prop
  | _, [] => True
  | n, p :: items => n.clock.ObserveFits p.2.hlc wallMs ∧
      MergeFits wallMs (n.kvMergeRemote (valueHash x) p.1 p.2 wallMs) items

instance MergeFits.decidable (wallMs : ℕ) (n : KvNode) (items : List (String × KvEntry)) :
    Decidable (MergeFits x wallMs n items) :=
  match items with
  | [] => .isTrue trivial
  | p :: items =>
    have := MergeFits.decidable wallMs (n.kvMergeRemote (valueHash x) p.1 p.2 wallMs) items
    (inferInstance : Decidable (n.clock.ObserveFits p.2.hlc wallMs ∧
      MergeFits x wallMs (n.kvMergeRemote (valueHash x) p.1 p.2 wallMs) items))

variable {x}

/-- Nothing in the node is ahead of the time, and no write expires before it is made. -/
structure Sound (nowMs : ℕ) (n : KvNode) : Prop where
  clock : n.clock.last.wallMs ≤ nowMs
  past : ∀ key e, n.ns.entry key = some e → e.hlc.wallMs ≤ nowMs
  timely : ∀ key e, n.ns.entry key = some e → e.Timely

theorem sound_new (nowMs : ℕ) : KvNode.new.Sound nowMs where
  clock := Nat.zero_le nowMs
  past := fun key e he => by cases he
  timely := fun key e he => by cases he

/-- The node holds nothing older than `h` under the key, and will not write anything older. -/
structure Covers (h : Hlc) (key : String) (n : KvNode) : Prop where
  clock : h ≤ n.clock.last
  entry : ∀ e, n.ns.entry key = some e → h ≤ e.hlc

/-- The node holds an entry that keeps those older than `h` out. -/
structure Armed (h : Hlc) (key : String) (n : KvNode) : Prop where
  clock : h ≤ n.clock.last
  entry : ∃ e, n.ns.entry key = some e ∧ h ≤ e.hlc

variable {h : Hlc} {key : String} {n : KvNode} {nowMs : ℕ}

theorem Armed.covers (ha : n.Armed h key) : n.Covers h key := by
  obtain ⟨e, he, hle⟩ := ha.entry
  refine ⟨ha.clock, fun f hf => ?_⟩
  obtain rfl := some.inj (he.symm.trans hf)
  exact hle

/-! #### A write -/

section Put

variable {me : PublicId} {key' : String} {value : Option Bytes} {exp : Option ℕ} {wallMs : ℕ}

theorem entry_kvPut : (n.kvPut me key' value exp wallMs).ns.entry key =
    if key = key' then some ⟨(n.clock.now wallMs).last, me, value, exp⟩ else n.ns.entry key :=
  n.ns.entries.get_insert key' key _

theorem Sound.kvPut (hs : n.Sound nowMs) (hexp : ∀ e ∈ exp, nowMs ≤ e) :
    (n.kvPut me key' value exp nowMs).Sound nowMs := by
  have hwall := wallMs_now hs.clock
  refine ⟨hwall.le, fun key e he => ?_, fun key e he => ?_⟩
  all_goals
    rw [entry_kvPut] at he
    split_ifs at he
  · obtain rfl := some.inj he
    exact hwall.le
  · exact hs.past key e he
  · obtain rfl := some.inj he
    exact fun t ht => hwall.le.trans (hexp t ht)
  · exact hs.timely key e he

theorem Covers.kvPut (hc : n.Covers h key) (hfit : n.clock.NowFits wallMs) :
    (n.kvPut me key' value exp wallMs).Covers h key := by
  have hnow : h ≤ (n.clock.now wallMs).last := hc.clock.trans (lt_now hfit).le
  refine ⟨hnow, fun e he => ?_⟩
  rw [entry_kvPut] at he
  split_ifs at he
  · obtain rfl := some.inj he
    exact hnow
  · exact hc.entry e he

theorem armed_kvPut : (n.kvPut me key value exp wallMs).Armed (n.clock.now wallMs).last key := by
  refine ⟨le_rfl, ⟨(n.clock.now wallMs).last, me, value, exp⟩, ?_, le_rfl⟩
  rw [entry_kvPut, if_pos rfl]

theorem Armed.kvPut (ha : n.Armed h key) (hfit : n.clock.NowFits wallMs) :
    (n.kvPut me key' value exp wallMs).Armed h key := by
  have hcov : (n.kvPut me key' value exp wallMs).Covers h key := ha.covers.kvPut hfit
  have he : (n.kvPut me key' value exp wallMs).ns.entry key = _ := entry_kvPut
  refine ⟨hcov.clock, ?_⟩
  split_ifs at he
  · exact ⟨_, he, hcov.entry _ he⟩
  · obtain ⟨e, hn, hle⟩ := ha.entry
    exact ⟨e, he.trans hn, hle⟩

end Put

/-! #### A merge -/

theorem hlc_le_of_rank_le {vh : ValueHash} {e f : KvEntry} (h : e.rank vh ≤ f.rank vh) :
    e.hlc ≤ f.hlc := by
  rcases Prod.Lex.toLex_le_toLex.1 h with hlt | heq
  · exact hlt.le
  · exact heq.1.le

theorem exists_keep (vh : ValueHash) (r : Option KvEntry) (e : KvEntry) :
    ∃ f, Latest.keep (KvEntry.rank vh) r e = some f ∧ e.hlc ≤ f.hlc ∧ ∀ g ∈ r, g.hlc ≤ f.hlc := by
  unfold Latest.keep
  cases r with
  | none => exact ⟨e, rfl, le_rfl, by simp⟩
  | some g =>
    dsimp only
    split_ifs with hlt
    · exact ⟨e, rfl, le_rfl, by simpa using hlc_le_of_rank_le hlt.le⟩
    · exact ⟨g, rfl, hlc_le_of_rank_le (not_lt.1 hlt), by simp⟩

section Merge

variable {key' : String} {e : KvEntry} {wallMs : ℕ}

theorem entry_kvMergeRemote (n : KvNode) (key' : String) (e : KvEntry) (wallMs : ℕ) (key : String) :
    (n.kvMergeRemote (valueHash x) key' e wallMs).ns.entry key =
      if key = key' then Latest.keep (KvEntry.rank (valueHash x)) (n.ns.entry key') e
      else n.ns.entry key :=
  n.ns.entry_merge_eq _ key' key e

section

variable (hfit : n.clock.ObserveFits e.hlc wallMs)

include hfit

theorem Covers.kvMergeRemote (hc : n.Covers h key) (he : key = key' → h ≤ e.hlc) :
    (n.kvMergeRemote (valueHash x) key' e wallMs).Covers h key := by
  refine ⟨(hc.clock.trans (le_max_left _ _)).trans (max_le_observe hfit), fun f hf => ?_⟩
  rw [entry_kvMergeRemote] at hf
  split_ifs at hf with hk
  · obtain ⟨g, hg, hle, -⟩ := exists_keep (valueHash x) (n.ns.entry key') e
    obtain rfl := some.inj (hf.symm.trans hg)
    exact (he hk).trans hle
  · exact hc.entry f hf

theorem Armed.kvMergeRemote (ha : n.Armed h key) :
    (n.kvMergeRemote (valueHash x) key' e wallMs).Armed h key := by
  refine ⟨(ha.clock.trans (le_max_left _ _)).trans (max_le_observe hfit), ?_⟩
  obtain ⟨f, hf, hle⟩ := ha.entry
  rw [entry_kvMergeRemote]
  by_cases hk : key = key'
  · subst hk
    rw [if_pos rfl]
    obtain ⟨g, hg, -, hkept⟩ := exists_keep (valueHash x) (n.ns.entry key) e
    exact ⟨g, hg, hle.trans (hkept f hf)⟩
  · rw [if_neg hk]
    exact ⟨f, hf, hle⟩

theorem armed_kvMergeRemote
    (he : h ≤ e.hlc) : (n.kvMergeRemote (valueHash x) key e wallMs).Armed h key := by
  refine ⟨(he.trans (le_max_right _ _)).trans (max_le_observe hfit), ?_⟩
  rw [entry_kvMergeRemote, if_pos rfl]
  obtain ⟨g, hg, hle, -⟩ := exists_keep (valueHash x) (n.ns.entry key) e
  exact ⟨g, hg, he.trans hle⟩

end

theorem Sound.kvMergeRemote (hs : n.Sound wallMs) (hpast : e.hlc.wallMs ≤ wallMs)
    (htimely : e.Timely) : (n.kvMergeRemote (valueHash x) key' e wallMs).Sound wallMs := by
  -- An entry that comes out of the merge was there, or is the merged one.
  have hentry : ∀ key f, (n.kvMergeRemote (valueHash x) key' e wallMs).ns.entry key = some f →
      n.ns.entry key = some f ∨ f = e := by
    intro key f hf
    rw [entry_kvMergeRemote] at hf
    split_ifs at hf with hk
    · rcases Latest.keep_cases (KvEntry.rank (valueHash x)) (n.ns.entry key') e with h | h
      · exact .inl (hk ▸ h.symm.trans hf)
      · exact .inr (some.inj (hf.symm.trans h))
    · exact .inl hf
  refine ⟨wallMs_observe hs.clock hpast, fun key f hf => ?_, fun key f hf => ?_⟩
  · rcases hentry key f hf with hf | rfl
    · exact hs.past key f hf
    · exact hpast
  · rcases hentry key f hf with hf | rfl
    · exact hs.timely key f hf
    · exact htimely

end Merge

section MergeAll

variable {items : List (String × KvEntry)} {wallMs : ℕ}

theorem Armed.kvMergeAll (ha : n.Armed h key) (hfit : MergeFits x wallMs n items) :
    (n.kvMergeAll x items wallMs).Armed h key := by
  induction items generalizing n with
  | nil => exact ha
  | cons p items ih => exact ih (ha.kvMergeRemote hfit.1) hfit.2

theorem armed_kvMergeAll (hfit : MergeFits x wallMs n items)
    (hmem : (key, e) ∈ items) (he : h ≤ e.hlc) : (n.kvMergeAll x items wallMs).Armed h key := by
  induction items generalizing n with
  | nil => cases hmem
  | cons p items ih =>
    rcases mem_cons.1 hmem with rfl | hmem
    · exact (armed_kvMergeRemote hfit.1 he).kvMergeAll hfit.2
    · exact ih hfit.2 hmem

theorem Covers.kvMergeAll (hc : n.Covers h key) (hfit : MergeFits x wallMs n items)
    (hitems : ∀ e, (key, e) ∈ items → h ≤ e.hlc) : (n.kvMergeAll x items wallMs).Covers h key := by
  induction items generalizing n with
  | nil => exact hc
  | cons p items ih =>
    refine ih (hc.kvMergeRemote hfit.1 fun hk => ?_) hfit.2 fun e he =>
      hitems e (mem_cons_of_mem p he)
    exact hitems p.2 (hk ▸ mem_cons_self)

theorem Sound.kvMergeAll (hs : n.Sound wallMs)
    (hitems : ∀ p ∈ items, p.2.hlc.wallMs ≤ wallMs ∧ p.2.Timely) :
    (n.kvMergeAll x items wallMs).Sound wallMs := by
  induction items generalizing n with
  | nil => exact hs
  | cons p items ih =>
    obtain ⟨hpast, htimely⟩ := hitems p mem_cons_self
    exact ih (hs.kvMergeRemote hpast htimely) fun q hq => hitems q (mem_cons_of_mem p hq)

end MergeAll

/-! #### A collection -/

section Collect

variable {horizonMs : ℕ} {e : KvEntry}

theorem entry_of_gc (h : (n.ns.gc nowMs horizonMs).entry key = some e) : n.ns.entry key = some e := by
  rw [entry_gc, filter_eq_some_iff] at h
  exact h.1

theorem Sound.gc (hs : n.Sound nowMs) : Sound nowMs ⟨n.clock, n.ns.gc nowMs horizonMs⟩ :=
  ⟨hs.clock, fun key e he => hs.past key e (entry_of_gc he),
    fun key e he => hs.timely key e (entry_of_gc he)⟩

theorem Covers.gc (hc : n.Covers h key) : Covers h key ⟨n.clock, n.ns.gc nowMs horizonMs⟩ :=
  ⟨hc.clock, fun e he => hc.entry e (entry_of_gc he)⟩

theorem Armed.gc (ha : n.Armed h key) (hs : n.Sound nowMs) (hyoung : nowMs < h.wallMs + horizonMs) :
    Armed h key ⟨n.clock, n.ns.gc nowMs horizonMs⟩ := by
  obtain ⟨e, he, hle⟩ := ha.entry
  refine ⟨ha.clock, e, ?_, hle⟩
  have hwall := Hlc.wallMs_le_of_le hle
  have hkeep : e.keeps nowMs horizonMs :=
    KvEntry.keeps_of_young (hs.timely key e he) (hs.past key e he) (by omega)
  rw [entry_gc, he, filter_some, if_pos hkeep]

end Collect

end KvNode

/-! ### The replicas -/

/-- The replicas and the time they read. -/
structure Replicas (ι : Type) where
  now : ℕ
  node : ι → KvNode

/-- What happens. -/
inductive KvEvent (ι : Type)
  /-- The time moves on to `t`. -/
  | advance (t : ℕ)
  /-- Replica `i` writes; `none` deletes. -/
  | put (i : ι) (key : String) (value : Option Bytes) (expiresAtMs : Option ℕ)
  /-- Replica `j` merges the dump of `i`, in the order of `items`. -/
  | exchange (i j : ι) (items : List (String × KvEntry))
  | gc (i : ι)

namespace Replicas

variable {ι : Type} [DecidableEq ι] {s : Replicas ι}

/-- Empty replicas at time `t`. -/
def init (t : ℕ) : Replicas ι := ⟨t, fun _ => KvNode.new⟩

/-- Change one replica. -/
def set (s : Replicas ι) (i : ι) (n : KvNode) : Replicas ι :=
  ⟨s.now, Function.update s.node i n⟩

/-- One event; `ids i` is the writer of replica `i`. -/
def step (x : Crypto) (ids : ι → PublicId) (horizonMs : ℕ) (s : Replicas ι) :
    KvEvent ι → Option (Replicas ι)
  | .advance t => if s.now ≤ t then some ⟨t, s.node⟩ else none
  | .put i key value exp =>
      if ∀ e ∈ exp, s.now ≤ e then
        some (s.set i ((s.node i).kvPut (ids i) key value exp s.now))
      else none
  | .exchange i j items =>
      if items.Perm (s.node i).ns.dump then
        some (s.set j ((s.node j).kvMergeAll x items s.now))
      else none
  | .gc i => some (s.set i ⟨(s.node i).clock, (s.node i).ns.gc s.now horizonMs⟩)

/-- No logical counter wraps around in the event. -/
def Fits (x : Crypto) (s : Replicas ι) : KvEvent ι → Prop
  | .put i _ _ _ => (s.node i).clock.NowFits s.now
  | .exchange _ j items => KvNode.MergeFits x s.now (s.node j) items
  | .advance _ | .gc _ => True

instance (x : Crypto) (s : Replicas ι) (ev : KvEvent ι) : Decidable (s.Fits x ev) :=
  match ev with
  | .put i _ _ _ => (inferInstance : Decidable ((s.node i).clock.NowFits s.now))
  | .exchange _ j items => (inferInstance : Decidable (KvNode.MergeFits x s.now (s.node j) items))
  | .advance _ | .gc _ => .isTrue trivial

@[simp] theorem set_node_self (s : Replicas ι) (i : ι) (n : KvNode) : (s.set i n).node i = n := by
  simp [set]

variable {P : KvNode → Prop} {i r : ι} {n : KvNode} {j : ι} {items : List (String × KvEntry)}

theorem of_set (h : P (s.node r)) (hn : r = i → P n) : P ((s.set i n).node r) := by
  by_cases hr : r = i
  · subst hr
    rw [set_node_self]
    exact hn rfl
  · have hnode : (s.set i n).node r = s.node r := Function.update_of_ne hr _ _
    rw [hnode]
    exact h

theorem forall_set (h : ∀ r, P (s.node r)) (hn : P n) : ∀ r, P ((s.set i n).node r) :=
  fun r => of_set (h r) fun _ => hn

variable {x : Crypto} {ids : ι → PublicId} {horizonMs : ℕ} {s t : Replicas ι} {ev : KvEvent ι}
  {evs : List (KvEvent ι)} {h : Hlc} {key : String}

/-! ### Steps -/

theorem step_advance {u : ℕ} (hstep : s.step x ids horizonMs (.advance u) = some t) :
    s.now ≤ u ∧ t = ⟨u, s.node⟩ := by
  obtain ⟨hle, ht⟩ := ite_none_right_eq_some.1 hstep
  exact ⟨hle, (some.inj ht).symm⟩

theorem step_put {key : String} {value : Option Bytes} {exp : Option ℕ}
    (hstep : s.step x ids horizonMs (.put i key value exp) = some t) :
    (∀ e ∈ exp, s.now ≤ e) ∧ t = s.set i ((s.node i).kvPut (ids i) key value exp s.now) := by
  obtain ⟨hexp, ht⟩ := ite_none_right_eq_some.1 hstep
  exact ⟨hexp, (some.inj ht).symm⟩

theorem step_exchange (hstep : s.step x ids horizonMs (.exchange i j items) = some t) :
    items.Perm (s.node i).ns.dump ∧ t = s.set j ((s.node j).kvMergeAll x items s.now) := by
  obtain ⟨hperm, ht⟩ := ite_none_right_eq_some.1 hstep
  exact ⟨hperm, (some.inj ht).symm⟩

theorem entry_of_mem
    (hperm : items.Perm n.ns.dump) (hmem : (key, e) ∈ items) : n.ns.entry key = some e :=
  mem_dump.1 (hperm.mem_iff.1 hmem)

section

variable (hstep : s.step x ids horizonMs ev = some t)

include hstep

theorem sound_step (hs : ∀ r, (s.node r).Sound s.now) : ∀ r, (t.node r).Sound t.now := by
  cases ev with
  | advance u =>
    obtain ⟨hle, rfl⟩ := step_advance hstep
    exact fun r => ⟨(hs r).clock.trans hle, fun k e he => ((hs r).past k e he).trans hle,
      (hs r).timely⟩
  | put i k v exp =>
    obtain ⟨hexp, rfl⟩ := step_put hstep
    exact forall_set hs ((hs i).kvPut hexp)
  | exchange i j items =>
    obtain ⟨hperm, rfl⟩ := step_exchange hstep
    refine forall_set hs ((hs j).kvMergeAll fun p hp => ?_)
    have he := entry_of_mem hperm hp
    exact ⟨(hs i).past p.1 p.2 he, (hs i).timely p.1 p.2 he⟩
  | gc i =>
    obtain rfl := some.inj hstep
    exact forall_set hs (hs i).gc

/-- An armed replica stays armed until the horizon has passed. -/
theorem armed_step (hs : ∀ r, (s.node r).Sound s.now) (hfit : s.Fits x ev)
    (hyoung : s.now < h.wallMs + horizonMs)
    (ha : (s.node r).Armed h key) : (t.node r).Armed h key := by
  cases ev with
  | advance u =>
    obtain ⟨hle, rfl⟩ := step_advance hstep
    exact ha
  | put i k v exp =>
    obtain ⟨hexp, rfl⟩ := step_put hstep
    refine of_set ha ?_
    rintro rfl
    exact ha.kvPut hfit
  | exchange i j items =>
    obtain ⟨hperm, rfl⟩ := step_exchange hstep
    refine of_set ha ?_
    rintro rfl
    exact ha.kvMergeAll hfit
  | gc i =>
    obtain rfl := some.inj hstep
    refine of_set ha ?_
    rintro rfl
    exact ha.gc (hs r) hyoung

/-- Once all replicas are covered, they stay so: nothing older is left to exchange. -/
theorem covers_step (hfit : s.Fits x ev)
    (hc : ∀ r, (s.node r).Covers h key) : ∀ r, (t.node r).Covers h key := by
  cases ev with
  | advance u =>
    obtain ⟨hle, rfl⟩ := step_advance hstep
    exact hc
  | put i k v exp =>
    obtain ⟨hexp, rfl⟩ := step_put hstep
    exact forall_set hc ((hc i).kvPut hfit)
  | exchange i j items =>
    obtain ⟨hperm, rfl⟩ := step_exchange hstep
    exact forall_set hc ((hc j).kvMergeAll hfit fun e he => (hc i).entry e (entry_of_mem hperm he))
  | gc i =>
    obtain rfl := some.inj hstep
    exact forall_set hc (hc i).gc

omit hstep in
theorem armed_exchange (hfit : s.Fits x (.exchange i j items))
    (hstep : s.step x ids horizonMs (.exchange i j items) = some t)
    (ha : (s.node i).Armed h key) : (t.node j).Armed h key := by
  obtain ⟨hperm, rfl⟩ := step_exchange hstep
  obtain ⟨e, he, hle⟩ := ha.entry
  have hmem : (key, e) ∈ items := hperm.mem_iff.2 (mem_dump.2 he)
  rw [set_node_self]
  exact KvNode.armed_kvMergeAll hfit hmem hle

/-! ### The time of an event -/

/-- The time after an event. -/
def reading (now : ℕ) : KvEvent ι → ℕ
  | .advance t => t
  | _ => now

/-- The events with the time they happen at. -/
def timed : ℕ → List (KvEvent ι) → List (ℕ × KvEvent ι)
  | _, [] => []
  | now, ev :: evs => (now, ev) :: timed (reading now ev) evs

/-- The time after the events. -/
def lastReading (now : ℕ) (evs : List (KvEvent ι)) : ℕ := evs.foldl reading now

theorem now_step : t.now = reading s.now ev ∧ s.now ≤ t.now := by
  cases ev with
  | advance u =>
    obtain ⟨hle, rfl⟩ := step_advance hstep
    exact ⟨rfl, hle⟩
  | put i k v exp =>
    obtain ⟨-, rfl⟩ := step_put hstep
    exact ⟨rfl, le_rfl⟩
  | exchange i j items =>
    obtain ⟨-, rfl⟩ := step_exchange hstep
    exact ⟨rfl, le_rfl⟩
  | gc i =>
    obtain rfl := some.inj hstep
    exact ⟨rfl, le_rfl⟩

end

theorem now_run (hrun : run (step x ids horizonMs) s evs = some t) :
    t.now = lastReading s.now evs := by
  induction evs generalizing s with
  | nil =>
    obtain rfl := some.inj hrun
    rfl
  | cons ev evs ih =>
    obtain ⟨u, hu, hut⟩ := run_cons_eq_some.1 hrun
    rw [ih hut, (now_step hu).1]
    rfl

theorem le_timed (hrun : run (step x ids horizonMs) s evs = some t) :
    ∀ p ∈ timed s.now evs, s.now ≤ p.1 := by
  induction evs generalizing s with
  | nil => exact fun p hp => absurd hp not_mem_nil
  | cons ev evs ih =>
    obtain ⟨u, hu, hut⟩ := run_cons_eq_some.1 hrun
    intro p hp
    rcases mem_cons.1 hp with rfl | hp
    · exact le_rfl
    · rw [← (now_step hu).1] at hp
      exact (now_step hu).2.trans (ih hut p hp)

end Replicas

/-- The event hands the dump of `i` to `j`. -/
def KvEvent.exchanges {ι : Type} [DecidableEq ι] (i j : ι) : KvEvent ι → Bool
  | .exchange a b _ => a = i ∧ b = j
  | _ => false

namespace Replicas

variable {ι : Type} [DecidableEq ι]

/-! ### Regular and prompt exchanges -/

/-- In every interval of the length of the horizon, in every direction, there is an exchange. -/
def Regular (horizonMs start : ℕ) (evs : List (KvEvent ι)) : Prop :=
  ∀ t, start ≤ t → t + horizonMs ≤ lastReading start evs → ∀ i j, i ≠ j →
    ∃ p ∈ timed start evs, t ≤ p.1 ∧ p.1 < t + horizonMs ∧ p.2.exchanges i j

/-- From this moment on, before the horizon has passed, in every direction, there is an exchange. -/
def PromptFrom (horizonMs last now : ℕ) (evs : List (KvEvent ι)) : Prop :=
  now + horizonMs ≤ last → ∀ i j, i ≠ j →
    ∃ p ∈ timed now evs, p.1 < now + horizonMs ∧ p.2.exchanges i j

/-- From every moment of the run on, before the horizon has passed, in every direction, there is an
exchange. -/
def Prompt (horizonMs last : ℕ) : ℕ → List (KvEvent ι) → Prop
  | now, [] => PromptFrom horizonMs last now ([] : List (KvEvent ι))
  | now, ev :: evs => PromptFrom horizonMs last now (ev :: evs) ∧
      Prompt horizonMs last (reading now ev) evs

/-- Once the horizon has passed since a write, no replica shows a value older than it. -/
def StaysDeleted (x : Crypto) (ids : ι → PublicId) (horizonMs start : ℕ) (evs : List (KvEvent ι))
    (s : Replicas ι) : Prop :=
  ∀ before after i key value exp u, evs = before ++ .put i key value exp :: after →
    run (step x ids horizonMs) (init start) before = some u → u.now + horizonMs ≤ s.now →
      ∀ r e v, (s.node r).ns.entry key = some e → e.visible s.now = some v →
        ((u.node i).clock.now u.now).last ≤ e.hlc

variable {x : Crypto} {ids : ι → PublicId} {horizonMs : ℕ} {s t : Replicas ι}
  {evs : List (KvEvent ι)} {h : Hlc} {key : String}

theorem Prompt.head {last now : ℕ} (hp : Prompt horizonMs last now evs) :
    PromptFrom horizonMs last now evs := by
  cases evs with
  | nil => exact hp
  | cons ev evs => exact hp.1

theorem Prompt.right {last : ℕ} {before after : List (KvEvent ι)}
    (hp : Prompt horizonMs last s.now (before ++ after))
    (hrun : run (step x ids horizonMs) s before = some t) : Prompt horizonMs last t.now after := by
  induction before generalizing s with
  | nil =>
    obtain rfl := some.inj hrun
    exact hp
  | cons ev before ih =>
    obtain ⟨u, hu, hut⟩ := run_cons_eq_some.1 hrun
    refine ih ?_ hut
    rw [(now_step hu).1]
    exact hp.2

/-- If every replica is armed or will hear from an armed one before the horizon has passed, all are
covered once it has. -/
theorem covers_run {i : ι} (hs : ∀ r, (s.node r).Sound s.now)
    (hfit : Runs.Meets (step x ids horizonMs) (Fits x) s evs)
    (hrun : run (step x ids horizonMs) s evs = some t)
    (hpast : h.wallMs + horizonMs ≤ t.now) (hi : (s.node i).Armed h key)
    (hall : ∀ r, (s.node r).Armed h key ∨ ∃ p ∈ timed s.now evs,
      p.1 < h.wallMs + horizonMs ∧ p.2.exchanges i r) : ∀ r, (t.node r).Covers h key := by
  induction evs generalizing s with
  | nil =>
    obtain rfl := some.inj hrun
    exact fun r => ((hall r).resolve_right fun hex =>
      absurd hex.choose_spec.1 not_mem_nil).covers
  | cons ev evs ih =>
    by_cases hyoung : s.now < h.wallMs + horizonMs
    · obtain ⟨u, hu, hut⟩ := run_cons_eq_some.1 hrun
      have hkeep : ∀ r, (s.node r).Armed h key → (u.node r).Armed h key :=
        fun r => armed_step hu hs hfit.head hyoung
      refine ih (sound_step hu hs) (hfit.tail hu) hut (hkeep i hi) fun r => ?_
      rcases hall r with ha | ⟨p, hp, hlt, hex⟩
      · exact .inl (hkeep r ha)
      · rcases mem_cons.1 hp with rfl | hp
        · -- The exchange is this event.
          left
          cases ev with
          | exchange a b items =>
            obtain ⟨rfl, rfl⟩ : a = i ∧ b = r := by simpa [KvEvent.exchanges] using hex
            exact armed_exchange hfit.head hu hi
          | advance u => cases hex
          | put i k v exp => cases hex
          | gc i => cases hex
        · refine .inr ⟨p, ?_, hlt, hex⟩
          rw [(now_step hu).1]
          exact hp
    · -- The horizon has passed, so that all are armed already.
      have hcov : ∀ r, (s.node r).Covers h key := fun r => by
        rcases hall r with ha | ⟨p, hp, hlt, -⟩
        · exact ha.covers
        · have := le_timed hrun p hp
          omega
      exact run_invariant (P := fun s => ∀ r, (s.node r).Covers h key)
        (fun s ev t hc hfit hstep => covers_step hstep hfit hc) hcov hfit hrun

/-- **Deleted keys stay deleted**: if no counter wraps around and from every moment on every two
replicas exchange their dumps in both directions before the horizon has passed, a write is the oldest
value of its key that any replica shows from one horizon after it on. -/
theorem staysDeleted_of_prompt {x : Crypto} {ids : ι → PublicId} {horizonMs start : ℕ}
    {evs : List (KvEvent ι)} {s : Replicas ι}
    (hfit : Runs.Meets (step x ids horizonMs) (Fits x) (init start) evs)
    (hprompt : Prompt horizonMs (lastReading start evs) start evs)
    (hrun : run (step x ids horizonMs) (init start) evs = some s) :
    StaysDeleted x ids horizonMs start evs s := by
  rintro before after i key value exp u rfl hbefore hpast r e v he -
  obtain ⟨u', hu', hrest⟩ := run_append_eq_some.1 hrun
  obtain rfl := some.inj (hbefore.symm.trans hu')
  obtain ⟨w, hw, hafter⟩ := run_cons_eq_some.1 hrest
  have hsound : ∀ r, (u.node r).Sound u.now :=
    run_invariant (P := fun s : Replicas ι => ∀ r, (s.node r).Sound s.now)
      (fun s ev t hs _ hstep => sound_step hstep hs) (fun _ => KvNode.sound_new start)
      (meets_true _ _) hbefore
  have hfit' := hfit.right hbefore
  have hprompt' : Prompt horizonMs _ u.now after :=
    (Prompt.right (s := init start) hprompt hbefore : Prompt horizonMs _ u.now (_ :: after)).2
  -- The write is stamped with the time it is made at.
  have hwall : ((u.node i).clock.now u.now).last.wallMs = u.now := wallMs_now (hsound i).clock
  obtain ⟨-, rfl⟩ := step_put hw
  have hi : ((u.set i ((u.node i).kvPut (ids i) key value exp u.now)).node i).Armed
      ((u.node i).clock.now u.now).last key := by
    rw [set_node_self]
    exact KvNode.armed_kvPut
  have hlast := now_run hrun
  refine (covers_run (sound_step hw hsound) (hfit'.tail hw) hafter (by omega) hi
    (fun j => ?_) r).entry e he
  by_cases hj : j = i
  · exact .inl (hj ▸ hi)
  · obtain ⟨p, hp, hlt, hex⟩ := hprompt'.head (hlast ▸ hpast) i j (Ne.symm hj)
    exact .inr ⟨p, hp, by omega, hex⟩

/-! ### Two replicas -/

/-- A value written at time 1000. -/
def firstWrite : String × KvEntry := ("k", ⟨⟨1000, 0⟩, ⟨0⟩, some [118], none⟩)

/-- Its deletion, after the other replica has heard of the value and the first of its hearing. -/
def firstDelete : String × KvEntry := ("k", ⟨⟨1000, 2⟩, ⟨0⟩, none, none⟩)

/-- The value is written, exchanged and deleted. -/
def writeThenDelete : List (KvEvent (Fin 2)) :=
  [.put 0 "k" (some [118]) none, .exchange 0 1 [firstWrite], .exchange 1 0 [firstWrite],
    .put 0 "k" none none]

def writers : Fin 2 → PublicId := fun i => ⟨BitVec.ofNat 256 i⟩

/-- The deletion is exchanged before it is collected. -/
def promptRun : List (KvEvent (Fin 2)) :=
  writeThenDelete ++ [.advance 1005, .exchange 0 1 [firstDelete], .exchange 1 0 [firstDelete],
    .advance 1010, .gc 0, .gc 1]

/-- The deletion is collected at the time of the first exchange after it; the one before it was at
the time of the deletion. -/
def tieRun : List (KvEvent (Fin 2)) :=
  writeThenDelete ++ [.advance 1010, .gc 0, .exchange 1 0 [firstWrite], .exchange 0 1 [firstWrite]]

instance (horizonMs last now : ℕ) (evs : List (KvEvent (Fin 2))) :
    Decidable (PromptFrom horizonMs last now evs) :=
  (inferInstance : Decidable (now + horizonMs ≤ last → ∀ i j : Fin 2, i ≠ j →
    ∃ p ∈ timed now evs, p.1 < now + horizonMs ∧ p.2.exchanges i j))

instance Prompt.decidable (horizonMs last now : ℕ) (evs : List (KvEvent (Fin 2))) :
    Decidable (Prompt horizonMs last now evs) :=
  match evs with
  | [] => (inferInstance : Decidable (PromptFrom horizonMs last now ([] : List (KvEvent (Fin 2)))))
  | ev :: evs =>
    have := Prompt.decidable horizonMs last (reading now ev) evs
    (inferInstance : Decidable (PromptFrom horizonMs last now (ev :: evs) ∧
      Prompt horizonMs last (reading now ev) evs))

/-- The deleted value stays deleted. -/
theorem staysDeleted_promptRun :
    ∃ s, run (step sampleCrypto writers 10) (init 1000) promptRun = some s ∧ s.now = 1010 ∧
      StaysDeleted sampleCrypto writers 10 1000 promptRun s := by
  exact exists_of_view (·.now) (by decide +kernel) fun s hs hnow =>
    ⟨hnow, staysDeleted_of_prompt (by decide +kernel) (by decide +kernel) hs⟩

/-- Every interval of ten milliseconds has an exchange in both directions, and yet the value
returns. -/
theorem tieRun_resurrects : ∃ s, run (step sampleCrypto writers 10) (init 1000) tieRun = some s ∧
      Runs.Meets (step sampleCrypto writers 10) (Fits sampleCrypto) (init 1000) tieRun ∧
      Regular 10 1000 tieRun ∧ ¬ StaysDeleted sampleCrypto writers 10 1000 tieRun s := by
  obtain ⟨s, hs, hview⟩ : ∃ s ∈ run (step sampleCrypto writers 10) (init 1000) tieRun,
      s.now = 1010 ∧ (s.node 0).ns.entry "k" = some firstWrite.2 := by decide +kernel
  -- The run up to the deletion.
  obtain ⟨u, hu, hview'⟩ : ∃ u ∈ run (step sampleCrypto writers 10) (init 1000)
      (writeThenDelete.take 3), u.now = 1000 ∧ ((u.node 0).clock.now u.now).last = ⟨1000, 2⟩ := by
    decide +kernel
  refine ⟨s, hs, by decide +kernel, fun t ht hlast => ?_, fun hstays => ?_⟩
  · have hlast' : t + 10 ≤ 1010 := hlast
    obtain rfl : t = 1000 := by omega
    decide +kernel
  · have hle := hstays (writeThenDelete.take 3) _ 0 "k" none none u rfl hu (by omega) 0 _ [118]
      hview.2 rfl
    rw [hview'.2] at hle
    exact absurd hle (by decide +kernel)

end Replicas

end RandallFlare
