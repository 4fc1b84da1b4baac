import RandallFlare.Node.Node
import RandallFlare.Signed.Chain

/-!
# The transparency log

A node writes every manifest it accepts to the log of the worker, under its version.  A manifest of
the version a node holds but of a lower digest replaces the record, and with it what the log has
under the version; and it is not checked against the version before.  Apart from such replacements
versions only go up, so that the log grows, and the link of every version to the one before was
checked when it came.

* `Appends`: the call is not such a replacement;
* `log_sound_of_appends` is the result.
-/

namespace RandallFlare

open NodeState SortedMap List Runs

/-! ### Keys of the log -/

theorem nul_notMem_padDecimal (n v : ℕ) : nul ∉ TableKey.padDecimal n v := by
  have hdigit : ∀ d < 10, nul ≠ Nat.digitChar d := by decide
  induction n with
  | zero => simp [TableKey.padDecimal]
  | succ n ih =>
    rw [TableKey.padDecimal, mem_cons, not_or]
    exact ⟨hdigit _ (Nat.mod_lt _ (by decide)), ih⟩

variable {name : String} {x : Crypto} {operator : SignerId} {env : Envelope} {r : ManifestRecord}
  {n : Node}

theorem start_logKey {name' : String} {v : ℕ} (hfree : NulFree name') :
    (name.toList ++ [nul]) <+: (logKey name' v).toList ↔ name' = name := by
  rw [logKey, String.toList_ofList]
  constructor
  · rintro ⟨t, ht⟩
    rw [append_assoc, singleton_append] at ht
    rcases append_eq_append_iff.1 ht with ⟨a, hname, hrest⟩ | ⟨a, hname, hrest⟩
    · cases a with
      | nil => exact String.toList_inj.1 (by simpa using hname)
      | cons c a =>
        obtain rfl := (cons.inj hrest).1
        exact absurd (by rw [hname]; simp) hfree
    · cases a with
      | nil => exact String.toList_inj.1 (by simpa using hname.symm)
      | cons c a =>
        refine absurd ?_ (nul_notMem_padDecimal 20 v)
        rw [(cons.inj hrest).2]
        simp
  · rintro rfl
    exact ⟨TableKey.padDecimal 20 v, by simp⟩

theorem nulFree_of_validName (h : validName name) : NulFree name := by
  intro hmem
  have hbyte : (0 : UInt8) ∈ Postcard.utf8 name := by
    unfold Postcard.utf8
    rw [← String.ofList_toList (s := name), String.toByteArray_ofList]
    simpa [utf8Encode] using ⟨nul, hmem, by decide⟩
  simp only [validName, validLabel, Bool.and_eq_true, all_eq_true] at h
  exact absurd (h.2 0 hbyte) (by decide)

/-! ### What the log says -/

/-- The log holds accepted manifests under their versions, none above the version held; under that
one it holds the record; and a version links the one before. -/
structure Logged (x : Crypto) (p : ManifestPart) : Prop where
  operator : p.memory.operator = p.operator
  held : ∀ name r, p.memory.get name = some r → readManifest x p.operator r.envelope = .ok r
  entry : ∀ k env, p.log.get k = some env → ∃ r held, readManifest x p.operator env = .ok r ∧
    k = logKey r.manifest.name r.manifest.version ∧
    p.memory.get r.manifest.name = some held ∧
    (r.manifest.version < held.manifest.version ∨ r = held)
  link : ∀ k k' env env' r r', p.log.get k = some env → p.log.get k' = some env' →
    readManifest x p.operator env = .ok r → readManifest x p.operator env' = .ok r' →
    r'.manifest.name = r.manifest.name → r'.manifest.version = r.manifest.version + 1 →
    r'.manifest.prev = some r.digest

theorem version_lt
    (h : readManifest x operator env = .ok r) : r.manifest.version < UInt64.size := by
  obtain ⟨-, -, rest, hdec⟩ := openManifest_eq_ok (readManifest_eq_ok h).1
  exact WorkerManifest.version_lt_of_decoder hdec

theorem logged_new (x : Crypto) (id : PublicId) (operator : SignerId) :
    Logged x (Node.new id operator).manifestPart where
  operator := rfl
  held := fun name r h => by cases h
  entry := fun k env h => by cases h
  link := fun k k' env env' r r' h => by cases h

section Accept

variable {x : Crypto} {p : ManifestPart} {env : Envelope} {r : ManifestRecord} (hp : Logged x p)
  (hnew : ∀ held, p.memory.get r.manifest.name = some held →
    held.manifest.version < r.manifest.version ∧ r.breaksChain held = false)

include hp hnew

/-- Every version in the log is below the one accepted, and the version just below is linked. -/
theorem Logged.below {k : String} {e : Envelope} {q : ManifestRecord} (hk : p.log.get k = some e)
    (hq : readManifest x p.operator e = .ok q) (hname : q.manifest.name = r.manifest.name) :
    q.manifest.version < r.manifest.version ∧
      (r.manifest.version = q.manifest.version + 1 → r.manifest.prev = some q.digest) := by
  obtain ⟨q', held, hq', -, hheld, hle⟩ := hp.entry k e hk
  cases hq.symm.trans hq'
  rw [hname] at hheld
  obtain ⟨hlt, hchain⟩ := hnew held hheld
  rcases hle with hless | rfl
  · exact ⟨hless.trans hlt, fun hsucc => by omega⟩
  · refine ⟨hlt, fun hsucc => ?_⟩
    simpa [ManifestRecord.breaksChain, hsucc] using hchain

theorem Logged.fresh (hread : readManifest x p.operator env = .ok r) :
    p.log.get (logKey r.manifest.name r.manifest.version) = none := by
  rw [Option.eq_none_iff_forall_ne_some]
  intro e he
  obtain ⟨q, held, hq, hkey, -, -⟩ := hp.entry _ e he
  obtain ⟨hname, hversion⟩ := logKey_injective (version_lt hread) (version_lt hq) hkey
  have hlt := (hp.below hnew he hq hname.symm).1
  omega

/-- A manifest of a higher version is accepted; whether it gets to the log or not, the log grows. -/
theorem Logged.accept
    (hread : readManifest x p.operator env = .ok r) (table : SortedMap String Envelope)
    (commits : Bool) :
    Logged x ⟨p.operator, ⟨p.operator, p.memory.workers.insert r.manifest.name r⟩, table,
        if commits then p.log.insert (logKey r.manifest.name r.manifest.version) env else p.log⟩ ∧
      ∀ k e, p.log.get k = some e →
        (if commits then p.log.insert (logKey r.manifest.name r.manifest.version) env
          else p.log).get k = some e := by
  generalize hlog' : (if commits then _ else p.log) = log
  have hlog : log = p.log ∨
      log = p.log.insert (logKey r.manifest.name r.manifest.version) env := by
    rw [← hlog']
    cases commits
    · exact .inl rfl
    · exact .inr rfl
  have hgrow : ∀ k e, p.log.get k = some e → log.get k = some e := by
    intro k e he
    rcases hlog with rfl | rfl
    · exact he
    · rw [get_insert_of_ne _ _ fun hk => ?_, he]
      rw [hk, hp.fresh hnew hread] at he
      cases he
  have hget : ∀ k e, log.get k = some e → p.log.get k = some e ∨
      k = logKey r.manifest.name r.manifest.version ∧ e = env := by
    intro k e he
    rcases hlog with rfl | rfl
    · exact .inl he
    · rw [get_insert] at he
      split_ifs at he with hk
      · exact .inr ⟨hk, (Option.some.inj he).symm⟩
      · exact .inl he
  have hmemory : ∀ name, (⟨p.operator, p.memory.workers.insert r.manifest.name r⟩ :
      ManifestSet).get name = if name = r.manifest.name then some r else p.memory.get name :=
    fun name => get_insert _ _ _ _
  obtain ⟨-, -, -, henv⟩ := readManifest_eq_ok hread
  refine ⟨⟨rfl, fun name q hq => ?_, fun k e he => ?_, fun k k' e e' q q' he he' hq hq' hname hsucc
    => ?_⟩, hgrow⟩
  · rw [hmemory] at hq
    split_ifs at hq
    · cases hq
      rw [henv]
      exact hread
    · exact hp.held name q hq
  · rcases hget k e he with hold | ⟨rfl, rfl⟩
    · obtain ⟨q, held, hq, hkey, hheld, hle⟩ := hp.entry k e hold
      by_cases hname : q.manifest.name = r.manifest.name
      · exact ⟨q, r, hq, hkey, by rw [hmemory, if_pos hname],
          .inl (hp.below hnew hold hq hname).1⟩
      · exact ⟨q, held, hq, hkey, by rw [hmemory, if_neg hname, hheld], hle⟩
    · exact ⟨r, r, hread, rfl, by rw [hmemory, if_pos rfl], .inr rfl⟩
  · -- The new version can only come after one of the log, not before one.
    rcases hget k e he with hold | ⟨rfl, rfl⟩ <;> rcases hget k' e' he' with hold' | ⟨rfl, rfl⟩
    · exact hp.link k k' e e' q q' hold hold' hq hq' hname hsucc
    · cases hread.symm.trans hq'
      exact (hp.below hnew hold hq hname.symm).2 hsucc
    · cases hread.symm.trans hq
      have hlt := (hp.below hnew hold' hq' hname).1
      omega
    · cases hq.symm.trans hq'
      omega

end Accept

/-! ### Reading the log -/

theorem NodeStore.mem_loadLog (s : NodeStore) :
    env ∈ s.loadLog name ↔ ∃ k, s.log.get k = some env ∧ (name.toList ++ [nul]) <+: k.toList := by
  rw [loadLog, scan_eq_filter]
  simp only [mem_map, mem_filter, Prod.exists, exists_eq_right, decide_eq_true_eq,
    String.toList_ofList, get_eq_some_iff]

theorem exists_records {l : List (String × Envelope)}
    (hread : ∀ p ∈ l, ∃ r, readManifest x operator p.2 = .ok r ∧ r.manifest.name = name ∧
      p.1 = logKey name r.manifest.version) (hsorted : l.Pairwise fun a b => a.1 < b.1) :
    ∃ rs : List ManifestRecord, l.map Prod.snd = rs.map (·.envelope) ∧
      (∀ r ∈ rs, readManifest x operator r.envelope = .ok r ∧ r.manifest.name = name ∧
        (logKey name r.manifest.version, r.envelope) ∈ l) ∧
      rs.Pairwise fun a b => a.manifest.version < b.manifest.version := by
  induction l with
  | nil => exact ⟨[], rfl, by simp, Pairwise.nil⟩
  | cons p l ih =>
    obtain ⟨hfirst, hrest⟩ := pairwise_cons.1 hsorted
    obtain ⟨rs, hrs, hall, hpair⟩ := ih (fun q hq => hread q (mem_cons_of_mem p hq)) hrest
    obtain ⟨r, hr, hname, hkey⟩ := hread p mem_cons_self
    obtain ⟨-, -, -, henv⟩ := readManifest_eq_ok hr
    have hp : p = (logKey name r.manifest.version, r.envelope) := Prod.ext hkey henv.symm
    refine ⟨r :: rs, by rw [map_cons, map_cons, hrs, henv], fun q hq => ?_,
      pairwise_cons.2 ⟨fun q hq => ?_, hpair⟩⟩
    · rcases mem_cons.1 hq with rfl | hq
      · exact ⟨by rw [henv]; exact hr, hname, by rw [← hp]; exact mem_cons_self⟩
      · obtain ⟨hq', hqname, hmem⟩ := hall q hq
        exact ⟨hq', hqname, mem_cons_of_mem p hmem⟩
    · -- Were the version of `q` not higher, its key would not be.
      have hlt := hfirst _ (hall q hq).2.2
      rw [hp] at hlt
      by_contra hle
      rcases (not_lt.1 hle).lt_or_eq with hless | heq
      · exact hlt.asymm (logKey_lt hless (version_lt hr))
      · exact hlt.ne (by rw [heq])

/-- The log of a worker: its accepted manifests, sorted by version. -/
theorem Logged.loadLog_eq (hp : Logged x n.manifestPart) (name : String) :
    ∃ rs : List ManifestRecord, n.store.loadLog name = rs.map (·.envelope) ∧
      (∀ r ∈ rs, readManifest x n.operator r.envelope = .ok r ∧ r.manifest.name = name ∧
        n.store.log.get (logKey name r.manifest.version) = some r.envelope) ∧
      rs.Pairwise fun a b => a.manifest.version < b.manifest.version := by
  rw [NodeStore.loadLog, scan_eq_filter]
  have hread : ∀ p ∈ n.store.log.entries.filter
        fun p => (String.ofList (name.toList ++ [nul])).toList <+: p.1.toList,
      ∃ r, readManifest x n.operator p.2 = .ok r ∧ r.manifest.name = name ∧
        p.1 = logKey name r.manifest.version := by
    intro p hmem
    obtain ⟨hp', hstart⟩ := mem_filter.1 hmem
    obtain ⟨r, held, hread, hkey, -⟩ := hp.entry p.1 p.2 ((get_eq_some_iff n.store.log).2 hp')
    have hvalid := WorkerManifest.of_validate (readManifest_eq_ok hread).2.1
    rw [decide_eq_true_iff, String.toList_ofList, hkey,
      start_logKey (nulFree_of_validName hvalid.1)] at hstart
    exact ⟨r, hread, hstart, by rw [hkey, hstart]⟩
  obtain ⟨rs, hrs, hall, hpair⟩ := exists_records hread (n.store.log.sorted.filter _)
  refine ⟨rs, hrs, fun r hr => ?_, hpair⟩
  obtain ⟨hr', hname, hmem⟩ := hall r hr
  exact ⟨hr', hname, (get_eq_some_iff _).2 (mem_filter.1 hmem).1⟩

/-- The versions of a history are those from 1 to some version. -/
def ContiguousLog (x : Crypto) (operator : SignerId) (envs : List Envelope) : Prop :=
  ∃ n, ∀ v, (∃ e ∈ envs, ∃ m, openManifest x operator e = .ok m ∧ m.version = v) ↔ 1 ≤ v ∧ v ≤ n

theorem Logged.verifyChain_loadLog (hp : Logged x n.manifestPart)
    (h : ContiguousLog x n.operator (n.store.loadLog name)) :
    ∃ ms, verifyChain x (n.store.loadLog name) n.operator = .ok ms := by
  obtain ⟨rs, hrs, hall, hpair⟩ := hp.loadLog_eq name
  obtain ⟨last, hversions⟩ := h
  rw [hrs] at hversions ⊢
  have hmem : ∀ v, v ∈ rs.map (·.manifest.version) ↔ v ∈ range' 1 last := by
    intro v
    rw [mem_range'_1, show v < 1 + last ↔ v ≤ last by omega, ← hversions v]
    simp only [mem_map]
    constructor
    · rintro ⟨r, hr, rfl⟩
      exact ⟨_, ⟨r, hr, rfl⟩, r.manifest, (readManifest_eq_ok (hall r hr).1).1, rfl⟩
    · rintro ⟨-, ⟨r, hr, rfl⟩, m, hm, rfl⟩
      obtain rfl := Except.ok.inj ((readManifest_eq_ok (hall r hr).1).1.symm.trans hm)
      exact ⟨r, hr, rfl⟩
  have heq : rs.map (·.manifest.version) = range' 1 last :=
    Pairwise.eq_of_mem_iff (pairwise_map.2 hpair) (pairwise_lt_range' 1) hmem
  have hsucc : rs.IsChain fun a b => b.manifest.version = a.manifest.version + 1 := by
    have := isChain_range' 1 last 1
    rwa [← heq, isChain_map] at this
  refine ⟨_, verifyFrom_of_isChain (fun r hr => (hall r hr).1) (fun r hr hone => ?_)
    (hsucc.imp_of_mem_imp fun a b ha hb hab => ?_)⟩
  · have hr' := mem_of_mem_head? hr
    exact ((WorkerManifest.of_validate (readManifest_eq_ok (hall r hr').1).2.1).2).1 hone
  · obtain ⟨haread, haname, haget⟩ := hall a ha
    obtain ⟨hbread, hbname, hbget⟩ := hall b hb
    refine ⟨?_, hbname.trans haname.symm, ?_⟩
    · rw [Nat.mod_eq_of_lt (by rw [← hab]; exact version_lt hbread), hab]
    · exact hp.link _ _ _ _ a b haget hbget haread hbread (hbname.trans haname.symm) hab

/-! ### Runs -/

/-- The envelope has the version of the record held and a lower digest. -/
def Node.replaces (x : Crypto) (n : Node) (env : Envelope) : Bool :=
  match openManifest x n.operator env with
  | .ok m => match n.inner.manifests.get m.name with
      | some held => m.version == held.manifest.version && env.digest x < held.digest
      | none => false
  | .error _ => false

/-- The call does not replace a record by one of the same version. -/
def Appends (x : Crypto) (s : NodeState) (ev : NodeEvent) : Prop :=
  match ev.call with
  | .ingestManifest env => s.node.replaces x env = false
  | _ => True

instance (x : Crypto) (s : NodeState) (ev : NodeEvent) : Decidable (Appends x s ev) :=
  match h : ev.call with
  | .ingestManifest env =>
      decidable_of_iff (s.node.replaces x env = false) (by unfold Appends; rw [h])
  | .ingestClaim _ | .kvPut _ _ _ _ | .kvPutWithMetadata _ _ _ _ _ | .kvMergeRemote _ _ | .gc =>
      .isTrue (by unfold Appends; rw [h]; trivial)

/-- A record that is newer and does not replace one of its version has a higher version. -/
theorem Node.version_lt_of_not_replaces
    {held : ManifestRecord} (hread : readManifest x n.operator env = .ok r)
    (hheld : n.inner.manifests.get r.manifest.name = some held) (hnew : r.newer held)
    (h : n.replaces x env = false) : held.manifest.version < r.manifest.version := by
  obtain ⟨hopen, -, hdigest, -⟩ := readManifest_eq_ok hread
  unfold replaces at h
  rw [hopen] at h
  dsimp only at h
  rw [hheld] at h
  dsimp only at h
  simp only [ManifestRecord.newer, Bool.or_eq_true, decide_eq_true_eq] at hnew
  rcases hnew with hlt | htie
  · exact hlt
  · rw [hdigest, h] at htie
    cases htie

theorem Logged.step {s t : NodeState} {ev : NodeEvent}
    (hp : Logged x s.node.manifestPart) (happ : Appends x s ev) (hstep : s.step x ev = some t) :
    Logged x t.node.manifestPart ∧ t.node.operator = s.node.operator ∧
      ∀ k e, s.node.store.log.get k = some e → t.node.store.log.get k = some e := by
  have hsame : ∀ {n : Node}, n.manifestPart = s.node.manifestPart → Logged x n.manifestPart ∧
      n.operator = s.node.operator ∧
      ∀ k e, s.node.store.log.get k = some e → n.store.log.get k = some e := by
    intro n hn
    have hlog : n.store.log = s.node.store.log := congrArg ManifestPart.log hn
    exact ⟨hn ▸ hp, congrArg ManifestPart.operator hn, fun k e he => by rw [hlog]; exact he⟩
  cases hstep
  obtain ⟨call, wall, disk⟩ := ev
  cases call with
  | ingestManifest env =>
    rcases s.node.manifestPart_ingestManifest x disk env hp.operator
      with heq | ⟨r, hread, hnew, heq⟩
    · exact hsame heq
    · obtain ⟨haccept, hgrow⟩ := hp.accept
        (fun held hheld => ⟨Node.version_lt_of_not_replaces hread hheld (hnew held hheld).1 happ,
          (hnew held hheld).2⟩) hread _ (disk 0 && disk 1)
      exact ⟨(congrArg (Logged x) heq).mpr haccept, congrArg ManifestPart.operator heq,
        fun k e he => (congrArg (fun p => p.log.get k) heq).trans (hgrow k e he)⟩
  | ingestClaim env => exact hsame (s.node.frame_ingestClaim x wall disk env).1
  | gc => exact hsame rfl
  | kvPut | kvPutWithMetadata | kvMergeRemote =>
    exact hsame (Node.frame_kv (by simp) (by simp) (by simp)).1

/-- What the log of a worker has had, it still has at the end of the run, and if it has no gaps it
verifies. -/
def LogSound (x : Crypto) (id : PublicId) (operator : SignerId) (evs : List NodeEvent)
    (s : NodeState) : Prop :=
  (∀ before after u, evs = before ++ after →
      run (step x) (init id operator) before = some u →
      ∀ name env, env ∈ u.node.store.loadLog name → env ∈ s.node.store.loadLog name) ∧
    ∀ name, ContiguousLog x operator (s.node.store.loadLog name) →
      ∃ ms, verifyChain x (s.node.store.loadLog name) operator = .ok ms

/-- **The log is append-only and verifiable**, in every run in which no manifest replaces one of the
same version, whichever transactions fail. -/
theorem log_sound_of_appends (x : Crypto) (id : PublicId) (operator : SignerId)
    (evs : List NodeEvent) (s : NodeState)
    (happ : Runs.Meets (step x) (Appends x) (init id operator) evs)
    (hrun : run (step x) (init id operator) evs = some s) : LogSound x id operator evs s := by
  have hlogged : ∀ {l u}, Runs.Meets (step x) (Appends x) (init id operator) l →
      run (step x) (init id operator) l = some u →
      Logged x u.node.manifestPart ∧ u.node.operator = operator := by
    intro l u hm hr
    refine run_invariant (P := fun u : NodeState =>
      Logged x u.node.manifestPart ∧ u.node.operator = operator) ?_
      ⟨logged_new x id operator, rfl⟩ hm hr
    intro u ev v hu hev hstep
    obtain ⟨hp, hop, -⟩ := hu.1.step hev hstep
    exact ⟨hp, hop.trans hu.2⟩
  refine ⟨?_, fun name hcont => ?_⟩
  · rintro before after u rfl hbefore name env henv
    obtain ⟨u', hu', hafter⟩ := run_append_eq_some.1 hrun
    cases hbefore.symm.trans hu'
    -- From there on every step keeps what the log has.
    have hgrow := run_invariant (P := fun v : NodeState => Logged x v.node.manifestPart ∧
        ∀ k e, u.node.store.log.get k = some e → v.node.store.log.get k = some e)
      (fun v ev w hv hev hstep => by
        obtain ⟨hp, -, hkeep⟩ := hv.1.step hev hstep
        exact ⟨hp, fun k e he => hkeep k e (hv.2 k e he)⟩)
      ⟨(hlogged happ.left hbefore).1, fun _ _ he => he⟩ (happ.right hbefore) hafter
    rw [NodeStore.mem_loadLog] at henv ⊢
    obtain ⟨k, hk, hstart⟩ := henv
    exact ⟨k, hgrow.2 k env hk, hstart⟩
  · obtain ⟨hp, hop⟩ := hlogged happ hrun
    rw [← hop] at hcont ⊢
    exact hp.verifyChain_loadLog hcont

/-- The call with a store that works. -/
def ingestEvent (env : Envelope) : NodeEvent := ⟨.ingestManifest env, fun _ => 0, fun _ => true⟩

/-- Two versions of the sample worker, the second of which links the first. -/
theorem log_sound_linkedRun : ∃ s, run (step sampleCrypto) (init ⟨0⟩ sampleOperator)
        (sampleHistory.map ingestEvent) = some s ∧ s.node.store.loadLog "w" = sampleHistory ∧
      LogSound sampleCrypto ⟨0⟩ sampleOperator (sampleHistory.map ingestEvent) s := by
  refine ⟨_, rfl, by decide +kernel,
    log_sound_of_appends sampleCrypto ⟨0⟩ sampleOperator _ _ (by decide +kernel) rfl⟩

/-- Two different first versions of a worker, the lower digest last. -/
def replacingRun : List NodeEvent :=
  [ingestEvent (sampleDeploy 1 none "b"), ingestEvent (sampleDeploy 1 none "a")]

/-- The first one has been accepted and logged, and the log has it no more. -/
theorem replacingRun_forgets : ∃ s, run (step sampleCrypto) (init ⟨0⟩ sampleOperator)
        replacingRun = some s ∧ ¬ LogSound sampleCrypto ⟨0⟩ sampleOperator replacingRun s := by
  refine ⟨_, rfl, fun h => ?_⟩
  have hkept := h.1 [ingestEvent (sampleDeploy 1 none "b")] _ _ rfl rfl "w"
    (sampleDeploy 1 none "b")
  exact absurd (hkept (by decide +kernel)) (by decide +kernel)

end RandallFlare
