import RandallFlare.Signed.ManifestSet

/-!
# The hash chain of a worker

`verifyChain` accepts a history from its front; what an accepted history is, is read from its end:
the last envelope opens and links the one before it.  The digest of the last envelope fixes that
envelope, hence its link, hence the digest of the one before, down to the first version, which links
nothing.

* `verifyChain_injOn_last`: the digest of the last envelope fixes the history.
-/

namespace RandallFlare

open List

variable {x : Crypto} {operator : SignerId}

variable {last : Option (WorkerManifest × Digest)} {envs : List Envelope} {ms : List WorkerManifest}
  {env : Envelope}

theorem length_verifyFrom (h : verifyFrom x operator last envs = .ok ms) :
    ms.length = envs.length := by
  induction envs generalizing last ms with
  | nil =>
    cases h
    rfl
  | cons env rest ih =>
    obtain ⟨m, ms', -, -, hrest, rfl⟩ := verifyFrom_cons.1 h
    simp [ih hrest]

/-- The last envelope of an accepted history opens, and it links the envelope before it; a history
of one envelope starts where `last` ends. -/
theorem verifyFrom_concat (h : verifyFrom x operator last (envs ++ [env]) = .ok ms) :
    ∃ m ms', verifyFrom x operator last envs = .ok ms' ∧ ms = ms' ++ [m] ∧
      openManifest x operator env = .ok m ∧ (envs = [] → Follows last m) ∧
      ∀ e, envs.getLast? = some e → m.prev = some (e.digest x) := by
  induction envs generalizing last ms with
  | nil =>
    obtain ⟨m, ms', hopen, hfollows, hrest, rfl⟩ := verifyFrom_cons.1 h
    cases hrest
    exact ⟨m, [], rfl, rfl, hopen, fun _ => hfollows, fun e he => by simp at he⟩
  | cons first rest ih =>
    obtain ⟨k, ks, hopen, hfollows, hrest, rfl⟩ := verifyFrom_cons.1 h
    obtain ⟨m, ms', hrest', rfl, hlast, hsingle, hlink⟩ := ih hrest
    refine ⟨m, k :: ms', verifyFrom_cons.2 ⟨k, ms', hopen, hfollows, hrest', rfl⟩, rfl, hlast,
      fun hnil => absurd hnil (by simp), fun e he => ?_⟩
    cases rest with
    | nil =>
      obtain rfl : first = e := by simpa using he
      exact (hsingle rfl).2.2
    | cons second rest' => exact hlink e (by simpa using he)

theorem verifyFrom_of_isChain {rs : List ManifestRecord}
    (hread : ∀ r ∈ rs, readManifest x operator r.envelope = .ok r)
    (hfirst : ∀ r, rs.head? = some r → Follows last r.manifest)
    (hchain : rs.IsChain fun a b => Follows (some (a.manifest, a.digest)) b.manifest) :
    verifyFrom x operator last (rs.map (·.envelope)) = .ok (rs.map (·.manifest)) := by
  induction rs generalizing last with
  | nil => rfl
  | cons r rs ih =>
    obtain ⟨hopen, -, hdigest, -⟩ := readManifest_eq_ok (hread r mem_cons_self)
    refine verifyFrom_cons.2 ⟨r.manifest, rs.map (·.manifest), hopen, hfirst r rfl, ?_, rfl⟩
    refine ih (fun q hq => hread q (mem_cons_of_mem r hq)) (fun q hq => ?_) hchain.tail
    obtain ⟨t, rfl⟩ := head?_eq_some_iff.1 hq
    rw [← hdigest]
    exact (isChain_cons_cons.1 hchain).1

/-- A history from version 1 links, at its end, exactly what stands before. -/
theorem prev_of_verifyChain (h : verifyChain x (envs ++ [env]) operator = .ok ms)
    (hone : ms.head?.map (·.version) = some 1) :
    ∃ m, openManifest x operator env = .ok m ∧ m.prev = envs.getLast?.map (·.digest x) ∧
      (envs ≠ [] → ∃ ms', verifyChain x envs operator = .ok ms' ∧
        ms'.head?.map (·.version) = some 1) := by
  obtain ⟨m, ms', hrest, rfl, hopen, hsingle, hlink⟩ := verifyFrom_concat h
  refine ⟨m, hopen, ?_, fun hne => ⟨ms', hrest, ?_⟩⟩
  · cases hlast : envs.getLast? with
    | none =>
      obtain rfl := getLast?_eq_none_iff.1 hlast
      cases hrest
      exact hsingle rfl (by simpa using hone)
    | some e => exact hlink e hlast
  · have hne' : ms' ≠ [] := by
      intro hnil
      have hlen := length_verifyFrom hrest
      rw [hnil] at hlen
      exact hne (length_eq_zero_iff.1 hlen.symm)
    rwa [head?_append_of_ne_nil _ hne'] at hone

/-- **Two histories of an operator from version 1 that end in envelopes of the same digest are the
same, envelope by envelope.** -/
theorem verifyChain_injOn_last (x : Crypto) (operator : SignerId) (envs envs' : List Envelope)
    (ms ms' : List WorkerManifest)
    (hsha : x.CollisionFree ((envs ++ envs').map Envelope.digestInput))
    (h : verifyChain x envs operator = .ok ms) (h' : verifyChain x envs' operator = .ok ms')
    (hone : ms.head?.map (·.version) = some 1) (hone' : ms'.head?.map (·.version) = some 1)
    (hlast : envs.getLast?.map (·.digest x) = envs'.getLast?.map (·.digest x)) : envs = envs' := by
  -- Backwards: the end fixes its link, which is the digest of the end of the rest.
  induction envs using reverseRecOn generalizing envs' ms ms' with
  | nil => simpa [eq_comm] using hlast
  | append_singleton rest env ih =>
    rcases eq_nil_or_concat' envs' with rfl | ⟨rest', env', rfl⟩
    · simp at hlast
    obtain ⟨m, hopen, hprev, hrest⟩ := prev_of_verifyChain h hone
    obtain ⟨m', hopen', hprev', hrest'⟩ := prev_of_verifyChain h' hone'
    have hdigest : env.digest x = env'.digest x := by simpa using hlast
    obtain rfl : env = env' := eq_of_digest_eq hsha (by simp) (by simp) hopen hopen' hdigest
    obtain rfl : m = m' := Except.ok.inj (hopen.symm.trans hopen')
    have hends : rest.getLast?.map (·.digest x) = rest'.getLast?.map (·.digest x) :=
      hprev.symm.trans hprev'
    have hnil : rest = [] ↔ rest' = [] := by
      rw [← getLast?_eq_none_iff, ← getLast?_eq_none_iff,
        ← Option.map_eq_none_iff (f := (·.digest x)), hends, Option.map_eq_none_iff]
    by_cases hr : rest = []
    · rw [hr, hnil.1 hr]
    · obtain ⟨ks, hks, hk⟩ := hrest hr
      obtain ⟨ks', hks', hk'⟩ := hrest' fun hr' => hr (hnil.2 hr')
      have hsub : x.CollisionFree ((rest ++ rest').map Envelope.digestInput) := by
        intro a ha b hb
        refine hsha a ?_ b ?_
        · simp only [map_append, mem_append] at ha ⊢
          tauto
        · simp only [map_append, mem_append] at hb ⊢
          tauto
      rw [ih rest' ks ks' hsub hks hks' hk hk' hends]

/-- Two versions of the sample worker. -/
def sampleHistory : List Envelope :=
  [sampleDeploy 1 none "a", sampleSuccessor 2 (sampleDeploy 1 none "a") "b"]

theorem verifyChain_injOn_last_sampleHistory :
    sampleHistory = [sampleDeploy 1 none "a", sampleSuccessor 2 (sampleDeploy 1 none "a") "b"] := by
  have hok : verifyChain sampleCrypto sampleHistory sampleOperator =
      .ok [sampleSite 1 none "a",
        sampleSite 2 (some ((sampleDeploy 1 none "a").digest sampleCrypto)) "b"] := by
    decide +kernel
  exact verifyChain_injOn_last sampleCrypto sampleOperator sampleHistory _ _ _ (by decide +kernel)
    hok hok rfl rfl rfl

end RandallFlare
