import RandallFlare.Signed.Resource
import RandallFlare.Signed.Source

/-!
# The kinds of signed payloads

An envelope does not say what it carries, so one signature of the operator must not be good for two
kinds of payload.  The decoders are positional: what tells the kinds apart is how the bytes of a name
fall on the lengths, versions and option tags of another kind.

* `acceptsAs` is `Management::approve` on the payload: decode, then validate;
* `accepts_unique` is the result.
-/

namespace RandallFlare

open Postcard List

/-- What the operator signs besides logins: `ApprovalKind`. -/
inductive SignedKind
  | manifest
  | source
  | resource
  deriving DecidableEq

/-- The payload decodes to a value that validates. -/
def acceptedBy {T E : Type} (decoder : Decoder T) (validate : T → Except E Unit) (b : Bytes) :
    Bool :=
  match decoder b with
  | some (v, _) => (validate v).isOk
  | none => false

/-- The payload is accepted as one of this kind.  A source may have the older wire form. -/
def acceptsAs (json : JsonReader) : SignedKind → Bytes → Bool
  | .manifest => acceptedBy WorkerManifest.decoder WorkerManifest.validate
  | .source => fun b =>
      acceptedBy WorkerSource.decoder WorkerSource.validate b ||
        acceptedBy WorkerSource.legacyDecoder WorkerSource.validate b
  | .resource => acceptedBy ResourceRecord.decoder (ResourceRecord.validate json)

variable {T E : Type} {decoder : Decoder T} {validate : T → Except E Unit} {b : Bytes} {s : String}
  {t : Bytes} {preview : Decoder Bool} {json : JsonReader} {x : Crypto} {env : Envelope}
  {k : SignedKind}

theorem acceptedBy_eq_true (h : acceptedBy decoder validate b) :
    ∃ v r, decoder b = some (v, r) ∧ validate v = .ok () := by
  unfold acceptedBy at h
  split at h
  · rename_i v r hdec
    refine ⟨v, r, hdec, ?_⟩
    cases hval : validate v with
    | error e =>
      rw [hval] at h
      cases h
    | ok u => rfl
  · cases h

/-! ### The bytes of names -/

/-- A byte that is a whole varint and no option tag. -/
def Plain (b : UInt8) : Prop := b.toNat < 128 ∧ b ≠ 0 ∧ b ≠ 1

theorem lowerOrDigit_bounds {b : UInt8} (h : lowerOrDigit b) :
    48 ≤ b.toNat ∧ b.toNat < 128 := by
  simp only [lowerOrDigit, Bool.or_eq_true, Bool.and_eq_true, decide_eq_true_eq,
    UInt8.le_iff_toNat_le] at h
  have h97 : (97 : UInt8).toNat = 97 := rfl
  have h122 : (122 : UInt8).toNat = 122 := rfl
  have h48 : (48 : UInt8).toNat = 48 := rfl
  have h57 : (57 : UInt8).toNat = 57 := rfl
  omega

theorem plain_of_lowerOrDigit {b : UInt8} (h : lowerOrDigit b) : Plain b := by
  obtain ⟨hlow, hhigh⟩ := lowerOrDigit_bounds h
  refine ⟨hhigh, ?_, ?_⟩
  · rintro rfl
    exact absurd hlow (by decide)
  · rintro rfl
    exact absurd hlow (by decide)

theorem plain_of_validName (h : validName s) : utf8 s ≠ [] ∧ ∀ b ∈ utf8 s, Plain b := by
  simp only [validName, validLabel, Bool.and_eq_true, decide_eq_true_eq, all_eq_true,
    Bool.or_eq_true, beq_iff_eq] at h
  refine ⟨h.1.1.1.1, fun b hb => ?_⟩
  rcases h.2 b hb with hb | rfl
  · exact plain_of_lowerOrDigit hb
  · exact ⟨by decide, by decide, by decide⟩

theorem plain_of_validKind (h : validKind s) : ∀ b ∈ utf8 s, Plain b := by
  simp only [validKind, Bool.and_eq_true, decide_eq_true_eq, all_eq_true, Bool.or_eq_true,
    beq_iff_eq] at h
  intro b hb
  rcases h.2 b hb with hb | rfl
  · exact plain_of_lowerOrDigit hb
  · exact ⟨by decide, by decide, by decide⟩

theorem lowerOrDigit_of_validName {c : UInt8} (h : validName s)
    (hs : utf8 s = [c]) : lowerOrDigit c := by
  simp only [validName, validLabel, hs, Bool.and_eq_true, decide_eq_true_eq, all_eq_true,
    Bool.or_eq_true, beq_iff_eq, mem_singleton, forall_eq, head?_cons] at h
  rcases h.2 with hc | rfl
  · exact hc
  · exact absurd rfl h.1.1.2

theorem plain_ne_tag {d : Decoder T} {b : UInt8} {r : Bytes} {v : Option T}
    (hb : Plain b) (h : Postcard.option d (b :: t) = some (v, r)) : False :=
  (option_eq_some h).elim hb.2.1 hb.2.2

/-! ### The heads of the three kinds -/

/-- A manifest starts with its name, its version and its link. -/
theorem head_of_manifest (h : acceptedBy WorkerManifest.decoder WorkerManifest.validate b) :
    ∃ name t version u prev r, str b = some (name, t) ∧ u64 t = some (version, u) ∧
      Postcard.option digestDecoder u = some (prev, r) ∧ validName name := by
  obtain ⟨m, r, hdec, hval⟩ := acceptedBy_eq_true h
  obtain ⟨t, u, r', hname, hversion, hprev⟩ := WorkerManifest.decoder_eq_some hdec
  exact ⟨_, t, _, u, _, r', hname, hversion, hprev, (WorkerManifest.of_validate hval).1⟩

/-- A source starts with a byte `1`, its worker, its version and its link. -/
theorem head_of_source
    (h : acceptedBy (WorkerSource.decoderWith preview) WorkerSource.validate b) :
    ∃ a worker t version u prev r, b = 1 :: a ∧ str a = some (worker, t) ∧
      u64 t = some (version, u) ∧ Postcard.option digestDecoder u = some (prev, r) ∧
      validName worker := by
  obtain ⟨s, r, hdec, hval⟩ := acceptedBy_eq_true h
  obtain ⟨schema, a, hschema, hrest⟩ := bind_eq_some.1 hdec
  obtain ⟨worker, t, hworker, hrest⟩ := bind_eq_some.1 hrest
  obtain ⟨version, u, hversion, hrest⟩ := bind_eq_some.1 hrest
  obtain ⟨prev, r', hprev, hrest⟩ := bind_eq_some.1 hrest
  simp only [bind_eq_some] at hrest
  obtain ⟨_, _, -, _, _, -, _, _, -, _, _, -, _, _, -, _, _, -, _, _, -, _, _, -, _, _, -, hs⟩ := hrest
  obtain rfl := u8_eq_some.1 hschema
  cases hs
  obtain ⟨hone, hname, -⟩ := WorkerSource.of_validate hval
  obtain rfl : schema = 1 := hone
  exact ⟨a, worker, t, version, u, prev, r', rfl, hworker, hversion, hprev, hname⟩

/-- A resource starts with a byte `1`, its kind and its name. -/
theorem head_of_resource
    (h : acceptedBy ResourceRecord.decoder (ResourceRecord.validate json) b) :
    ∃ a kind t name r, b = 1 :: a ∧ str a = some (kind, t) ∧ str t = some (name, r) ∧
      validKind kind ∧ validName name := by
  obtain ⟨s, r, hdec, hval⟩ := acceptedBy_eq_true h
  obtain ⟨schema, a, hschema, hrest⟩ := bind_eq_some.1 hdec
  obtain ⟨kind, t, hkind, hrest⟩ := bind_eq_some.1 hrest
  obtain ⟨name, r', hname, hrest⟩ := bind_eq_some.1 hrest
  simp only [bind_eq_some] at hrest
  obtain ⟨_, _, -, _, _, -, _, _, -, _, _, -, hs⟩ := hrest
  obtain rfl := u8_eq_some.1 hschema
  cases hs
  obtain ⟨hone, hvkind, hvname, -⟩ := ResourceRecord.of_validate hval
  obtain rfl : schema = 1 := hone
  exact ⟨a, kind, t, name, r', rfl, hkind, hname, hvkind, hvname⟩

/-! ### No two kinds share a payload -/

/-- A manifest does not start with a byte `1` and a string of plain bytes: read as a name, the byte
is a length, the string's own length the only letter, its first byte the version and its second the
tag of the link. -/
theorem manifest_ne_tagged {a : Bytes}
    (h : acceptedBy WorkerManifest.decoder WorkerManifest.validate (1 :: a))
    (hs : str a = some (s, t)) (hplain : ∀ b ∈ utf8 s, Plain b) : False := by
  obtain ⟨name, t₁, version, u, prev, r, hname, hversion, hprev, hvalid⟩ := head_of_manifest h
  have hlen : some (1, a) = some ((utf8 name).length, utf8 name ++ t₁) :=
    (varint_of_lt a (by decide) (by decide)).symm.trans (str_eq_some hname)
  obtain ⟨hone, rfl⟩ := Prod.mk.inj (Option.some.inj hlen)
  obtain ⟨c, hc⟩ := length_eq_one_iff.1 hone.symm
  have hletter := lowerOrDigit_of_validName hvalid hc
  obtain ⟨hlow, hhigh⟩ := lowerOrDigit_bounds hletter
  rw [hc] at hs
  have hlen' : some (c.toNat, t₁) = some ((utf8 s).length, utf8 s ++ t) :=
    (varint_of_lt t₁ hhigh (by decide)).symm.trans (str_eq_some hs)
  obtain ⟨hlong, rfl⟩ := Prod.mk.inj (Option.some.inj hlen')
  -- The string has at least 48 bytes, so that the version and the tag are among them.
  match hbytes : utf8 s with
  | [] | [_] =>
    rw [hbytes] at hlong
    simp only [length_nil, length_singleton] at hlong
    omega
  | d :: e :: rest =>
    rw [hbytes] at hversion hplain
    have hd := hplain d (by simp)
    have he := hplain e (by simp)
    have hver : some (d.toNat, e :: (rest ++ t)) = some (version, u) :=
      (varint_of_lt _ hd.1 (by decide)).symm.trans hversion
    cases hver
    exact plain_ne_tag he hprev

theorem manifest_ne_source (hm : acceptedBy WorkerManifest.decoder WorkerManifest.validate b)
    (hs : acceptedBy (WorkerSource.decoderWith preview) WorkerSource.validate b) :
    False := by
  obtain ⟨a, worker, t, version, u, prev, r, rfl, hworker, -, -, hvalid⟩ := head_of_source hs
  exact manifest_ne_tagged hm hworker (plain_of_validName hvalid).2

theorem manifest_ne_resource
    (hm : acceptedBy WorkerManifest.decoder WorkerManifest.validate b)
    (hr : acceptedBy ResourceRecord.decoder (ResourceRecord.validate json) b) : False := by
  obtain ⟨a, kind, t, name, r, rfl, hkind, -, hvalid, -⟩ := head_of_resource hr
  exact manifest_ne_tagged hm hkind (plain_of_validKind hvalid)

/-- Read as a source, the length of a resource's name is the version and its first byte the tag of
the link. -/
theorem source_ne_resource
    (hs : acceptedBy (WorkerSource.decoderWith preview) WorkerSource.validate b)
    (hr : acceptedBy ResourceRecord.decoder (ResourceRecord.validate json) b) : False := by
  obtain ⟨a, worker, t, version, u, prev, r, rfl, hworker, hversion, hprev, -⟩ := head_of_source hs
  obtain ⟨a', kind, t', name, r', ha, hkind, hname, -, hvalid⟩ := head_of_resource hr
  obtain rfl : a = a' := (cons.inj ha).2
  cases hworker.symm.trans hkind
  cases hversion.symm.trans (str_eq_some hname)
  obtain ⟨hne, hplain⟩ := plain_of_validName hvalid
  obtain ⟨d, rest, hd⟩ := exists_cons_of_ne_nil hne
  rw [hd] at hprev hplain
  exact plain_ne_tag (hplain d mem_cons_self) hprev

/-- The envelope is accepted as one of this kind, as `Management::approve` and the ingests do. -/
def approves (x : Crypto) (json : JsonReader) (operator : SignerId) (env : Envelope) :
    SignedKind → Bool
  | .manifest => match env.openPayload x WorkerManifest.decoder (some operator) with
      | .ok m => m.validate.isOk
      | .error _ => false
  | .source => match openSource x env operator with
      | .ok s => s.validate.isOk
      | .error _ => false
  | .resource => match env.openPayload x ResourceRecord.decoder (some operator) with
      | .ok r => (r.validate json).isOk
      | .error _ => false

theorem acceptedBy_of_open {expected : Option SignerId} {v : T}
    (hopen : env.openPayload x decoder expected = .ok v) (hval : (validate v).isOk) :
    acceptedBy decoder validate env.payload := by
  obtain ⟨-, -, rest, hdec⟩ := Envelope.openPayload_eq_ok.1 hopen
  unfold acceptedBy
  rw [hdec]
  exact hval

theorem accepts_of_approves {operator : SignerId} (h : approves x json operator env k) :
    acceptsAs json k env.payload := by
  cases k with
  | manifest =>
    simp only [approves] at h
    split at h
    · rename_i m hopen
      exact acceptedBy_of_open hopen h
    · cases h
  | source =>
    simp only [approves, openSource] at h
    split at h
    · rename_i s hopen
      split at hopen
      · rename_i s' hopen'
        cases hopen
        exact Bool.or_eq_true_iff.2 (.inl (acceptedBy_of_open hopen' h))
      · exact Bool.or_eq_true_iff.2 (.inr (acceptedBy_of_open hopen h))
    · cases h
  | resource =>
    simp only [approves] at h
    split at h
    · rename_i r hopen
      exact acceptedBy_of_open hopen h
    · cases h

theorem accepts_source (h : acceptsAs json .source b) :
    ∃ preview, acceptedBy (WorkerSource.decoderWith preview) WorkerSource.validate b :=
  (Bool.or_eq_true_iff.1 h).elim (fun h => ⟨_, h⟩) fun h => ⟨_, h⟩

theorem accepts_kind {k' : SignedKind}
    (h : acceptsAs json k b) (h' : acceptsAs json k' b) : k = k' := by
  cases k <;> cases k' <;> first | rfl | exfalso
  · obtain ⟨preview, hs⟩ := accepts_source h'
    exact manifest_ne_source h hs
  · exact manifest_ne_resource h h'
  · obtain ⟨preview, hs⟩ := accepts_source h
    exact manifest_ne_source h' hs
  · obtain ⟨preview, hs⟩ := accepts_source h
    exact source_ne_resource hs h'
  · exact manifest_ne_resource h' h
  · obtain ⟨preview, hs⟩ := accepts_source h'
    exact source_ne_resource hs h

/-- **Kinds of payloads are not confused**: no byte string is accepted as two kinds, and no signed
envelope is approved or ingested as two kinds. -/
theorem accepts_unique (json : JsonReader) :
    (∀ b, ¬ (acceptsAs json .manifest b ∧ acceptsAs json .source b) ∧
      ¬ (acceptsAs json .manifest b ∧ acceptsAs json .resource b) ∧
      ¬ (acceptsAs json .source b ∧ acceptsAs json .resource b)) ∧
    ∀ x operator env k k', approves x json operator env k →
      approves x json operator env k' → k = k' := by
  refine ⟨fun b => ⟨?_, ?_, ?_⟩, fun x operator env k k' h h' => ?_⟩
  · rintro ⟨h, h'⟩
    exact SignedKind.noConfusion (accepts_kind h h')
  · rintro ⟨h, h'⟩
    exact SignedKind.noConfusion (accepts_kind h h')
  · rintro ⟨h, h'⟩
    exact SignedKind.noConfusion (accepts_kind h h')
  · exact accepts_kind (accepts_of_approves h) (accepts_of_approves h')

end RandallFlare
