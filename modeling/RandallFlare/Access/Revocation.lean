import RandallFlare.Exit.Routing
import RandallFlare.Platform.Resources

/-!
# Credentials and their revocation

A translation of how a node authenticates client devices (`rf/src/exit.rs`), API tokens
(`rf/src/access.rs`) and S3 credentials (`rf/src/s3.rs`).  A credential is a platform resource; the
head of its records says whether it is revoked.  The head is the record of the highest version and,
among those, of the highest digest, whatever the records below it say.

* `resolveDevice`, `resolveToken`, `findCredential`: who is authenticated;
* `Presented`: what is presented to a node, and `revokedIn`: what a record says of it;
* `RevokedLast`: no record without the revocation ranks above one with it;
* `revoked_for_good`: then a credential that is revoked on a node is not accepted there again;
* `editedAtOnce_accepted`: a token that is accepted after it was revoked.

What `serde_json` makes of a configuration is a parameter.
-/

namespace RandallFlare

open List Runs Option

namespace Access

open Exit (DeviceSpec DevicePrincipal ExitRuleSpec)
open Postcard (utf8)

def tokenKind : String := "api_access_token"

def deviceKind : String := "client_device"

def exitRuleKind : String := "exit_rule"

def credentialKind : String := "r2_s3_credential"

def allScopes : List String :=
  ["*", "worker:read", "worker:write", "kv:read", "kv:write", "d1:read", "d1:write", "r2:read",
    "r2:write", "queue:read", "queue:write", "analytics:read", "analytics:write", "pipeline:read",
    "pipeline:write", "workflow:read", "workflow:write", "flow:read", "flow:write", "email:read",
    "email:write", "binary:read", "binary:write", "storage:read", "storage:write", "network:read",
    "network:write", "node:read", "node:write", "quota:read", "quota:write", "audit:read"]

/-- The record of an API token. -/
structure AccessTokenSpec where
  schema : UInt8 := 1
  label : String
  tokenPrefix : String
  sha256 : String
  scopes : List String
  createdAtMs : ℕ
  expiresAtMs : Option ℕ := none
  revokedAtMs : Option ℕ := none

namespace AccessTokenSpec

def validate (s : AccessTokenSpec) : Except String Unit :=
  if s.schema ≠ 1 then .error "不支持此版本的 API 访问令牌"
  else if Text.trim s.label.toList = [] ∨ 120 < (utf8 s.label).length ∨
      s.label.toList.any (· ∈ ['\r', '\n']) then
    .error "API 访问令牌名称必须为 1 至 120 个字符"
  else if (utf8 s.tokenPrefix).length ≠ 12 ∨ ¬ "rfp_".toList <+: s.tokenPrefix.toList ∨
      ¬ (utf8 s.tokenPrefix).all DeviceSpec.tokenByte then
    .error "API 访问令牌显示前缀无效"
  else if (utf8 s.sha256).length ≠ 64 ∨ ¬ (utf8 s.sha256).all DeviceSpec.hexByte then
    .error "API 访问令牌摘要无效"
  else if s.scopes = [] ∨ allScopes.length < s.scopes.length then
    .error "API 访问令牌至少需要一个有效作用域"
  else if ¬ s.scopes.Nodup ∨ s.scopes.any (· ∉ allScopes) then
    .error "API 访问令牌包含重复或未知作用域"
  else if "*" ∈ s.scopes ∧ s.scopes.length ≠ 1 then .error "通配作用域 * 必须单独使用"
  else if s.createdAtMs = 0 then .error "API 访问令牌创建时间无效"
  else if s.expiresAtMs.any (· ≤ s.createdAtMs) then .error "API 访问令牌到期时间必须晚于创建时间"
  else if s.revokedAtMs.any (· < s.createdAtMs) then .error "API 访问令牌撤销时间无效"
  else .ok ()

def active (s : AccessTokenSpec) (atMs : ℕ) : Bool :=
  s.revokedAtMs.isNone && s.expiresAtMs.all (atMs < ·)

end AccessTokenSpec

structure BucketGrant where
  read : Bool
  write : Bool

structure S3CredentialSpec where
  schema : UInt8 := 1
  label : String
  accessKeyId : String
  nonceBase64 : String
  ciphertextBase64 : String
  aclEnabled : Bool := false
  grants : SortedMap String BucketGrant := SortedMap.empty
  createdAtMs : ℕ
  revokedAtMs : Option ℕ := none

def S3CredentialSpec.validate (s : S3CredentialSpec) : Except String Unit :=
  if s.schema ≠ 1 then .error "不支持此版本的 R2/S3 凭据"
  else if Text.trim s.label.toList = [] ∨ 120 < (utf8 s.label).length ∨
      s.label.toList.any (· ∈ ['\r', '\n']) then
    .error "R2/S3 凭据名称必须为 1 至 120 个字符"
  else if (utf8 s.accessKeyId).length < 16 ∨ 64 < (utf8 s.accessKeyId).length ∨
      ¬ (utf8 s.accessKeyId).all (fun b => (65 ≤ b && b ≤ 90) || (48 ≤ b && b ≤ 57)) then
    .error "R2/S3 Access Key ID 无效"
  else if 128 < (utf8 s.nonceBase64).length ∨ 1024 < (utf8 s.ciphertextBase64).length then
    .error "R2/S3 Secret Access Key 密文无效"
  else if s.createdAtMs = 0 ∨ s.revokedAtMs.any (· < s.createdAtMs) then
    .error "R2/S3 凭据时间无效"
  else if 1024 < s.grants.entries.length then .error "单个 R2/S3 凭据最多授权 1024 个 bucket"
  else match s.grants.entries.find? fun p => !validName p.1 || (!p.2.read && !p.2.write) with
    | some p => .error ("R2/S3 bucket 授权无效：" ++ p.1)
    | none => .ok ()

/-- What `serde_json` reads of the configurations of each kind; for an exit rule, what passes its
validation as well. -/
structure Decoders where
  device : JsonTree → Option DeviceSpec
  token : JsonTree → Option AccessTokenSpec
  credential : JsonTree → Option S3CredentialSpec
  rule : JsonTree → Option ExitRuleSpec

/-- Who an API token is for. -/
structure AccessPrincipal where
  id : String
  label : String
  scopes : List String

section

variable (x : Crypto) (json : JsonReader) (d : Decoders)

/-- The configuration of a record of this kind, if it can be read and is valid. -/
def readSpec {σ : Type} (kind : String) (decode : JsonTree → Option σ)
    (validate : σ → Except String Unit) (r : ResourceRecord) : Option σ :=
  if r.kind ≠ kind then none
  else ((json r.specJson).bind decode).filter fun s => (validate s).toBool

def exitRuleSpec (r : ResourceRecord) : Option ExitRuleSpec :=
  if r.deleted then none else readSpec json exitRuleKind d.rule (fun _ => .ok ()) r

def deviceSpec (r : ResourceRecord) : Option DeviceSpec :=
  if r.deleted then none else readSpec json deviceKind d.device DeviceSpec.validate r

def tokenSpec : ResourceRecord → Option AccessTokenSpec :=
  readSpec json tokenKind d.token AccessTokenSpec.validate

def credentialSpec : ResourceRecord → Option S3CredentialSpec :=
  readSpec json credentialKind d.credential S3CredentialSpec.validate

/-- The secret has this display prefix and this digest. -/
def secretMatches (displayed digest raw : String) : Bool :=
  utf8 displayed = (utf8 raw).take 12 ∧
    hexDecode digest.toList = some (beBytes 32 (x.sha256 (utf8 raw)).toNat)

/-- `validate_device_rules`. -/
def deviceRulesThere (n : Node) (nowMs : ℕ) (s : DeviceSpec) : Bool :=
  s.allowedRules.all fun name =>
    (n.head x json nowMs exitRuleKind name).any fun v => (exitRuleSpec json d v.resource).isSome

def resolveDevice (n : Node) (nowMs : ℕ) (name raw : String) : Option (String × DeviceSpec) :=
  if ¬ validName name ∨ ¬ "rfd_".toList <+: raw.toList ∨ (utf8 raw).length ≠ 47 then none
  else do
    let view ← n.head x json nowMs deviceKind name
    let spec ← deviceSpec json d view.resource
    if deviceRulesThere x json d n nowMs spec ∧ spec.active nowMs ∧
        secretMatches x spec.tokenPrefix spec.tokenSha256 raw then
      some (name, spec)
    else none

/-- `access::resolve`. -/
def resolveToken (n : Node) (nowMs : ℕ) (raw : String) : Option AccessPrincipal :=
  if ¬ "rfp_".toList <+: raw.toList ∨ (utf8 raw).length ≠ 47 then none
  else (n.heads x json nowMs (some tokenKind)).findSome? fun v =>
    if v.resource.deleted then none
    else (tokenSpec json d v.resource).bind fun s =>
      if s.active nowMs ∧ secretMatches x s.tokenPrefix s.sha256 raw then
        some ⟨v.resource.name, s.label, s.scopes⟩
      else none

/-- The credential that a signature is checked with. -/
def findCredential (n : Node) (nowMs : ℕ) (accessKeyId : String) :
    Option (String × S3CredentialSpec) :=
  (n.heads x json nowMs (some credentialKind)).findSome? fun v =>
    if v.resource.deleted then none
    else (credentialSpec json d v.resource).bind fun s =>
      if s.accessKeyId = accessKeyId ∧ s.revokedAtMs.isNone then some (v.resource.name, s) else none

/-- What is presented to a node: the token of a device or of the API, or the key of a signature. -/
inductive Presented
  | device (name raw : String)
  | token (raw : String)
  | s3 (accessKeyId : String)

namespace Presented

def kind : Presented → String
  | .device _ _ => deviceKind
  | .token _ => tokenKind
  | .s3 _ => credentialKind

/-- The node accepts what is presented; a signature is checked after this. -/
def accepted (n : Node) (nowMs : ℕ) : Presented → Bool
  | .device name raw => (resolveDevice x json d n nowMs name raw).isSome
  | .token raw => (resolveToken x json d n nowMs raw).isSome
  | .s3 accessKeyId => (findCredential x json d n nowMs accessKeyId).isSome

/-- If the record is a valid one of the credential, whether it is revoked in it. -/
def revokedIn (r : ResourceRecord) : Presented → Option Bool
  | .device name raw =>
    if r.name = name then
      ((deviceSpec json d r).filter fun s => secretMatches x s.tokenPrefix s.tokenSha256 raw).map
        (·.revokedAtMs.isSome)
    else none
  | .token raw =>
    if r.deleted then none
    else ((tokenSpec json d r).filter fun s => secretMatches x s.tokenPrefix s.sha256 raw).map
      (·.revokedAtMs.isSome)
  | .s3 accessKeyId =>
    if r.deleted then none
    else ((credentialSpec json d r).filter fun s => s.accessKeyId = accessKeyId).map
      (·.revokedAtMs.isSome)

end Presented

end

open Presented

/-! ### Heads -/

section Heads

variable {x : Crypto} {json : JsonReader} {d : Decoders} {n : Node} {nowMs : ℕ} {p : Presented}

variable {kind : String} {r : ResourceRecord} {v : ResourceView}

theorem kind_of_readSpec {σ : Type} {decode : JsonTree → Option σ}
    {validate : σ → Except String Unit} {s : σ}
    (h : readSpec json kind decode validate r = some s) : r.kind = kind := by
  unfold readSpec at h
  split_ifs at h with hkind
  exact not_not.1 hkind

theorem kind_of_revokedIn {b : Bool} (h : p.revokedIn x json d r = some b) : r.kind = p.kind := by
  cases p
  all_goals
    simp only [revokedIn] at h
    split_ifs at h
    obtain ⟨s, hs, -⟩ := map_eq_some_iff.1 h
    have hspec := (filter_eq_some_iff.1 hs).1
  · unfold deviceSpec at hspec
    split_ifs at hspec
    exact kind_of_readSpec hspec
  all_goals exact kind_of_readSpec hspec

/-- The highest of the records of a resource that count. -/
structure Top (x : Crypto) (json : JsonReader) (n : Node) (v : ResourceView) : Prop where
  stored : n.Stored x json v
  top : ∀ w, resourceLineage.Connected {u | n.Stored x json u ∧ u.id = w.id} w → w.id = v.id →
    w.rank ≤ v.rank

variable {envs : List Envelope} (hn : n.Keeps x json envs)
  (hsha : x.CollisionFree (envs.map Envelope.digestInput))

include hn hsha

theorem top_heads (hv : v ∈ n.heads x json nowMs (some kind)) (hkind : v.resource.kind = kind) :
    Top x json n v := by
  obtain ⟨hmem, htop⟩ := top_of_mem_heads hv
  have hstart : ∀ w : ResourceView, w.id = v.id → kind.toList ++ ['/'] <+: w.resource.keyStart := by
    intro w hid
    have hwkind : w.resource.kind = v.resource.kind := (Prod.mk.inj (toLex.injective hid)).1
    exact ⟨w.resource.name.toList ++ ['/'], by simp [ResourceRecord.keyStart, hwkind, hkind]⟩
  refine ⟨((mem_connected_candidates hn hsha (hstart v rfl)).1 hmem).mem.1, fun w hw hid => ?_⟩
  exact htop w ((mem_connected_candidates hn hsha (hstart w hid)).2 hw) hid

theorem top_head {name : String}
    (hv : n.head x json nowMs kind name = some v) : Top x json n v := by
  obtain ⟨hmem, hkind, hname, htop⟩ := top_of_head hv
  have hparts : ∀ w : ResourceView, w.id = v.id → w.resource.kind = kind ∧ w.resource.name = name :=
    fun w hid => by
      have h := Prod.mk.inj (toLex.injective hid)
      exact ⟨h.1.trans hkind, h.2.trans hname⟩
  have hstart : ∀ w : ResourceView, w.id = v.id →
      kind.toList ++ '/' :: (name.toList ++ ['/']) <+: w.resource.keyStart := by
    intro w hid
    rw [ResourceRecord.keyStart, (hparts w hid).1, (hparts w hid).2]
  refine ⟨((mem_connected_candidates hn hsha (hstart v rfl)).1 hmem).mem.1, fun w hw hid => ?_⟩
  obtain ⟨hwkind, hwname⟩ := hparts w hid
  exact htop w ((mem_connected_candidates hn hsha (hstart w hid)).2 hw) hwkind hwname

theorem exists_top_of_accepted (h : p.accepted x json d n nowMs) :
    ∃ v, Top x json n v ∧ p.revokedIn x json d v.resource = some false := by
  cases p with
  | device name raw =>
    obtain ⟨result, hresult⟩ := isSome_iff_exists.1 h
    unfold resolveDevice at hresult
    split_ifs at hresult
    obtain ⟨v, hv, hresult⟩ := bind_eq_some_iff.1 hresult
    obtain ⟨s, hs, hresult⟩ := bind_eq_some_iff.1 hresult
    split_ifs at hresult with hok
    obtain ⟨-, hactive, hsecret⟩ := hok
    refine ⟨v, top_head hn hsha hv, ?_⟩
    have hlive : s.revokedAtMs = none := by
      simp only [DeviceSpec.active, Bool.and_eq_true, isNone_iff_eq_none] at hactive
      exact hactive.1.2
    simp [revokedIn, (top_of_head hv).2.2.1, hs, hsecret, hlive]
  | token raw =>
    obtain ⟨result, hresult⟩ := isSome_iff_exists.1 h
    unfold resolveToken at hresult
    split_ifs at hresult
    obtain ⟨v, hv, hresult⟩ := exists_of_findSome?_eq_some hresult
    split_ifs at hresult with hdeleted
    obtain ⟨s, hs, hresult⟩ := bind_eq_some_iff.1 hresult
    split_ifs at hresult with hok
    obtain ⟨hactive, hsecret⟩ := hok
    refine ⟨v, top_heads hn hsha hv (kind_of_readSpec hs), ?_⟩
    have hlive : s.revokedAtMs = none := by
      simp only [AccessTokenSpec.active, Bool.and_eq_true, isNone_iff_eq_none] at hactive
      exact hactive.1
    simp [revokedIn, hdeleted, hs, hsecret, hlive]
  | s3 accessKeyId =>
    obtain ⟨result, hresult⟩ := isSome_iff_exists.1 h
    unfold findCredential at hresult
    obtain ⟨v, hv, hresult⟩ := exists_of_findSome?_eq_some hresult
    split_ifs at hresult with hdeleted
    obtain ⟨s, hs, hresult⟩ := bind_eq_some_iff.1 hresult
    split_ifs at hresult with hok
    refine ⟨v, top_heads hn hsha hv (kind_of_readSpec hs), ?_⟩
    simp [revokedIn, hdeleted, hs, hok.1, isNone_iff_eq_none.1 hok.2]

end Heads

/-! ### Runs -/

section

variable (x : Crypto) (json : JsonReader) (d : Decoders)

/-- A node takes in a record. -/
structure IngestEvent where
  body : Bytes
  wall : ℕ → ℕ
  disk : ℕ → Bool

def ingestBody (n : Node) (e : IngestEvent) : Option Node :=
  match Envelope.fromBytes e.body with
  | .error _ => some n
  | .ok env => some (n.ingestResource x json e.wall e.disk env).1

/-- The envelopes a node was given. -/
def envelopes (es : List IngestEvent) : List Envelope :=
  es.filterMap fun e => (Envelope.fromBytes e.body).toOption

/-- Every record of the credential in which it is not revoked is one of the same resource as those
in which it is, of a lower version or of the same version and a lower digest. -/
def RevokedLast (operator : SignerId) (envs : List Envelope) (p : Presented) : Bool :=
  envs.all fun e => envs.all fun f =>
    match readResource x json operator e, readResource x json operator f with
    | .ok r, .ok q =>
      !(p.revokedIn x json d r = some true && p.revokedIn x json d q = some false) ||
        (q.name = r.name && decide (toLex (q.version, hexDigest (f.digest x)) <
          toLex (r.version, hexDigest (e.digest x))))
    | _, _ => true

variable {x json d} {n m : Node} {envs : List Envelope}

theorem ingestBody_keeps {e : IngestEvent}
    (hn : n.Keeps x json envs) (he : ∀ env, Envelope.fromBytes e.body = .ok env → env ∈ envs)
    (h : ingestBody x json n e = some m) : m.Keeps x json envs ∧ m.operator = n.operator ∧
      ∀ v, n.Stored x json v → m.Stored x json v := by
  unfold ingestBody at h
  cases hbody : Envelope.fromBytes e.body with
  | error err =>
    rw [hbody] at h
    cases h
    exact ⟨hn, rfl, fun _ h => h⟩
  | ok env =>
    rw [hbody] at h
    cases h
    have hbytes := Envelope.fromBytes_toBytes hbody
    exact ⟨hn.ingestResource e.wall e.disk hbytes (he env hbody),
      congrArg ManifestPart.operator (manifestPart_ingestResource hn e.wall e.disk env),
      fun v => (stored_ingestResource hn e.wall e.disk hbytes v).1⟩

theorem ingestBodies_keep {es : List IngestEvent}
    (hn : n.Keeps x json envs) (hes : envelopes es ⊆ envs)
    (h : run (ingestBody x json) n es = some m) :
    m.Keeps x json envs ∧ m.operator = n.operator ∧ ∀ v, n.Stored x json v → m.Stored x json v := by
  induction es generalizing n with
  | nil =>
    cases h
    exact ⟨hn, rfl, fun _ h => h⟩
  | cons e es ih =>
    obtain ⟨t, ht, hrun⟩ := run_cons_eq_some.1 h
    have hhead : ∀ env, Envelope.fromBytes e.body = .ok env → env ∈ envs := fun env henv =>
      hes (mem_filterMap.2 ⟨e, mem_cons_self, by rw [henv]; rfl⟩)
    obtain ⟨hkeeps, hop, hstored⟩ := ingestBody_keeps hn hhead ht
    have htail : envelopes es ⊆ envs := fun env henv => by
      obtain ⟨f, hf, hfenv⟩ := mem_filterMap.1 henv
      exact hes (mem_filterMap.2 ⟨f, mem_cons_of_mem e hf, hfenv⟩)
    obtain ⟨hkeeps', hop', hstored'⟩ := ih hkeeps htail hrun
    exact ⟨hkeeps', hop'.trans hop, fun v hv => hstored' v (hstored v hv)⟩

/-- **If no record without the revocation ranks above one with it, a credential that a connected
record revokes is never accepted again.** -/
theorem revoked_for_good {id : PublicId} {operator : SignerId} {es fs : List IngestEvent}
    {p : Presented} {v : ResourceView} {nowMs : ℕ}
    (hsha : x.CollisionFree ((envelopes (es ++ fs)).map Envelope.digestInput))
    (hlast : RevokedLast x json d operator (envelopes (es ++ fs)) p)
    (hn : run (ingestBody x json) (Node.new id operator) es = some n)
    (hm : run (ingestBody x json) n fs = some m) (hv : v ∈ n.records x json nowMs none none)
    (hrevoked : p.revokedIn x json d v.resource = some true) (nowMs' : ℕ) :
    p.accepted x json d m nowMs' = false := by
  have hes : envelopes es ⊆ envelopes (es ++ fs) := by
    simp [envelopes, filterMap_append]
  have hfs : envelopes fs ⊆ envelopes (es ++ fs) := by
    simp [envelopes, filterMap_append]
  have hnew : (Node.new id operator).Keeps x json (envelopes (es ++ fs)) := by
    intro key e he
    cases he
  obtain ⟨hkeeps, hop, -⟩ := ingestBodies_keep hnew hes hn
  obtain ⟨hkeeps', hop', hstored⟩ := ingestBodies_keep hkeeps hfs hm
  refine Bool.eq_false_iff.2 fun haccepted => ?_
  obtain ⟨w, hw, hlive⟩ := exists_top_of_accepted hkeeps' hsha haccepted
  -- the revoked record is still connected, and so is not above the head
  have hconn := (mem_resourceRecords hkeeps hsha).1 hv
  have hconn' : resourceLineage.Connected {u | m.Stored x json u ∧ u.id = v.id} v :=
    hconn.mono fun u hu => ⟨hstored u hu.1, hu.2⟩
  obtain ⟨e, he, hread, hdigest⟩ := hconn'.mem.1.exists_envelope hkeeps'
  obtain ⟨f, hf, hread', hdigest'⟩ := hw.stored.exists_envelope hkeeps'
  rw [hop', hop] at hread hread'
  have hrank := all_eq_true.1 (all_eq_true.1 hlast e he) f hf
  change readResource x json operator e = .ok v.resource at hread
  change readResource x json operator f = .ok w.resource at hread'
  simp only [hread, hread', hrevoked, hlive, decide_true, Bool.and_self, Bool.not_true,
    Bool.false_or, Bool.and_eq_true, decide_eq_true_eq, ← hdigest, ← hdigest'] at hrank
  have hid : v.id = w.id := by
    simp only [ResourceView.id, hrank.1, kind_of_revokedIn hrevoked, kind_of_revokedIn hlive]
  exact absurd (hw.top v hconn' hid) (not_le.2 hrank.2)

end

/-- The digest of a text as the records have it. -/
def sampleSha (raw : String) : String := hexDigest (sampleCrypto.sha256 (utf8 raw))

def sampleToken : String := "rfp_AAAAAAAAAAAAAAAAAAAAAAAAAAAAAAAAAAAAAAAAAAA"

/-- The configuration is the label of the token, and whether it is revoked. -/
def sampleJson : JsonReader := fun text => some (.object [("label", .string text)])

def sampleDecoders : Decoders where
  device _ := none
  credential _ := none
  rule _ := none
  token
    | .object [(_, .string label)] => some
        { label := label
          tokenPrefix := "rfp_AAAAAAAA"
          sha256 := sampleSha sampleToken
          scopes := ["*"]
          createdAtMs := 1
          revokedAtMs := if label = "revoked" then some 2 else none }
    | _ => none

/-- The operator's envelope of a record of the token. -/
def tokenEnvelope (version : ℕ) (prev : Option Envelope) (label : String) : Envelope :=
  .sample sampleOperator (ResourceRecord.encode ⟨1, tokenKind, "pat-1", version,
    prev.map (·.digest sampleCrypto), false, label⟩)

def tokenIngest (env : Envelope) : IngestEvent := ⟨env.toBytes, fun _ => 1000, fun _ => true⟩

/-- A token is minted and revoked. -/
def mintedRevoked : List IngestEvent :=
  [tokenIngest (tokenEnvelope 1 none "laptop"),
    tokenIngest (tokenEnvelope 2 (some (tokenEnvelope 1 none "laptop")) "revoked")]

/-- The label of the token is edited on another node at the same time. -/
def editedAtOnce : IngestEvent :=
  tokenIngest (tokenEnvelope 2 (some (tokenEnvelope 1 none "laptop")) "home")

/-- The record the token was minted with arrives once more. -/
def mintedAgain : List IngestEvent := [tokenIngest (tokenEnvelope 1 none "laptop")]

theorem revoked_for_good_token :
    ∃ n m, run (ingestBody sampleCrypto sampleJson) (Node.new ⟨0⟩ sampleOperator)
        mintedRevoked = some n ∧ run (ingestBody sampleCrypto sampleJson) n mintedAgain = some m ∧
      (token sampleToken).accepted sampleCrypto sampleJson sampleDecoders m 9000 = false := by
  have h : (run (ingestBody sampleCrypto sampleJson) (Node.new ⟨0⟩ sampleOperator)
      mintedRevoked).any fun n => (n.records sampleCrypto sampleJson 2000 none none).any (fun v =>
        (token sampleToken).revokedIn sampleCrypto sampleJson sampleDecoders v.resource =
          some true) && (run (ingestBody sampleCrypto sampleJson) n mintedAgain).isSome := by
    decide +kernel
  obtain ⟨n, hn, h⟩ := (any_eq_true _ _).1 h
  obtain ⟨hrecords, hagain⟩ := Bool.and_eq_true_iff.1 h
  obtain ⟨v, hv, hrevoked⟩ := any_eq_true.1 hrecords
  obtain ⟨m, hm⟩ := isSome_iff_exists.1 hagain
  have hsha : sampleCrypto.CollisionFree
      ((envelopes (mintedRevoked ++ mintedAgain)).map Envelope.digestInput) := by
    decide +kernel
  exact ⟨n, m, hn, hm, revoked_for_good hsha (by decide +kernel) hn hm hv
    (of_decide_eq_true hrevoked) 9000⟩

/-- A token is revoked on one node while its label is edited on another; the edit has the higher
digest, and where both records are connected the token is accepted. -/
theorem editedAtOnce_accepted :
    ∃ n, run (ingestBody sampleCrypto sampleJson) (Node.new ⟨0⟩ sampleOperator)
        (mintedRevoked ++ [editedAtOnce]) = some n ∧
      (n.records sampleCrypto sampleJson 2000 none none).map (·.resource.specJson) =
        ["laptop", "revoked", "home"] ∧
      (token sampleToken).accepted sampleCrypto sampleJson sampleDecoders n 2000 := by
  have h : (run (ingestBody sampleCrypto sampleJson) (Node.new ⟨0⟩ sampleOperator)
      (mintedRevoked ++ [editedAtOnce])).any fun n =>
        (n.records sampleCrypto sampleJson 2000 none none).map (·.resource.specJson) =
          ["laptop", "revoked", "home"] &&
        (token sampleToken).accepted sampleCrypto sampleJson sampleDecoders n 2000 := by
    decide +kernel
  obtain ⟨n, hn, h⟩ := (any_eq_true _ _).1 h
  obtain ⟨hrecords, haccepted⟩ := Bool.and_eq_true_iff.1 h
  exact ⟨n, hn, of_decide_eq_true hrecords, haccepted⟩

end Access

end RandallFlare
