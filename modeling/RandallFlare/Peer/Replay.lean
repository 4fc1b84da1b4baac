import RandallFlare.Lib.Runs
import RandallFlare.Lib.SeenCache
import RandallFlare.Peer.Wire
import Mathlib.Data.List.MinMax

/-!
# Replayed requests

`encrypted_transport` in `rf/src/peerapi.rs` decrypts a request before its handler sees it and refuses
a nonce it has seen; `check`, called by the handler, refuses a timestamp too far from the node's clock.
Between them a request sealed by a client should be accepted once, whatever copies of it arrive.

* `encryptedTransport`, `check`: the two gates;
* `PeerNode`: a running node, with the requests that are between the gates;
* `PeerNode.AcceptedOnce`: at most one copy of a request passed both;
* `PeerNode.Guarded`: copies have the headers in the client's spelling and arrive when the client's
  clock is not ahead, and the cache of nonces has room.
-/

namespace RandallFlare

/-- What a node does not take from the request. -/
structure Api where
  idHex : String
  /-- The entry `min_by_key` finds in the cache; the order of iteration decides between several. -/
  oldest : List (String × ℕ) → Option (String × ℕ)
  /-- Does the handler for this method and path read the body before `check`? -/
  readsBody : String → String → Bool
  /-- The body a stream of encrypted frames decodes to. -/
  streamBody : Wire → Option Bytes

/-- A request that passed the transport. -/
structure Passed where
  wire : Wire
  /-- The marker of a decrypted stream. -/
  stream : Bool
  plaintext : Bytes
  deriving DecidableEq

/-- A status and a text. -/
abbrev Refusal := ℕ × String

def maxPeerPayload : ℕ := 200 * 1024 * 1024 + 1024 * 1024

/-- How many nonces a node remembers. -/
def maxNonces : ℕ := 8192

def validNonceHex (value : String) : Bool :=
  value.toList.length = 48 ∧ value.toList.all fun c => (hexVal c).isSome

/-- Note a nonce, or find it noted already. -/
def rememberNonce (api : Api) (now : ℕ) (seen : SeenCache String) (nonce : String) :
    SeenCache String × Bool :=
  seen.remember maxSkewMs maxNonces api.oldest now nonce

/-- The path without the query. -/
def uriPath (path : String) : String := String.ofList (path.toList.takeWhile (· ≠ '?'))

/-- A nonce that was seen is refused. -/
def refuseReplay (out : SeenCache String × Bool) (p : Passed) :
    SeenCache String × Except Refusal Passed :=
  (out.1, if out.2 then .error (409, "replayed encrypted peer request") else .ok p)

/-- The first gate, with the cache of nonces after it. -/
def encryptedTransport (x : Cipher) (api : Api) (now : ℕ) (seen : SeenCache String) (d : Wire) :
    SeenCache String × Except Refusal Passed :=
  if d.encrypted ≠ some transportVersion then
    if ¬ d.loopback ∧ uriPath d.path ≠ "/v1/ping" then
      (seen, .error (426, "encrypted peer transport required"))
    else (seen, .ok ⟨d, d.decryptedStream = some streamVersion, d.body⟩)
  else if d.target.getD "" ≠ api.idHex then
    (seen, .error (421, "encrypted request targets another node"))
  else if d.stream = some streamVersion then
    -- the frames of the body are decrypted later, when the handler reads them
    if ¬ validNonceHex (d.nonce.getD "") ∨
        ¬ x.verify now (d.ts.getD "") (d.mac.getD "") d.method d.path [] then
      (seen, .error (401, "bad encrypted peer request stream"))
    else refuseReplay (rememberNonce api now seen (d.nonce.getD "")) ⟨d, true, []⟩
  else if maxPeerPayload + 16 < d.body.length then (seen, .error (413, "peer payload too large"))
  else
    match x.openHex (d.nonce.getD "")
        (requestAad (d.ts.getD "") d.method d.path (d.target.getD "")) d.body with
    | none => (seen, .error (401, "bad encrypted peer payload"))
    | some plaintext =>
        refuseReplay (rememberNonce api now seen (d.nonce.getD "")) ⟨d, false, plaintext⟩

/-- The second gate, for the body the handler has. -/
def check (x : Cipher) (now : ℕ) (p : Passed) (body : Bytes) : Except Refusal Unit :=
  if p.wire.loopback then .ok ()
  else if x.verify now (p.wire.ts.getD "") (p.wire.mac.getD "") p.wire.method p.wire.path
      (if p.stream then [] else body) then .ok ()
  else .error (401, "bad or missing cluster MAC")

/-- The body as the handler passes it to `check`, if it gets one. -/
def handlerBody (api : Api) (p : Passed) : Option Bytes :=
  if api.readsBody p.wire.method p.wire.path then
    if p.stream then api.streamBody p.wire else some p.plaintext
  else some []

/-- The handler's `check` lets the request through. -/
def accepts (x : Cipher) (api : Api) (now : ℕ) (p : Passed) : Bool :=
  match handlerBody api p with
  | none => false
  | some body => (check x now p body).isOk

/-- A running node. -/
structure PeerNode where
  clock : ℕ
  seen : SeenCache String
  /-- The requests between the transport and the handler. -/
  pending : List Passed
  accepted : List Passed

open PeerNode List

/-- What happens at a node, at a time its clock shows. -/
inductive PeerEvent
  | deliver (now : ℕ) (d : Wire)
  | check (now : ℕ) (p : Passed)
  deriving DecidableEq

/-- A copy of the request on its way from elsewhere: its method, path and body, under any headers. -/
def Sealed.Copy (req : Sealed) (d : Wire) : Prop :=
  d.loopback = false ∧ d.method = req.method ∧ d.path = req.path ∧ d.body = req.ciphertext

instance (req : Sealed) (d : Wire) : Decidable (req.Copy d) := by
  unfold Sealed.Copy
  infer_instance

/-- How many of the requests are copies of `req`. -/
def Sealed.copies (req : Sealed) (l : List Passed) : ℕ :=
  l.countP fun p => decide (req.Copy p.wire)

namespace PeerNode

def init : PeerNode := ⟨0, SeenCache.empty, [], []⟩

/-- One event; the clock does not go back. -/
def step (x : Cipher) (api : Api) (s : PeerNode) : PeerEvent → Option PeerNode
  | .deliver now d =>
      if now < s.clock then none
      else
        let out := encryptedTransport x api now s.seen d
        some { s with
          clock := now
          seen := out.1
          pending := match out.2 with
            | .ok p => p :: s.pending
            | .error _ => s.pending }
  | .check now p =>
      if now < s.clock ∨ p ∉ s.pending then none
      else
        some { s with
          clock := now
          pending := s.pending.erase p
          accepted := if accepts x api now p then p :: s.accepted else s.accepted }

/-- The state after a list of events, from the start of the process. -/
def runFrom (x : Cipher) (api : Api) (evs : List PeerEvent) : Option PeerNode :=
  Runs.run (step x api) init evs

/-- At most one copy passed both gates. -/
def AcceptedOnce (req : Sealed) (s : PeerNode) : Prop := req.copies s.accepted ≤ 1

/-- The nonce as the client wrote it. -/
def nonceText (req : Sealed) : String := String.ofList (hexEncode req.nonce)

/-- A copy arrives encrypted, not as a stream, with a nonce in lower case, when the client's clock is
not ahead.  Whatever arrives, the nonce of the request does not have to make room for it. -/
def Guarded (req : Sealed) (s : PeerNode) : PeerEvent → Prop
  | .deliver now d =>
      (req.Copy d → d.encrypted = some transportVersion ∧ d.stream ≠ some streamVersion ∧
        lowerHex (d.nonce.getD "").toList ∧ req.ts ≤ now) ∧
      ((s.seen.retain maxSkewMs now).entries.length < maxNonces ∨
        ∀ q ∈ s.seen.entries, q.1 = nonceText req →
          ∃ p ∈ (s.seen.retain maxSkewMs now).entries, p.2 < q.2)
  | .check _ _ => True

instance (req : Sealed) (s : PeerNode) (ev : PeerEvent) : Decidable (s.Guarded req ev) := by
  cases ev <;> unfold Guarded <;> infer_instance

/-! ### The gates -/

section

variable {x : Cipher} {api : Api} {now : ℕ} {seen : SeenCache String} {d : Wire} {req : Sealed}

theorem refuseReplay_eq_ok {out : SeenCache String × Bool} {p q : Passed}
    (h : (refuseReplay out p).2 = .ok q) : out.2 = false ∧ q = p := by
  unfold refuseReplay at h
  split_ifs at h with hseen
  cases h
  exact ⟨Bool.eq_false_iff.2 hseen, rfl⟩

theorem transport_seen (x : Cipher) (api : Api) (now : ℕ) (seen : SeenCache String) (d : Wire) :
    (encryptedTransport x api now seen d).1 = seen ∨
      ∃ nonce, (encryptedTransport x api now seen d).1 = (rememberNonce api now seen nonce).1 := by
  unfold encryptedTransport
  split_ifs
  · exact .inl rfl
  · exact .inl rfl
  · exact .inl rfl
  · exact .inl rfl
  · exact .inr ⟨_, rfl⟩
  · exact .inl rfl
  · split
    · exact .inl rfl
    · exact .inr ⟨_, rfl⟩

variable {p : Passed}

theorem transport_wire (h : (encryptedTransport x api now seen d).2 = .ok p) : p.wire = d := by
  unfold encryptedTransport at h
  split_ifs at h
  · cases h
    rfl
  · rw [(refuseReplay_eq_ok h).2]
  · split at h
    · cases h
    · rw [(refuseReplay_eq_ok h).2]

/-- **A copy under the client's spelling passes with the client's own timestamp and nonce**, which was
not in the cache. -/
theorem transport_copy (hbind : x.Binds req) (htarget : req.target = api.idHex)
    (hcopy : req.Copy d) (henc : d.encrypted = some transportVersion)
    (hstream : d.stream ≠ some streamVersion) (hlower : lowerHex (d.nonce.getD "").toList)
    (h : (encryptedTransport x api now seen d).2 = .ok p) : d.ts.getD "" = toString req.ts ∧
      (encryptedTransport x api now seen d).1 = (rememberNonce api now seen (nonceText req)).1 ∧
      (rememberNonce api now seen (nonceText req)).2 = false := by
  unfold encryptedTransport at h ⊢
  rw [if_neg (not_not.2 henc)] at h ⊢
  by_cases hto : d.target.getD "" ≠ api.idHex
  · rw [if_pos hto] at h
    cases h
  rw [if_neg hto, if_neg hstream] at h ⊢
  by_cases hlong : maxPeerPayload + 16 < d.body.length
  · rw [if_pos hlong] at h
    cases h
  rw [if_neg hlong] at h ⊢
  cases hopen : x.openHex (d.nonce.getD "")
      (requestAad (d.ts.getD "") d.method d.path (d.target.getD "")) d.body with
  | none =>
    rw [hopen] at h
    cases h
  | some plaintext =>
    rw [hopen] at h
    -- the ciphertext is bound to its nonce and to its timestamp
    obtain ⟨-, hmethod, hpath, hbody⟩ := hcopy
    obtain ⟨nonce, hnonce, hraw⟩ := Option.bind_eq_some_iff.1 hopen
    obtain ⟨-, hraw⟩ := Option.ite_none_right_eq_some.1 hraw
    rw [hmethod, hpath, not_not.1 hto, ← htarget, hbody] at hraw
    obtain ⟨rfl, haad⟩ := hbind _ _ (by rw [hraw]; rfl)
    have htext : d.nonce.getD "" = nonceText req := by
      rw [nonceText, hexEncode_of_hexDecode hnonce hlower, String.ofList_toList]
    rw [htext] at h ⊢
    exact ⟨requestAad_injective haad, rfl, (refuseReplay_eq_ok h).1⟩

theorem accepts_expired (hcopy : req.Copy p.wire)
    (hts : p.wire.ts.getD "" = toString req.ts) (hold : req.ts + maxSkewMs < now) :
    accepts x api now p = false := by
  unfold accepts
  split
  · rfl
  · have hverify : ∀ mac method path body,
        x.verify now (p.wire.ts.getD "") mac method path body = false := by
      intro mac method path body
      unfold Cipher.verify
      rw [hts, parseU64_toString req.ts_lt]
      exact if_pos (by omega)
    simp [check, hcopy.1, hverify, Except.isOk, Except.toBool]

end

/-! ### A running node -/

/-- While the timestamp is recent, at most one copy has passed the transport, and its nonce is in the
cache since a time not before the timestamp. -/
structure Inv (req : Sealed) (s : PeerNode) : Prop where
  ts_text : ∀ p ∈ s.pending, req.Copy p.wire → p.wire.ts.getD "" = toString req.ts
  accepted_le : req.copies s.accepted ≤ 1
  recent : s.clock ≤ req.ts + maxSkewMs →
    req.copies s.pending + req.copies s.accepted ≤ 1 ∧
      (0 < req.copies s.pending + req.copies s.accepted →
        ∃ t, (nonceText req, t) ∈ s.seen.entries ∧ req.ts ≤ t)

variable {x : Cipher} {api : Api} {req : Sealed} {s u : PeerNode}

theorem inv_init (req : Sealed) : init.Inv req where
  ts_text _ hp := by cases hp
  accepted_le := Nat.zero_le 1
  recent _ := ⟨Nat.zero_le 1, fun h => absurd h (lt_irrefl 0)⟩

theorem transport_keeps {now t : ℕ} {d : Wire} (hold : SeenCache.IsOldest api.oldest)
    (hg : s.Guarded req (.deliver now d)) (hmem : (nonceText req, t) ∈ s.seen.entries)
    (hts : req.ts ≤ t) (hnow : now ≤ req.ts + maxSkewMs) :
    (nonceText req, t) ∈ (encryptedTransport x api now s.seen d).1.entries := by
  rcases transport_seen x api now s.seen d with heq | ⟨nonce, heq⟩
  · rw [heq]
    exact hmem
  · rw [heq]
    exact SeenCache.mem_remember hold hmem (by omega) (hg.2.imp_right fun h => h _ hmem rfl)

theorem inv_deliver {now : ℕ} {d : Wire} (hold : SeenCache.IsOldest api.oldest)
    (hbind : x.Binds req) (htarget : req.target = api.idHex) (h : s.Inv req)
    (hg : s.Guarded req (.deliver now d)) (hstep : s.step x api (.deliver now d) = some u) :
    u.Inv req := by
  simp only [step] at hstep
  by_cases hback : now < s.clock
  · rw [if_pos hback] at hstep
    cases hstep
  rw [if_neg hback] at hstep
  cases hstep
  have hclock : now ≤ req.ts + maxSkewMs → s.clock ≤ req.ts + maxSkewMs := fun hnow => by omega
  -- what the cache held for the request it still holds
  have hkeep : now ≤ req.ts + maxSkewMs →
      0 < req.copies s.pending + req.copies s.accepted →
      ∃ t, (nonceText req, t) ∈ (encryptedTransport x api now s.seen d).1.entries ∧ req.ts ≤ t := by
    intro hnow hpos
    obtain ⟨t, hmem, hts⟩ := (h.recent (hclock hnow)).2 hpos
    exact ⟨t, transport_keeps hold hg hmem hts hnow, hts⟩
  cases hout : (encryptedTransport x api now s.seen d).2 with
  | error refusal =>
    exact ⟨h.ts_text, h.accepted_le, fun hnow => ⟨(h.recent (hclock hnow)).1, hkeep hnow⟩⟩
  | ok p =>
    have hwire := transport_wire hout
    by_cases hcopy : req.Copy d
    case neg =>
      have hcount : req.copies (p :: s.pending) = req.copies s.pending := by
        simp [Sealed.copies, hwire, hcopy]
      refine ⟨fun q hq hc => ?_, h.accepted_le, fun hnow => ?_⟩
      · rcases mem_cons.1 hq with rfl | hq
        · exact absurd (hwire ▸ hc) hcopy
        · exact h.ts_text q hq hc
      · dsimp only
        rw [hcount]
        exact ⟨(h.recent (hclock hnow)).1, hkeep hnow⟩
    obtain ⟨henc, hstream, hlower, hts⟩ := hg.1 hcopy
    obtain ⟨htext, hseen, hfresh⟩ := transport_copy hbind htarget hcopy henc hstream hlower hout
    obtain ⟨habsent, hnoted⟩ := SeenCache.of_remember_eq_false hfresh
    have hcount : req.copies (p :: s.pending) = req.copies s.pending + 1 := by
      simp [Sealed.copies, hwire, hcopy]
    refine ⟨fun q hq hc => ?_, h.accepted_le, fun hnow => ?_⟩
    · rcases mem_cons.1 hq with rfl | hq
      · rw [hwire]
        exact htext
      · exact h.ts_text q hq hc
    · dsimp only at hnow ⊢
      rw [hcount, hseen]
      refine ⟨?_, fun _ => ⟨now, hnoted, hts⟩⟩
      -- a copy that passed earlier would have its nonce in the cache
      by_contra htwo
      obtain ⟨t, hmem, htst⟩ := (h.recent (by omega)).2 (by omega)
      have hwin := habsent t hmem
      omega

theorem inv_check {now : ℕ} {p : Passed} (h : s.Inv req)
    (hstep : s.step x api (.check now p) = some u) : u.Inv req := by
  simp only [step] at hstep
  by_cases hno : now < s.clock ∨ p ∉ s.pending
  · rw [if_pos hno] at hstep
    cases hstep
  rw [if_neg hno] at hstep
  obtain ⟨hback, hmem⟩ := not_or.1 hno
  rw [not_not] at hmem
  cases hstep
  have hperm := perm_cons_erase hmem
  have hsplit : req.copies s.pending =
      req.copies (s.pending.erase p) + if req.Copy p.wire then 1 else 0 := by
    unfold Sealed.copies
    rw [hperm.countP_eq, countP_cons]
    simp
  have hacc : req.copies (if accepts x api now p then p :: s.accepted else s.accepted) ≤
      req.copies s.accepted + if req.Copy p.wire then 1 else 0 := by
    split_ifs with h₁ h₂ h₂ <;> simp [Sealed.copies, h₂]
  refine ⟨fun q hq => h.ts_text q (mem_of_mem_erase hq), ?_, fun hnow => ?_⟩
  · dsimp only
    by_cases hcopy : req.Copy p.wire
    · by_cases hold : req.ts + maxSkewMs < now
      · rw [accepts_expired hcopy (h.ts_text p hmem hcopy) hold]
        exact h.accepted_le
      · have hrecent := (h.recent (by omega)).1
        omega
    · rw [if_neg hcopy] at hacc
      exact hacc.trans h.accepted_le
  · dsimp only at hnow ⊢
    obtain ⟨hone, hentry⟩ := h.recent (by omega)
    exact ⟨by omega, fun hpos => hentry (by omega)⟩

theorem inv_step {ev : PeerEvent} (hold : SeenCache.IsOldest api.oldest) (hbind : x.Binds req)
    (htarget : req.target = api.idHex) (h : s.Inv req) (hg : s.Guarded req ev)
    (hstep : s.step x api ev = some u) : u.Inv req := by
  cases ev with
  | deliver now d => exact inv_deliver hold hbind htarget h hg hstep
  | check now p => exact inv_check h hstep

end PeerNode

/-- **A request is accepted at most once in a guarded run**, from the start of the process on. -/
theorem acceptedOnce_of_guarded {x : Cipher} {api : Api} {req : Sealed} {evs : List PeerEvent}
    {s : PeerNode} (hold : SeenCache.IsOldest api.oldest) (hbind : x.Binds req)
    (htarget : req.target = api.idHex) (hrun : runFrom x api evs = some s)
    (hguard : Runs.Meets (step x api) (PeerNode.Guarded req) init evs) : s.AcceptedOnce req :=
  (Runs.run_invariant (fun _ _ _ h hg hstep => inv_step hold hbind htarget h hg hstep)
    (inv_init req) hguard hrun).accepted_le

/-- A cipher that sealed one request. -/
def onceCipher (req : Sealed) : Cipher where
  openRaw nonce aad ciphertext :=
    if nonce = req.nonce ∧ aad = requestAad (toString req.ts) req.method req.path req.target ∧
        ciphertext = req.ciphertext then some req.body
    else none
  macHex ts method path body := String.ofList (hexEncode body) ++ toString ts ++ method ++ path

theorem onceCipher_binds (req : Sealed) : (onceCipher req).Binds req := by
  intro nonce aad h
  simp only [onceCipher] at h
  split_ifs at h with heq
  · exact ⟨heq.1, heq.2.1⟩
  · cases h

/-- A node whose handlers read the body. -/
def plainApi : Api where
  idHex := "01"
  oldest := argmin Prod.snd
  readsBody method _ := method ≠ "GET"
  streamBody _ := none

theorem plainApi_oldest : SeenCache.IsOldest plainApi.oldest :=
  fun _ _ h => ⟨argmin_mem h, fun _ hq => le_of_mem_argmin hq h⟩

/-- A statement for the node. -/
def sealedPost : Sealed where
  ts := 1000000
  nonce := replicate 24 0xab
  method := "POST"
  path := "/v1/d1/db/exec"
  target := "01"
  body := [1]
  ciphertext := [7, 7]
  ts_lt := by decide

/-- The request as sent. -/
def postWire : Wire := sealedPost.wire (onceCipher sealedPost)

/-- The request arrives three times, the last time after its nonce has left the cache. -/
def repeatedRun : List PeerEvent :=
  [.deliver 1000000 postWire, .check 1000001 ⟨postWire, false, [1]⟩, .deliver 1000002 postWire,
    .deliver 1120001 postWire, .check 1120002 ⟨postWire, false, [1]⟩]

theorem acceptedOnce_repeatedRun :
    ∃ s, runFrom (onceCipher sealedPost) plainApi repeatedRun = some s ∧
      s.accepted = [⟨postWire, false, [1]⟩] ∧ s.AcceptedOnce sealedPost := by
  refine Runs.exists_of_view accepted (by decide +kernel) fun s hs hacc => ⟨hacc, ?_⟩
  exact acceptedOnce_of_guarded plainApi_oldest (onceCipher_binds sealedPost) rfl hs
    (by decide +kernel)

/-- The same request with the nonce in capitals. -/
def capitalWire : Wire :=
  { postWire with nonce := some (String.ofList (replicate 24 ['A', 'B']).flatten) }

/-- The request arrives as sent, then with the nonce in capitals. -/
def capitalRun : List PeerEvent :=
  [.deliver 1000000 postWire, .check 1000001 ⟨postWire, false, [1]⟩, .deliver 1000002 capitalWire,
    .check 1000003 ⟨capitalWire, false, [1]⟩]

/-- Both are accepted: the cache compares texts, the cipher reads bytes. -/
theorem capitalRun_accepts_twice :
    (onceCipher sealedPost).Binds sealedPost ∧ SeenCache.IsOldest plainApi.oldest ∧
      sealedPost.target = plainApi.idHex ∧
      ∃ s, runFrom (onceCipher sealedPost) plainApi capitalRun = some s ∧
        s.accepted = [⟨capitalWire, false, [1]⟩, ⟨postWire, false, [1]⟩] ∧
        ¬ s.AcceptedOnce sealedPost := by
  refine ⟨onceCipher_binds sealedPost, plainApi_oldest, rfl, ?_⟩
  refine Runs.exists_of_view accepted (by decide +kernel) fun s hs hacc => ⟨hacc, fun hone => ?_⟩
  unfold PeerNode.AcceptedOnce at hone
  rw [hacc] at hone
  revert hone
  decide +kernel

end RandallFlare
