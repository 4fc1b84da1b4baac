import RandallFlare.Exit.Addresses
import RandallFlare.Exit.Routing
import RandallFlare.Lib.Runs

/-!
# Sessions of a device at an exit

A translation of `serve_authenticated_egress` and `serve_udp_tunnel`.  For each request, a TCP
connect or a datagram, the exit resolves the host, drops the addresses that are not public, asks the
rules about each of the others, and dials those that are allowed one after the other until one
answers.  Meanwhile the operator may sign other records at any moment.

* `Session`, `Session.step`: a session, and what is signed while it lasts;
* `Dial`: an address that a decision allowed, with what was signed at the decision;
* `dials_allowed`: if no lookup gives the IPv4-translated form of a non-public address, and the
  record of the device stays as it was when it was authenticated, each address that is dialled
  passes the rule for addresses, hides no other, and was allowed by the rules in force when it was
  decided on;
* `translated_dialled`: such an address that an exit dials.
-/

namespace RandallFlare

namespace Exit

/-- What is signed: the rules, and the record of the device of a session, if it is valid. -/
structure Signed where
  heads : RuleHeads
  device : Option DevicePrincipal

/-- An address with a port. -/
structure SocketAddr where
  ip : IpAddr
  port : ℕ
  deriving DecidableEq

/-- What addresses are ordered by. -/
def IpAddr.key : IpAddr → ℕ ×ₗ ℕ
  | .v4 bits => toLex (0, bits.toNat)
  | .v6 bits => toLex (1, bits.toNat)

/-- `public_candidates`: the public addresses of an answer, sorted and without repetitions. -/
def publicCandidates (ips : List IpAddr) (port : ℕ) : List SocketAddr :=
  (((ips.filter publicEgressIp).insertionSort fun a b => a.key ≤ b.key).destutter
    (· ≠ ·)).map (⟨·, port⟩)

/-- A session is for one connect, or for any number of datagrams. -/
inductive SessionKind
  | connect | udp
  deriving DecidableEq

/-- An address that was allowed for a host, and what was signed when it was. -/
structure Dial where
  host : String
  address : SocketAddr
  signed : Signed

/-- What the exit is doing. -/
inductive Phase
  | waiting
  | resolving (host : String) (port : ℕ)
  | deciding (host : String) (candidates : List SocketAddr) (allowed : List Dial)
  | dialling (allowed : List Dial)
  | closed

/-- A session at the node `self`, of a device as it was authenticated. -/
structure Session where
  self : String
  kind : SessionKind
  principal : DevicePrincipal
  now : Signed
  phase : Phase
  dials : List Dial

open RandallFlare.Exit.Session List Runs

inductive SessionEvent
  | sign (now : Signed)
  | request (host : String) (port : ℕ)
  | answer (ips : Option (List IpAddr))
  | decide
  | dial (answered : Bool)

namespace Session

/-- A device has been authenticated. -/
def opened (self : String) (kind : SessionKind) (principal : DevicePrincipal) (heads : RuleHeads) :
    Session :=
  ⟨self, kind, principal, ⟨heads, some principal⟩, .waiting, []⟩

/-- The end of a request is the end of a session for a connect. -/
def ended (s : Session) : Phase :=
  match s.kind with
  | .connect => .closed
  | .udp => .waiting

/-- What remains to be done when the candidates and the allowed addresses are these. -/
def proceed (s : Session) (host : String) (candidates : List SocketAddr) (allowed : List Dial) :
    Phase :=
  match candidates, allowed with
  | [], [] => s.ended
  | [], allowed => .dialling allowed
  | candidates, allowed => .deciding host candidates allowed

end Session

/-- The decision lets this exit forward. -/
def Decision.forwards (self : String) : Decision → Bool
  | .nearest => true
  | .node id => id = self
  | _ => false

section

variable (compile : Compile)

/-- One event of a session; the error of a decision ends a connect and drops the address of a
datagram. -/
def Session.step (s : Session) : SessionEvent → Option Session
  | .sign now => some { s with now := now }
  | .request host port =>
    match s.phase with
    | .waiting => some { s with phase := .resolving host port }
    | _ => none
  | .answer ips =>
    match s.phase with
    | .resolving host port =>
      some { s with phase := s.proceed host ((ips.map (publicCandidates · port)).getD []) [] }
    | _ => none
  | .decide =>
    match s.phase with
    | .deciding host (address :: candidates) allowed =>
      match deviceDecision compile s.now.heads s.principal host (some address.ip), s.kind with
      | .error _, .connect => some { s with phase := .closed }
      | .error _, .udp => some { s with phase := s.proceed host candidates allowed }
      | .ok decision, _ =>
        let allowed := if decision.forwards s.self then
          allowed ++ [⟨host, address, s.now⟩] else allowed
        some { s with phase := s.proceed host candidates allowed }
    | _ => none
  | .dial answered =>
    match s.phase with
    | .dialling (d :: rest) =>
      some { s with
        phase := if answered then s.ended else s.proceed d.host [] rest
        dials := s.dials ++ [d] }
    | _ => none

/-- The rules of the device, as they are signed, let this exit forward to the address. -/
def Signed.allows (self host : String) (ip : IpAddr) (signed : Signed) : Prop :=
  ∃ device decision, signed.device = some device ∧
    deviceDecision compile signed.heads device host (some ip) = .ok decision ∧
    decision.forwards self

/-- What is to hold of an address that is dialled. -/
structure Dial.Ok (self : String) (d : Dial) : Prop where
  passes : publicEgressIp d.address.ip
  inner : ∀ bits ∈ d.address.ip.embedded, publicV4 bits
  allowed : d.signed.allows compile self d.host d.address.ip

end

/-- No lookup gives the IPv4-translated form of an address that is not public, and no signature
changes the record of the device. -/
def Undisguised (s : Session) : SessionEvent → Prop
  | .sign now => now.device = some s.principal
  | .answer ips => ∀ ip ∈ ips.getD [], hidesTarget ip = false
  | _ => True

instance : DecidableEq DevicePrincipal := fun a b =>
  decidable_of_iff (a.name = b.name ∧ a.spec = b.spec) (by cases a; cases b; simp)

instance (s : Session) : (e : SessionEvent) → Decidable (Undisguised s e)
  | .sign now => inferInstanceAs (Decidable (now.device = some s.principal))
  | .answer ips => inferInstanceAs (Decidable (∀ ip ∈ ips.getD [], hidesTarget ip = false))
  | .request _ _ => isTrue trivial
  | .decide => isTrue trivial
  | .dial _ => isTrue trivial

/-! ### What a session keeps -/

section

variable (compile : Compile)

/-- An address that passes the rule and hides no other. -/
def SocketAddr.Open (address : SocketAddr) : Prop :=
  publicEgressIp address.ip ∧ hidesTarget address.ip = false

/-- What holds of the addresses a request is about. -/
def Phase.Ok (self : String) : Phase → Prop
  | .deciding _ candidates allowed =>
    (∀ address ∈ candidates, address.Open) ∧ ∀ d ∈ allowed, d.Ok compile self
  | .dialling allowed => ∀ d ∈ allowed, d.Ok compile self
  | _ => True

/-- What holds of a session between two events. -/
structure Session.Ok (s : Session) : Prop where
  device : s.now.device = some s.principal
  phase : s.phase.Ok compile s.self
  dials : ∀ d ∈ s.dials, d.Ok compile s.self

variable {compile} {s t : Session} {host : String} {address : SocketAddr}

theorem Session.ok_ended (s : Session) : s.ended.Ok compile s.self := by
  unfold ended
  split <;> trivial

theorem Session.ok_proceed {candidates : List SocketAddr} {allowed : List Dial}
    (hcandidates : ∀ address ∈ candidates, address.Open)
    (hallowed : ∀ d ∈ allowed, d.Ok compile s.self) :
    (s.proceed host candidates allowed).Ok compile s.self := by
  unfold proceed
  split
  · exact s.ok_ended
  · exact hallowed
  · exact ⟨hcandidates, hallowed⟩

theorem mem_publicCandidates {ips : List IpAddr} {port : ℕ}
    (h : address ∈ publicCandidates ips port) : address.ip ∈ ips ∧ publicEgressIp address.ip := by
  obtain ⟨ip, hip, rfl⟩ := mem_map.1 h
  have hmem := (mem_insertionSort _).1 ((destutter_sublist _ _).subset hip)
  exact mem_filter.1 hmem

/-- An address for which the rules in force let the exit forward may be dialled. -/
theorem Session.Ok.dial_ok (h : s.Ok compile) {decision : Decision} (hopen : address.Open)
    (hdecision : deviceDecision compile s.now.heads s.principal host (some address.ip) =
      .ok decision) (hforwards : decision.forwards s.self) :
    Dial.Ok compile s.self ⟨host, address, s.now⟩ where
  passes := hopen.1
  inner := (embedded_public_iff hopen.1).2 hopen.2
  allowed := ⟨s.principal, decision, h.device, hdecision, hforwards⟩

theorem Session.ok_step {e : SessionEvent} (hs : s.Ok compile) (he : Undisguised s e)
    (h : s.step compile e = some t) : t.Ok compile := by
  cases e with
  | sign now =>
    cases h
    exact ⟨he, hs.phase, hs.dials⟩
  | request host port =>
    simp only [step] at h
    split at h <;> cases h
    exact ⟨hs.device, trivial, hs.dials⟩
  | answer ips =>
    simp only [step] at h
    split at h <;> cases h
    refine ⟨hs.device, ok_proceed (fun address haddress => ?_) ?_, hs.dials⟩
    · cases ips with
      | none => cases haddress
      | some ips =>
        obtain ⟨hmem, hpublic⟩ := mem_publicCandidates haddress
        exact ⟨hpublic, he _ hmem⟩
    · exact fun _ h => nomatch h
  | decide =>
    simp only [step] at h
    split at h
    · rename_i host address candidates allowed hphase
      have hok := hs.phase
      rw [hphase] at hok
      obtain ⟨hcandidates, hallowed⟩ := hok
      obtain ⟨hopen, hrest⟩ := forall_mem_cons.1 hcandidates
      split at h <;> cases h
      · exact ⟨hs.device, trivial, hs.dials⟩
      · exact ⟨hs.device, ok_proceed hrest hallowed, hs.dials⟩
      · rename_i decision _ hdecision
        refine ⟨hs.device, ok_proceed hrest ?_, hs.dials⟩
        split_ifs with hforwards
        · intro d hd
          obtain hd | hd := mem_append.1 hd
          · exact hallowed d hd
          · cases mem_singleton.1 hd
            exact hs.dial_ok hopen hdecision hforwards
        · exact hallowed
    · cases h
  | dial answered =>
    simp only [step] at h
    split at h
    · rename_i d rest hphase
      cases h
      have hok := hs.phase
      rw [hphase] at hok
      obtain ⟨hd, hrest⟩ := forall_mem_cons.1 hok
      refine ⟨hs.device, ?_, ?_⟩
      · split_ifs
        · exact s.ok_ended
        · exact ok_proceed (fun _ h => nomatch h) hrest
      · intro d' hmem
        obtain hmem | hmem := mem_append.1 hmem
        · exact hs.dials d' hmem
        · cases mem_singleton.1 hmem
          exact hd
    · cases h

end

/-- **In every session in which no lookup gives the IPv4-translated form of a non-public address and
the record of the device is not changed, every address that is dialled passes the rule for
addresses, carries no address that does not, and was allowed by the rules of the device in force when
it was decided on.** -/
theorem dials_allowed {compile : Compile} {self : String} {kind : SessionKind}
    {principal : DevicePrincipal} {heads : RuleHeads} {es : List SessionEvent} {s : Session}
    (hes : Runs.Meets (step compile) Undisguised (.opened self kind principal heads) es)
    (hs : run (step compile) (.opened self kind principal heads) es = some s) :
    ∀ d ∈ s.dials, d.Ok compile s.self := by
  have hopened : (opened self kind principal heads).Ok compile :=
    ⟨rfl, trivial, fun _ h => nomatch h⟩
  exact (run_invariant (fun s t e hs he h => ok_step hs he h) hopened hes hs).dials

/-- A session for datagrams of a device with two rules that send everything to the nearest exit. -/
def laptopSession : Session := .opened "n1" .udp laptop (twoRules true)

/-- A datagram to a host that has this address, and between the lookup and the decision a signature
that leaves the device with this record. -/
def datagramTo (ip : IpAddr) (device : Option DevicePrincipal) : List SessionEvent :=
  [.request "example.com" 53, .answer (some [.v4 0x0a000001, ip]), .sign ⟨twoRules true, device⟩,
    .decide, .dial true]

/-- What a session has dialled, whether any of it hides an address that is not public, and whether
the device has a record. -/
def dialView (s : Session) : List SocketAddr × Bool × Bool :=
  (s.dials.map (·.address), s.dials.any fun d => d.address.ip.embedded.any (!publicV4 ·),
    s.now.device.isSome)

/-- Of a private and a public address the public one is dialled. -/
theorem dials_allowed_datagram : ∃ s, run (step proxyAll) laptopSession
        (datagramTo (.v4 0x5db8d822) (some laptop)) = some s ∧
      s.dials.map (·.address) = [⟨.v4 0x5db8d822, 53⟩] ∧ ∀ d ∈ s.dials, d.Ok proxyAll s.self := by
  exact Runs.exists_of_view (·.dials.map (·.address)) (by decide +kernel) fun s hs hview =>
    ⟨hview, dials_allowed (by decide +kernel) hs⟩

/-- An exit dials `::ffff:0:10.0.0.1`, which hides the private address 10.0.0.1; and it dials for a
device whose record has been withdrawn since it was authenticated. -/
theorem translated_dialled : (run (step proxyAll) laptopSession
      (datagramTo (.v6 0xffff00000a000001) (some laptop))).map dialView =
        some ([⟨.v6 0xffff00000a000001, 53⟩], true, true) ∧ (run (step proxyAll) laptopSession
      (datagramTo (.v4 0x5db8d822) none)).map dialView =
        some ([⟨.v4 0x5db8d822, 53⟩], false, false) := by
  constructor <;> decide +kernel

end Exit

end RandallFlare
