import RandallFlare.D1.Driver
import RandallFlare.D1.Machine

/-!
# One call of a client

`PeerClient::d1_request` in `rf/src/peers.rs` sends one statement, or one batch, up to 25 times: it
follows leader hints and goes round the nodes it knows of, as long as the responses look as if the
statement had not been taken.  `d1_exec` in `rf/src/peerapi.rs` hands each attempt to the node's
driver and turns the driver's reply into a response.

* `Call.next`: the loop body of `d1_request` after a response;
* `Exchange`: the drivers of a group, one call, its attempts on their way, and the entries proposed
  for it;
* `Exchange.AtMostOnce`: no member has applied the statement twice;
* `Exchange.Harmless`: the client does not try again after an attempt that was proposed or may still
  be.
-/

namespace RandallFlare

/-- What comes back for one attempt. -/
inductive Response
  /-- Status 200. -/
  | ok
  /-- Any other status, with the leader hint in the body, if there is one. -/
  | http (status : ℕ) (leaderHint : Option PublicId)
  /-- The request was never sent: `tcp connect error`. -/
  | connectError
  /-- The request left but no response came: `error sending request`. -/
  | sendError
  /-- Any other error, such as a response that cannot be decrypted. -/
  | otherError
  deriving DecidableEq

/-- The nodes to go round: `base`, then the addresses its status names. -/
def peerApiCandidates (base : PublicId) (peers : List (Option PublicId)) : List PublicId :=
  (peers.filterMap id).foldl (fun candidates api =>
    if api ∈ candidates then candidates else candidates ++ [api]) [base]

theorem peerApiCandidates_ne_nil (base : PublicId) (peers : List (Option PublicId)) :
    peerApiCandidates base peers ≠ [] := by
  unfold peerApiCandidates
  generalize peers.filterMap id = apis
  suffices h : ∀ l : List PublicId, l ≠ [] → apis.foldl (fun candidates api =>
      if api ∈ candidates then candidates else candidates ++ [api]) l ≠ [] from h _ (by simp)
  induction apis with
  | nil => exact fun l hl => hl
  | cons api apis ih =>
    intro l hl
    refine ih _ ?_
    dsimp only
    split_ifs
    · exact hl
    · simp

/-- The variables of the loop in `d1_request`. -/
structure Call where
  base : PublicId
  target : PublicId
  candidates : List PublicId
  candidateCursor : ℕ
  candidatesLoaded : Bool
  /-- The attempts still allowed. -/
  left : ℕ
  candidates_ne_nil : candidates ≠ []
  deriving DecidableEq

/-- How often `d1_request` tries. -/
def maxAttempts : ℕ := 25

namespace Call

def start (base : PublicId) : Call where
  base := base
  target := base
  candidates := [base]
  candidateCursor := 0
  candidatesLoaded := false
  left := maxAttempts
  candidates_ne_nil := List.cons_ne_nil _ _

/-- Try the node a leader hint names. -/
def follow (c : Call) (hint : PublicId) : Call :=
  match c.candidates.idxOf? hint with
  | some position => { c with target := hint, candidateCursor := position }
  | none =>
      { c with
        target := hint
        candidates := c.candidates ++ [hint]
        candidateCursor := c.candidates.length
        candidates_ne_nil := by simp }

/-- Ask `base` once for its peers; `status` is its answer, if there was one. -/
def discover (c : Call) (status : Option (List (Option PublicId))) : Call :=
  if c.candidatesLoaded then c
  else match status with
    | none => { c with candidatesLoaded := true }
    | some peers =>
        { c with
          candidates := peerApiCandidates c.base peers
          candidatesLoaded := true
          candidates_ne_nil := peerApiCandidates_ne_nil c.base peers }

/-- Try the next candidate. -/
def rotate (c : Call) : Call :=
  let cursor := (c.candidateCursor + 1) % c.candidates.length
  have hlt : cursor < c.candidates.length :=
    Nat.mod_lt _ (List.length_pos_of_ne_nil c.candidates_ne_nil)
  { c with candidateCursor := cursor, target := c.candidates[cursor] }

/-- What the loop does after a response: return, or try again. -/
def next (c : Call) (status : Option (List (Option PublicId))) : Response → Option Call
  | .ok => none
  | .http code leaderHint =>
      match if code = 421 then leaderHint else none with
      | some hint => some (c.follow hint)
      | none => if code ≠ 404 ∧ code ≠ 421 then none else some (c.discover status).rotate
  | .connectError => some (c.discover status).rotate
  | .sendError => some (c.discover status).rotate
  | .otherError => none

end Call

/-- The responses after which `d1_request` tries again. -/
def Response.Retried : Response → Prop
  | .http status _ => status = 404 ∨ status = 421
  | .connectError => True
  | .sendError => True
  | _ => False

instance (resp : Response) : Decidable resp.Retried := by
  cases resp <;> unfold Response.Retried <;> infer_instance

variable {status : Option (List (Option PublicId))}

theorem Call.next_eq_none {c : Call} {resp : Response}
    (h : ¬ resp.Retried) : c.next status resp = none := by
  cases resp with
  | ok => rfl
  | http code leaderHint =>
    obtain ⟨h₁, h₂⟩ := not_or.1 h
    simp [next, h₁, h₂]
  | connectError => exact absurd trivial h
  | sendError => exact absurd trivial h
  | otherError => rfl

/-- How an attempt can end for the client. -/
inductive Outcome
  /-- The driver replied; a statement it ran may have failed. -/
  | reply (answer : Answer) (failed : Bool)
  /-- The node runs no driver for the database; its catalog names a member, or knows nothing. -/
  | noDriver (record : Option (Option PublicId))
  /-- The node refused, its driver was gone, or it did not reply within 15 seconds. -/
  | gaveUp (status : ℕ)
  | connectError
  | sendError
  | otherError
  deriving DecidableEq

/-- The response the client sees: `d1_exec` in `rf/src/peerapi.rs`. -/
def Outcome.response : Outcome → Response
  | .reply (.misdirected leaderHint) _ => .http 421 leaderHint
  | .reply .refused _ => .http 422 none
  | .reply (.rows _) failed => if failed then .http 422 none else .ok
  | .reply (.applied _ _) failed => if failed then .http 422 none else .ok
  | .noDriver none => .http 404 none
  | .noDriver (some leaderHint) => .http 421 leaderHint
  | .gaveUp status => .http status none
  | .connectError => .connectError
  | .sendError => .sendError
  | .otherError => .otherError

/-- The attempt never gets to a driver. -/
def Outcome.NotTaken : Outcome → Prop
  | .noDriver _ => True
  | .connectError => True
  | _ => False

instance (o : Outcome) : Decidable o.NotTaken := by
  cases o <;> unfold Outcome.NotTaken <;> infer_instance

/-- The drivers of a group and one call. -/
structure Exchange where
  fleet : Fleet
  /-- The call, until it returns. -/
  call : Option Call
  /-- The attempt whose response the client waits for: the node and the tag of the request. -/
  waiting : Option (PublicId × ℕ)
  /-- The attempts on their way to a driver. -/
  inflight : List (PublicId × ℕ)
  /-- The attempts that were proposed, with their entries. -/
  proposed : List (ℕ × Entry)

open RandallFlare.Exchange List Option

/-- What happens next. -/
inductive Move
  /-- An event of a driver that is not about the call. -/
  | drive (id : PublicId) (task : Task)
  /-- The client sends the next attempt. -/
  | post
  /-- A driver takes an attempt; SQLite says what kind of statement it is there. -/
  | handle (id : PublicId) (tag : ℕ) (kind : Kind) (peers : List PublicId)
  /-- An attempt is lost on its way. -/
  | lose (id : PublicId) (tag : ℕ)
  /-- The attempt the client waits for ends; `status` is what `base` says about its peers. -/
  | receive (outcome : Outcome) (status : Option (List (Option PublicId)))
  deriving DecidableEq

namespace Exchange

/-- A command of the call: `command tag` is what the attempt `tag` is proposed as. -/
def Ours (command : ℕ → Bytes) (cmd : Bytes) : Prop :=
  ∃ tag ∈ range' 1 maxAttempts, command tag = cmd

instance (command : ℕ → Bytes) (cmd : Bytes) : Decidable (Ours command cmd) := by
  unfold Ours
  infer_instance

/-- Requests of others have tags and commands of their own. -/
def Foreign (command : ℕ → Bytes) : Task → Prop
  | .op _ => True
  | .request rq _ => maxAttempts < rq.tag ∧ ¬ Ours command rq.cmd

instance (command : ℕ → Bytes) (task : Task) : Decidable (Foreign command task) := by
  cases task <;> unfold Foreign <;> infer_instance

def init (group : List PublicId) (base : PublicId) : Exchange where
  fleet := Fleet.init group
  call := some (Call.start base)
  waiting := none
  inflight := []
  proposed := []

/-- The attempt can end this way. -/
def Possible (s : Exchange) (attempt : PublicId × ℕ) : Outcome → Prop
  | .reply answer _ => ⟨attempt.1, attempt.2, answer⟩ ∈ s.fleet.replies
  | .noDriver _ => attempt ∈ s.inflight
  | .gaveUp status => status ≠ 200 ∧ status ≠ 404 ∧ status ≠ 421
  | .connectError => attempt ∈ s.inflight
  | .sendError => True
  | .otherError => True

instance (s : Exchange) (attempt : PublicId × ℕ) (o : Outcome) :
    Decidable (s.Possible attempt o) := by
  cases o <;> unfold Possible <;> infer_instance

/-- The entry the driver `id` proposes for the attempt `tag`, if it does. -/
def proposal (s : Exchange) (command : ℕ → Bytes) (id : PublicId) (tag : ℕ) (kind : Kind) :
    List (ℕ × Entry) :=
  let r := (s.fleet.cluster.nodes id).raft
  if r.isLeader ∧ kind = .write then [(tag, ⟨r.epoch, r.last.2 + 1, command tag⟩)] else []

/-- One event of a run. -/
def step (command : ℕ → Bytes) (group : List PublicId) (s : Exchange) : Move → Option Exchange
  | .drive id task =>
      if Foreign command task then
        (s.fleet.step group (id, task)).map fun fleet => { s with fleet := fleet }
      else none
  | .post =>
      match s.call, s.waiting with
      | some c, none =>
          if c.left = 0 then none
          else some { s with
            call := some { c with left := c.left - 1 }
            waiting := some (c.target, c.left)
            inflight := (c.target, c.left) :: s.inflight }
      | _, _ => none
  | .handle id tag kind peers =>
      if (id, tag) ∈ s.inflight then
        (s.fleet.step group (id, .request ⟨tag, kind, command tag⟩ peers)).map fun fleet =>
          { s with
            fleet := fleet
            inflight := s.inflight.erase (id, tag)
            proposed := s.proposed ++ s.proposal command id tag kind }
      else none
  | .lose id tag =>
      if (id, tag) ∈ s.inflight then some { s with inflight := s.inflight.erase (id, tag) }
      else none
  | .receive outcome status =>
      match s.call, s.waiting with
      | some c, some attempt =>
          if s.Possible attempt outcome then
            some { s with
              call := c.next status outcome.response
              waiting := none
              inflight := if outcome.NotTaken then s.inflight.erase attempt else s.inflight }
          else none
      | _, _ => none

/-- The state after a list of events, starting from nothing. -/
def runFrom (command : ℕ → Bytes) (group : List PublicId) (base : PublicId) (evs : List Move) :
    Option Exchange :=
  Runs.run (step command group) (init group base) evs

/-- No member has applied the statement of the call more than once. -/
def AtMostOnce (command : ℕ → Bytes) (s : Exchange) : Prop :=
  ∀ id, (s.fleet.cluster.nodes id).machine.countP (fun e => decide (Ours command e.cmd)) ≤ 1

/-- When the client tries again, the attempt it gives up was not proposed and is not on its way any
more. -/
def Harmless (s : Exchange) : Move → Prop
  | .receive outcome _ =>
      outcome.response.Retried → match s.waiting with
        | none => True
        | some attempt =>
            (∀ p ∈ s.proposed, p.1 ≠ attempt.2) ∧ (outcome.NotTaken ∨ attempt ∉ s.inflight)
  | _ => True

instance (s : Exchange) (ev : Move) : Decidable (s.Harmless ev) := by
  unfold Harmless
  split
  · refine @instDecidableForall _ _ _ ?_
    split <;> infer_instance
  · infer_instance

/-! ### The call in the group -/

/-- Entries with a command of the call are entries that were proposed for it. -/
def Accounted (command : ℕ → Bytes) (s : Exchange) (e : Entry) : Prop :=
  Ours command e.cmd → e ∈ s.proposed.map Prod.snd

/-- At most one attempt is on its way or proposed, the one the client waits for while it waits, and
none while it is about to try. -/
structure Inv (command : ℕ → Bytes) (s : Exchange) : Prop where
  inOrder : s.fleet.cluster.InOrder (s.Accounted command)
  single : s.inflight.length + s.proposed.length ≤ 1
  ready : s.call.isSome → s.waiting = none → s.inflight = [] ∧ s.proposed = []
  current : s.call.isSome → ∀ attempt ∈ s.waiting,
    (∀ x ∈ s.inflight, x = attempt) ∧ ∀ p ∈ s.proposed, p.1 = attempt.2

theorem inv_init (command : ℕ → Bytes) (group : List PublicId) (base : PublicId) :
    (init group base).Inv command where
  inOrder := Cluster.inOrder_init _ group
  single := Nat.zero_le 1
  ready _ _ := ⟨rfl, rfl⟩
  current _ _ hat := by cases hat

variable {command : ℕ → Bytes} {group : List PublicId} {s t : Exchange}

variable {id : PublicId} {task : Task} {tag : ℕ}

theorem inOrder_fleet {P : Entry → Prop} {f f' : Fleet}
    (h : f.cluster.InOrder P) (hstep : f.step group (id, task) = some f')
    (hcmd : ∀ rq peers, task = .request rq peers → rq.kind = .write →
      (f.cluster.nodes id).raft.isLeader →
      P ⟨(f.cluster.nodes id).raft.epoch, (f.cluster.nodes id).raft.last.2 + 1, rq.cmd⟩) :
    f'.cluster.InOrder P := by
  rcases Fleet.step_cases hstep with ⟨tag, answer, rfl, -⟩ | ⟨op, desk, hperf, htask⟩
  · exact h
  · obtain ⟨c, hc, rfl⟩ := map_eq_some_iff.1 hperf
    refine h.step hc fun cmd hop => ?_
    rcases htask with ⟨-, -, hno⟩ | ⟨rq, peers, rfl, hkind, hl, rfl, -⟩
    · exact absurd hop (hno cmd)
    · cases hop
      exact hcmd rq peers rfl hkind hl

section

variable (h : s.Inv command)

include h

theorem inv_drive (hstep : s.step command group (.drive id task) = some t) : t.Inv command := by
  simp only [step] at hstep
  split_ifs at hstep with hforeign
  obtain ⟨f, hf, rfl⟩ := map_eq_some_iff.1 hstep
  refine ⟨inOrder_fleet h.inOrder hf ?_, h.single, h.ready, h.current⟩
  rintro rq peers rfl - - hours
  exact absurd hours hforeign.2

theorem inv_post (hstep : s.step command group .post = some t) : t.Inv command := by
  simp only [step] at hstep
  split at hstep
  case h_2 => cases hstep
  rename_i c hcall hwait
  split_ifs at hstep
  cases hstep
  obtain ⟨hin, hprop⟩ := h.ready (by rw [hcall]; rfl) hwait
  refine ⟨h.inOrder, ?_, fun _ hnone => (by cases hnone), ?_⟩
  · simp [hin, hprop]
  · rintro - attempt hat
    cases hat
    simp [hin, hprop]

theorem inv_handle {kind : Kind} {peers : List PublicId}
    (hstep : s.step command group (.handle id tag kind peers) = some t) : t.Inv command := by
  simp only [step] at hstep
  split_ifs at hstep with hmem
  obtain ⟨f, hf, rfl⟩ := map_eq_some_iff.1 hstep
  have hlen := length_erase_of_mem hmem
  have hpos := length_pos_of_mem hmem
  have hprop : ∀ p ∈ s.proposal command id tag kind, p.1 = tag := by
    intro p hp
    unfold proposal at hp
    dsimp only at hp
    split_ifs at hp
    · rw [mem_singleton.1 hp]
    · cases hp
  have hone : (s.proposal command id tag kind).length ≤ 1 := by
    unfold proposal
    dsimp only
    split_ifs <;> simp
  refine ⟨?_, ?_, ?_, ?_⟩
  · refine inOrder_fleet (h.inOrder.imp fun e he hours => ?_) hf ?_
    · rw [map_append]
      exact mem_append_left _ (he hours)
    · rintro rq peers' heq hkind hl -
      cases heq
      dsimp only at hkind
      simp [proposal, hl, hkind]
  · have hsingle := h.single
    simp only [length_append]
    omega
  · intro hcall hwait
    have hnil := (h.ready hcall hwait).1
    rw [hnil] at hmem
    cases hmem
  · intro hcall attempt hat
    obtain ⟨hin, hpr⟩ := h.current hcall attempt hat
    refine ⟨fun x hx => hin x (mem_of_mem_erase hx), fun p hp => ?_⟩
    rcases mem_append.1 hp with hp | hp
    · exact hpr p hp
    · rw [hprop p hp, ← hin _ hmem]

theorem inv_lose (hstep : s.step command group (.lose id tag) = some t) : t.Inv command := by
  simp only [step] at hstep
  split_ifs at hstep with hmem
  cases hstep
  have hlen := length_erase_of_mem hmem
  refine ⟨h.inOrder, ?_, fun hcall hwait => ?_, fun hcall attempt hat => ?_⟩
  · have hsingle := h.single
    dsimp only
    omega
  · have hnil := (h.ready hcall hwait).1
    rw [hnil] at hmem
    cases hmem
  · obtain ⟨hin, hpr⟩ := h.current hcall attempt hat
    exact ⟨fun x hx => hin x (mem_of_mem_erase hx), hpr⟩

theorem inv_receive {outcome : Outcome} (hharm : s.Harmless (.receive outcome status))
    (hstep : s.step command group (.receive outcome status) = some t) : t.Inv command := by
  simp only [step] at hstep
  split at hstep
  case h_2 => cases hstep
  rename_i c attempt hcall hwait
  obtain ⟨-, heq⟩ := ite_none_right_eq_some.1 hstep
  cases heq
  obtain ⟨hin, hpr⟩ := h.current (by rw [hcall]; rfl) attempt (by rw [hwait]; rfl)
  have hsub : (if outcome.NotTaken then s.inflight.erase attempt else s.inflight).length ≤
      s.inflight.length := by
    split_ifs
    · exact length_erase_le
    · exact le_rfl
  refine ⟨h.inOrder, (Nat.add_le_add_right hsub _).trans h.single, fun hnext _ => ?_,
    fun _ x hx => (by cases hx)⟩
  -- the loop goes on, so the attempt is neither proposed nor on its way
  have hretry : outcome.response.Retried := by
    by_contra hno
    dsimp only at hnext
    rw [Call.next_eq_none hno] at hnext
    cases hnext
  have hgone := hharm hretry
  rw [hwait] at hgone
  refine ⟨?_, eq_nil_iff_forall_not_mem.2 fun p hp => hgone.1 p hp (hpr p hp)⟩
  have hsingle := h.single
  split_ifs with htaken
  · refine length_eq_zero_iff.1 ?_
    by_cases hmem : attempt ∈ s.inflight
    · rw [length_erase_of_mem hmem]
      omega
    · rw [erase_of_not_mem hmem, length_eq_zero_iff]
      exact eq_nil_iff_forall_not_mem.2 fun x hx => hmem (hin x hx ▸ hx)
  · have hmem := hgone.2.resolve_left htaken
    exact eq_nil_iff_forall_not_mem.2 fun x hx => hmem (hin x hx ▸ hx)

theorem inv_step {ev : Move} (hharm : s.Harmless ev)
    (hstep : s.step command group ev = some t) : t.Inv command := by
  cases ev with
  | drive id task => exact inv_drive h hstep
  | post => exact inv_post h hstep
  | handle id tag kind peers => exact inv_handle h hstep
  | lose id tag => exact inv_lose h hstep
  | receive outcome status => exact inv_receive h hharm hstep

/-- A member applies each entry once, and at most one entry was proposed for the call. -/
theorem Inv.atMostOnce : s.AtMostOnce command := by
  intro id
  have hm := (h.inOrder.nodes id).machine
  rw [countP_eq_length_filter]
  have hsub : ((s.fleet.cluster.nodes id).machine.filter fun e => decide (Ours command e.cmd)) ⊆
      s.proposed.map Prod.snd := by
    intro e he
    obtain ⟨hmem, hours⟩ := mem_filter.1 he
    exact hm.only e hmem (of_decide_eq_true hours)
  have hle := (hm.nodup.filter _).length_le_of_subset hsub
  have hsingle := h.single
  rw [length_map] at hle
  omega

end

end Exchange

/-- **A call whose retries are harmless is applied at most once**, in every state of the run. -/
theorem atMostOnce_of_harmless {command : ℕ → Bytes} {group : List PublicId} {base : PublicId}
    {evs : List Move} {s : Exchange} (hrun : runFrom command group base evs = some s)
    (hharm : Runs.Meets (step command group) Exchange.Harmless
      (init group base) evs) : s.AtMostOnce command :=
  (Runs.run_invariant (fun _ _ _ h hok hstep => inv_step h hok hstep)
    (inv_init command group base) hharm hrun).atMostOnce

/-- The commands of a call, told apart by the tag. -/
def tagCommand (tag : ℕ) : Bytes := [UInt8.ofNat tag]

/-- The client asks `nodeB` first, which names the leader `nodeA`; there the statement is
committed. -/
def redirectedRun : List Move :=
  [.drive nodeA (.op .tickElection),
    .drive nodeB (.op (.handle nodeA (.voteReq 1 0 0))),
    .drive nodeA (.op (.handle nodeB (.voteResp 1 true))),
    .drive nodeB (.op (.handle nodeA (.append 1 0 0 [] 0))),
    .post,
    .handle nodeB 25 .write [nodeA],
    .receive (.reply (.misdirected (some nodeA)) false) none,
    .post,
    .handle nodeA 24 .write [],
    .drive nodeB (.op (.handle nodeA (.append 1 0 0 [⟨1, 1, tagCommand 24⟩] 0))),
    .drive nodeA (.op (.handle nodeB (.appendResp 1 1 true))),
    .receive (.reply (.applied 1 ⟨1, 1, tagCommand 24⟩) false) none]

theorem atMostOnce_redirectedRun :
    ∃ s, runFrom tagCommand [nodeA, nodeB, nodeC] nodeB redirectedRun = some s ∧
      (s.fleet.cluster.nodes nodeA).machine = [⟨1, 1, tagCommand 24⟩] ∧
      s.AtMostOnce tagCommand := by
  exact Runs.exists_of_view (fun s => (s.fleet.cluster.nodes nodeA).machine) (by decide +kernel)
    fun s hs hm => ⟨hm, atMostOnce_of_harmless hs (by decide +kernel)⟩

/-- `nodeA` steps down with the proposal still in its log and in that of `nodeB`.  The client is
told that `nodeA` does not lead and tries `nodeB`, which becomes leader with the first attempt in its
log and commits both. -/
def retriedRun : List Move :=
  [.drive nodeA (.op .tickElection),
    .drive nodeB (.op (.handle nodeA (.voteReq 1 0 0))),
    .drive nodeA (.op (.handle nodeB (.voteResp 1 true))),
    .post,
    .handle nodeA 25 .write [],
    .drive nodeB (.op (.handle nodeA (.append 1 0 0 [⟨1, 1, tagCommand 25⟩] 0))),
    .drive nodeC (.op .tickElection),
    .drive nodeC (.op .tickElection),
    .drive nodeA (.op (.handle nodeC (.voteReq 2 0 0))),
    .receive (.reply (.misdirected none) false) (some [some nodeB, some nodeC]),
    .drive nodeB (.op .tickElection),
    .drive nodeA (.op (.handle nodeB (.voteReq 2 1 1))),
    .drive nodeB (.op (.handle nodeA (.voteResp 2 true))),
    .post,
    .handle nodeB 24 .write [],
    .drive nodeA (.op (.handle nodeB (.append 2 1 1 [⟨2, 2, tagCommand 24⟩] 0))),
    .drive nodeB (.op (.handle nodeA (.appendResp 2 2 true)))]

theorem retriedRun_applies_twice :
    ∃ s, runFrom tagCommand [nodeA, nodeB, nodeC] nodeA retriedRun = some s ∧
      (s.fleet.cluster.nodes nodeB).machine = [⟨1, 1, tagCommand 25⟩, ⟨2, 2, tagCommand 24⟩] ∧
      ¬ s.AtMostOnce tagCommand := by
  refine Runs.exists_of_view (fun s => (s.fleet.cluster.nodes nodeB).machine) (by decide +kernel)
    fun s hs hm => ⟨hm, fun hone => ?_⟩
  have htwo := hone nodeB
  rw [hm] at htwo
  revert htwo
  decide +kernel

end RandallFlare
