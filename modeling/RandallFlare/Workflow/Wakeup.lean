import RandallFlare.Workflow.Calls

/-!
# Wake-ups

Who sends a signal writes it down and then wakes an instance that waits for it; who waits for a
signal looks for one, parks, and looks once more, for a signal may have come between the first look
and the park.  Each of the two writes is followed by a statement that puts things right; a waiter
that dies between its park and its second look leaves the instance asleep.

* `Stuck`: an instance waits for a name of which an undelivered signal exists;
* `LooksAgain`: the runs in which no process dies with the wake-up as its next statement;
* `not_stuck_of_idle`: in such runs no instance is stuck once no call is in progress;
* `diedParked_stuck`: the run in which the waiter dies before it looks again.
-/

namespace RandallFlare

namespace Workflow

open Programs Prog Ledger Pool SortedMap Runs

/-- The row waits for a signal of this name. -/
def Instance.awaits (i : Instance) (name : String) : Bool :=
  i.status = .waiting ∧ i.waitingFor = some name

/-- The instance waits for a name of which an undelivered signal exists. -/
def Stuck (s : Ledger) (id name : String) : Prop :=
  (∃ i, s.instances.get id = some i ∧ i.awaits name) ∧ s.undelivered id name ≠ []

variable {s : Ledger} {id name : String} {c : Stmt} {x : Env} {r : Call} {p : CallPool}
  {e : CallEvent}

theorem undelivered_ne_nil_iff :
    s.undelivered id name ≠ [] ↔ ∃ sig row, s.signals.get sig = some row ∧
      row.instanceId = id ∧ row.name = name ∧ row.deliveredAtMs = none := by
  simp [undelivered, List.filter_eq_nil_iff, get_eq_some_iff]

/-- What can leave an instance stuck: a park for the name, or a new signal of the name. -/
def Stmt.sticks (c : Stmt) (id name : String) : Prop :=
  (∃ lease untilMs, c = .park id lease untilMs name) ∨
    ∃ sig payloadJson nowMs, c = .insertSignal sig id name payloadJson nowMs

theorem stuck_exec (h : Stuck (exec c x s).1 id name) : Stuck s id name ∨ c.sticks id name := by
  obtain ⟨⟨i, hi, hw⟩, hne⟩ := h
  simp only [Instance.awaits, decide_eq_true_eq] at hw
  obtain ⟨j, hj, -, -, hturn⟩ := instance_exec hi
  obtain ⟨sig, row, hrow, hid, hname, hdel⟩ := undelivered_ne_nil_iff.1 hne
  -- A signal that is there now and not delivered was there before, or is new.
  have hsignal : s.undelivered id name ≠ [] ∨ c.sticks id name := by
    rcases Ledger.signal_exec c x s sig with hsame | ⟨_, _, _, -, -, -, hnew⟩ |
      ⟨_, _, payloadJson, nowMs, hc, -, hnew⟩
    · exact .inl (undelivered_ne_nil_iff.2 ⟨sig, row, hsame.symm.trans hrow, hid, hname, hdel⟩)
    · cases hrow.symm.trans hnew
      cases hdel
    · cases hrow.symm.trans hnew
      exact .inr (.inr ⟨sig, payloadJson, nowMs, by rw [hc, ← hid, ← hname]; rfl⟩)
  cases hturn with
  | same _ h =>
    exact hsignal.imp_left fun hne => ⟨⟨j, hj, by simpa [Instance.awaits, ← h] using hw⟩, hne⟩
  | claimed _ hrun => simp [hrun] at hw
  | renewed _ hrun => simp [hrun] at hw
  | parked h =>
    cases hw.2.symm.trans h.2
    exact .inr (.inl ⟨_, _, rfl⟩)
  | ended _ _ hend => simp [hw, Status.terminal] at hend
  | freed _ h => simp [hw] at h

/-- The statement wakes an instance that waits for the name. -/
def Stmt.wakes (id name : String) : Stmt → Bool
  | .wakeParked id' name' => id' = id ∧ name' = name
  | .wakeWaiting id' name' _ => id' = id ∧ name' = name
  | _ => false

/-- A wake-up leaves the instance awake. -/
theorem not_stuck_of_wakes (hc : c.wakes id name) : ¬ Stuck (exec c x s).1 id name := by
  rintro ⟨⟨i, hi, hw⟩, hne⟩
  cases c <;> simp only [Stmt.wakes, decide_eq_true_eq, Bool.false_eq_true] at hc <;>
    obtain ⟨rfl, rfl⟩ := hc
  case wakeParked =>
    simp only [exec, get_update, if_true, Option.map_eq_some_iff] at hi
    obtain ⟨j, hj, rfl⟩ := hi
    simp only [exec, undelivered, update_frame] at hne
    split_ifs at hw with hg
    · simp [Instance.awaits, queue] at hw
    · simp_all [Instance.awaits, undelivered]
  case wakeWaiting =>
    simp only [exec, get_update, if_true, Option.map_eq_some_iff] at hi
    obtain ⟨j, hj, rfl⟩ := hi
    split_ifs at hw with hg
    · simp [Instance.awaits, queue] at hw
    · simp_all [Instance.awaits]

/-! ### Calls that wake -/

/-- A park and a new signal are followed at once by a wake-up. -/
def followedBy : (c : Stmt) → c.Ans → Option Stmt → Prop
  | .park id _ _ name, changed, next => changed = 1 → next.any (·.wakes id name)
  | .insertSignal _ id name _ _, inserted, next => inserted = 1 → next.any (·.wakes id name)
  | _, _, _ => True

theorem followedBy_of_none (c : Stmt) (a : c.Ans) (next : Option Stmt)
    (h : followedBy c a none) : followedBy c a next := by
  cases c
  case park => exact fun ha => absurd (h ha) (by simp)
  case insertSignal => exact fun ha => absurd (h ha) (by simp)
  all_goals trivial

theorem leads_forget {α : Type} {p : WorkflowProg α} (h : p.Leads followedBy) :
    (forget p).Leads followedBy :=
  h.bind followedBy_of_none fun _ => trivial

theorem leads_validateStepRequest (id lease name : String) :
    (validateStepRequest id lease name).Leads followedBy :=
  (all_validateStepRequest fun _ _ => trivial).leads

theorem leads_signalLoop (id lease name : String) (fuel : ℕ) :
    (signalLoop id lease name fuel).Leads followedBy := by
  induction fuel with
  | zero => trivial
  | succ fuel ih =>
    intro found
    refine ⟨trivial, ?_⟩
    simp only [ret_bind]
    split
    · intro parked
      simp only [ret_bind]
      split_ifs with hparked
      · exact ⟨fun _ => by simp [head, sql, call, Prog.bind, Stmt.wakes],
          fun _ => ⟨trivial, trivial⟩⟩
      · exact ⟨fun h => absurd h hparked, trivial⟩
    · intro delivered
      refine ⟨trivial, ?_⟩
      simp only [ret_bind]
      split_ifs
      · refine (leads_validateStepRequest id lease name).bind followedBy_of_none fun valid => ?_
        split
        · trivial
        · exact ih
      · trivial

theorem leads_sendSignal (sig id name payloadJson : String) :
    (sendSignal sig id name payloadJson).Leads followedBy := by
  unfold sendSignal
  split_ifs
  · trivial
  · intro found
    refine ⟨trivial, ?_⟩
    simp only [ret_bind]
    split
    · trivial
    · split_ifs
      · trivial
      · intro nowMs
        refine ⟨trivial, fun inserted => ?_⟩
        simp only [ret_bind]
        split_ifs with hinserted
        · exact ⟨fun _ => by simp [head, sql, call, Prog.bind, Stmt.wakes],
            fun _ => ⟨trivial, trivial⟩⟩
        · exact ⟨fun h => absurd h hinserted, trivial⟩
  · trivial

/-- Every call but a sleep wakes after it parks or signals. -/
theorem leads_body (pid : String)
    (hr : ∀ id lease name durationMs, r ≠ .stepSleep id lease name durationMs) :
    (r.body pid).Leads followedBy := by
  cases r
  case stepSleep id lease name durationMs => exact absurd rfl (hr id lease name durationMs)
  case stepSignal id lease name fuel =>
    refine leads_forget ((leads_validateStepRequest id lease name).bind followedBy_of_none ?_)
    intro valid
    split
    · trivial
    · exact leads_signalLoop id lease name fuel
  case sendSignal id name payloadJson => exact leads_forget (leads_sendSignal pid id name payloadJson)
  all_goals
    refine (all_body pid _ fun c hc a o => ?_).leads
    cases c <;> trivial

/-! ### Runs -/

theorem exec_sticks {next : Option Stmt}
    (hc : c.sticks id name) (hf : followedBy c (exec c x s).2 next) :
    (exec c x s).1 = s ∨ ∃ c', next = some c' ∧ c'.wakes id name := by
  by_cases hsame : (exec c x s).1 = s
  · exact .inl hsame
  refine .inr (Option.any_eq_true _ _ |>.1 ?_)
  obtain ⟨lease, untilMs, rfl⟩ | ⟨sig, payloadJson, nowMs, rfl⟩ := hc
  · refine hf ?_
    simp only [exec, update] at hsame ⊢
    split at hsame
    · exact absurd rfl hsame
    · split_ifs at hsame ⊢
      · rfl
      · exact absurd rfl hsame
  · refine hf ?_
    simp only [exec, insertSignal] at hsame ⊢
    split_ifs at hsame ⊢
    · rfl
    · exact absurd rfl hsame

/-- Every call at work wakes after it parks or signals, and for every stuck instance there is a call
about to wake it. -/
structure Watched (p : CallPool) : Prop where
  leads : ∀ pid r k, p.procs pid = .live r k → k.Leads followedBy
  awake : ∀ id name, Stuck p.store id name → ∃ pid c, p.next pid = some c ∧ c.wakes id name

/-- No process dies with a wake-up as its next statement.  Calls of all kinds run but for sleeps,
which park an instance for a name that is not that of a signal. -/
def LooksAgain (p : CallPool) : CallEvent → Bool
  | .start _ (.stepSleep _ _ _ _) => false
  | .start _ _ => true
  | .step _ _ => true
  | .kill pid =>
    match p.next pid with
    | some (.wakeParked _ _) => false
    | some (.wakeWaiting _ _ _) => false
    | _ => true

theorem watched_step {q : CallPool} (hp : Watched p)
    (he : LooksAgain p e) (h : calls.step p e = some q) : Watched q := by
  refine ⟨leads_step (fun pid r hstart => ?_) hp.leads h, fun id name hstuck => ?_⟩
  · refine leads_body pid fun id lease name durationMs hr => ?_
    rw [hstart, hr] at he
    cases he
  obtain ⟨pid, r, rfl, hpid, rfl⟩ | ⟨pid, x, r, c, k, rfl, hpid, rfl⟩ |
    ⟨pid, r, k, rfl, hpid, rfl⟩ := Machine.step_cases h
  · obtain ⟨pid', c, hc, hw⟩ := hp.awake id name hstuck
    refine ⟨pid', c, ?_, hw⟩
    rwa [next_set_of_ne]
    rintro rfl
    obtain ⟨_, _, hpid'⟩ := next_eq_some.1 hc
    cases hpid.symm.trans hpid'
  · by_cases hbefore : Stuck p.store id name
    · obtain ⟨pid', c', hc', hw⟩ := hp.awake id name hbefore
      refine ⟨pid', c', ?_, hw⟩
      rwa [next_set_of_ne]
      -- the waker itself would have woken the instance
      rintro rfl
      cases (next_eq_some.2 ⟨r, k, hpid⟩).symm.trans hc'
      exact not_stuck_of_wakes hw hstuck
    · obtain hsame | ⟨c', hc', hw⟩ := exec_sticks ((stuck_exec hstuck).resolve_left hbefore)
        (hp.leads pid r _ hpid (exec c x p.store).2).1
      · exact absurd ((congrArg (Stuck · id name) hsame).mp hstuck) hbefore
      · exact ⟨pid, c', by rw [next_set_live]; exact hc', hw⟩
  · obtain ⟨pid', c, hc, hw⟩ := hp.awake id name hstuck
    refine ⟨pid', c, ?_, hw⟩
    rwa [next_set_of_ne]
    rintro rfl
    simp only [LooksAgain, hc] at he
    cases c <;> simp_all [Stmt.wakes]

variable {es : List CallEvent}

/-- **In every run in which no process dies with a wake-up as its next statement, no instance waits
for a signal that is there, whenever no call is in progress.** -/
theorem not_stuck_of_idle {s : Ledger} {p : CallPool} (hs : ∀ id name, ¬ Stuck s id name)
    (hm : Runs.Meets calls.step (fun p e => LooksAgain p e) (idle s) es)
    (hp : run calls.step (idle s) es = some p) (hidle : ∀ pid, p.next pid = none)
    (id name : String) : ¬ Stuck p.store id name := by
  have hidle₀ : Watched (idle s) :=
    ⟨fun _ _ _ h => (nomatch h), fun id name h => absurd h (hs id name)⟩
  have hw : Watched p :=
    run_invariant (P := Watched) (fun _ _ _ hp he h => watched_step hp he h) hidle₀ hm hp
  intro hstuck
  obtain ⟨pid, c, hc, -⟩ := hw.awake id name hstuck
  cases (hidle pid).symm.trans hc

/-- An instance that runs under the lease `A`. -/
def orderRuns : Ledger where
  instances := empty.insert "order"
    { status := .running, leaseToken := some "A", leaseUntilMs := some 100 }
  steps := fun _ => empty
  signals := empty
  handed := []

/-- A waiter looks for a signal and finds none, one is sent, then the waiter parks, and then `last`
happens. -/
def missed (last : CallEvent) : List CallEvent :=
  [.start "waiter" (.stepSignal "order" "A" "paid" 1), .step "waiter" {}, .step "waiter" {},
    .start "sender" (.sendSignal "order" "paid" "1"), .step "sender" {}, .step "sender" {},
    .step "sender" {}, .step "sender" {}, .step "waiter" {}, last]

/-- Once the waiter and the sender are done, no call is in progress. -/
theorem idle_of_next (hp : run calls.step (idle orderRuns) es = some p)
    (hes : ∀ pid r, .start pid r ∈ es → pid = "waiter" ∨ pid = "sender")
    (hwaiter : p.next "waiter" = none) (hsender : p.next "sender" = none) (pid : String) :
    p.next pid = none := by
  by_cases hpid : pid = "waiter" ∨ pid = "sender"
  · obtain rfl | rfl := hpid
    · exact hwaiter
    · exact hsender
  · have hborn : (idle orderRuns : CallPool).procs pid = .unborn := rfl
    have h := unborn_of_run hp hborn fun r hr => hpid (hes pid r hr)
    simp [next, h]

theorem start_mem_missed {pid : String}
    (he : ∀ pid r, e ≠ .start pid r) (h : .start pid r ∈ missed e) :
    pid = "waiter" ∨ pid = "sender" := by
  have hne : Programs.Event.start pid r ≠ e := fun heq => he pid r heq.symm
  simp only [missed, List.mem_cons, Programs.Event.start.injEq,
    reduceCtorEq, List.not_mem_nil, hne, or_false, false_or] at h
  exact h.imp And.left And.left

/-- The waiter looks again and wakes the instance. -/
theorem not_stuck_of_idle_missed :
    Runs.Meets calls.step (fun p e => LooksAgain p e) (idle orderRuns)
        (missed (.step "waiter" {})) ∧
      ∃ p, run calls.step (idle orderRuns) (missed (.step "waiter" {})) = some p ∧
        (∀ pid, p.next pid = none) ∧ ¬ Stuck p.store "order" "paid" := by
  have hm : Runs.Meets calls.step (fun p e => LooksAgain p e) (idle orderRuns)
      (missed (.step "waiter" {})) := by decide +kernel
  obtain ⟨p, hp, hnext⟩ : ∃ p ∈ run calls.step (idle orderRuns) (missed (.step "waiter" {})),
      p.next "waiter" = none ∧ p.next "sender" = none := by decide +kernel
  have hidle := idle_of_next hp (fun _ _ => start_mem_missed nofun) hnext.1 hnext.2
  have hs : ∀ id name, ¬ Stuck orderRuns id name := fun _ _ h => h.2 rfl
  exact ⟨hm, p, hp, hidle, not_stuck_of_idle hs hm hp hidle "order" "paid"⟩

/-- The waiter dies after its park: no call is in progress, the signal is there, and the instance
waits for it. -/
theorem diedParked_stuck : (∀ id name, ¬ Stuck orderRuns id name) ∧
      ∃ p, run calls.step (idle orderRuns) (missed (.kill "waiter")) = some p ∧
        (∀ pid, p.next pid = none) ∧ Stuck p.store "order" "paid" := by
  refine ⟨fun _ _ h => h.2 rfl, ?_⟩
  obtain ⟨p, hp, hwaiter, hsender, hawaits, hlen⟩ :
      ∃ p ∈ run calls.step (idle orderRuns) (missed (.kill "waiter")),
        p.next "waiter" = none ∧ p.next "sender" = none ∧
        (∃ i ∈ p.store.instances.get "order", i.awaits "paid") ∧
        p.store.undelivered "order" "paid" ≠ [] := by decide +kernel
  exact ⟨p, hp, idle_of_next hp (fun _ _ => start_mem_missed nofun) hwaiter hsender, hawaits, hlen⟩

end Workflow

end RandallFlare
