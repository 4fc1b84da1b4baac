import RandallFlare.Workflow.Calls

/-!
# Restarts

`restart` forgets the failed steps of an instance that has ended, and then queues it.  These are two
statements, and each looks on its own whether the instance has ended: one that ends between them is
queued with the failed steps of its last run.

* `Ended`, `Cleared`: an instance has ended, and none of its steps failed or is pending;
* `KeepsRestarts`: the runs in which no instance ends between the two statements of a restart;
* `cleared_restart`: in such runs what a restart queues is cleared;
* `uncleared_restart`: a second restart and an advance between the two statements.
-/

namespace RandallFlare

namespace Workflow

open Programs Prog Ledger Pool SortedMap Runs

def Ended (s : Ledger) (id : String) : Bool := (s.instances.get id).any (·.status.terminal)

/-- No step of the instance failed or is pending. -/
def Cleared (s : Ledger) (id : String) : Prop :=
  ∀ name row, (s.steps id).get name = some row → row.status ≠ .failed ∧ row.status ≠ .pending

variable {s : Ledger} {c : Stmt} {x : Env} {id : String} {p : CallPool}

theorem ended_of_exec (h : Ended (exec c x s).1 id) (hc : c.ends id s = false) : Ended s id := by
  obtain ⟨i, hi, hend⟩ := Option.any_eq_true _ _ |>.1 h
  obtain ⟨j, hj, -, -, hturn⟩ := instance_exec hi
  cases hturn with
  | same _ heq => simpa [Ended, hj, ← heq] using hend
  | claimed _ hrun => simp [hrun, Status.terminal] at hend
  | renewed _ hrun => simp [hrun, Status.terminal] at hend
  | parked hwait => simp [hwait, Status.terminal] at hend
  | ended _ hends => simp [hends] at hc
  | freed _ hfree => rcases hfree with hfree | hfree <;> simp [hfree, Status.terminal] at hend

theorem Cleared.exec (h : Cleared s id) (hend : Ended s id) (c : Stmt) (x : Env) :
    Cleared (exec c x s).1 id := by
  have hidle : ∀ lease, ¬ s.runsUnder id lease := by
    intro lease hruns
    obtain ⟨i, hi, hruns⟩ := runsUnder_iff.1 hruns
    simp_all [Ended, Instance.runsUnder, Status.terminal]
  intro name row hrow
  rcases step_exec c x s id name with hsame | ⟨lease, _, -, hruns, -⟩ |
    ⟨lease, _, _, -, hruns, -⟩ | ⟨old, hold, hnew⟩ | ⟨_, -, -, hnew⟩
  · exact h name row (hsame.symm.trans hrow)
  · exact absurd hruns (hidle lease)
  · exact absurd hruns (hidle lease)
  · cases hrow.symm.trans hnew
    exact h name old hold
  · cases hrow.symm.trans hnew

/-- If the instance has ended, it is cleared. -/
def Settled (s : Ledger) (id : String) : Prop := Ended s id → Cleared s id

theorem settled_exec (h : Settled s id) (hc : c.ends id s = false) : Settled (exec c x s).1 id := by
  intro hend
  have hbefore := ended_of_exec hend hc
  exact (h hbefore).exec hbefore c x

theorem settled_clearSteps (s : Ledger) (id : String) : Settled (s.clearSteps id) id := by
  intro hend name row hrow
  have hend : (s.instances.get id).any (·.status.terminal) := by simpa [Ended] using hend
  rw [clearSteps, if_pos hend] at hrow
  simp only [Function.update_self, get_filter, Option.filter_eq_some_iff] at hrow
  simpa using hrow.2

/-! ### Calls that restart -/

/-- What queues an instance follows what clears it. -/
def clearsFirst (c : Stmt) (_ : c.Ans) (next : Option Stmt) : Prop :=
  ∀ id nowMs, next = some (.restart id nowMs) → c = .clearSteps id

theorem leads_clearsFirst (pid : String) (r : Call) :
    (Prog.cmd .clock fun _ => r.body pid).Leads clearsFirst := by
  by_cases hr : ∃ id, r = .restart id
  · obtain ⟨id, rfl⟩ := hr
    refine fun _ => ⟨nofun, fun _ => ⟨nofun, fun _ => ⟨?_, fun _ => ⟨nofun, trivial⟩⟩⟩⟩
    intro id' nowMs h
    cases h
    rfl
  · have hall : (r.body pid).All fun c => ∀ id nowMs, c ≠ .restart id nowMs := by
      refine all_body pid r fun c hc id nowMs h => ?_
      subst h
      cases r <;> first | exact hr ⟨_, rfl⟩ | cases hc
    have hcmd : (Prog.cmd .clock fun _ => r.body pid).All fun c =>
        ∀ id nowMs, c ≠ .restart id nowMs := ⟨nofun, fun _ => hall⟩
    exact hcmd.leads_of fun _ _ _ _ h id nowMs hnext => absurd rfl (h _ hnext id nowMs)

/-- No instance ends by a statement while a restart of it by another call has cleared it and not yet
queued it. -/
def KeepsRestarts (p : CallPool) : CallEvent → Prop
  | .step pid _ => ∀ c, p.next pid = some c → ∀ pid', pid' ≠ pid → ∀ id nowMs,
      p.next pid' = some (.restart id nowMs) → c.ends id p.store = false
  | _ => True

theorem keepsRestarts_of_next {pid : String} (hc : p.next pid = some c)
    (h : ∀ id, c.ends id p.store = false) : KeepsRestarts p (.step pid x) := by
  intro c' hc' _ _ id _ _
  cases hc.symm.trans hc'
  exact h id

/-- Every call at work clears first, and what is about to be queued is settled. -/
structure Prepared (p : CallPool) : Prop where
  leads : ∀ pid r k, p.procs pid = .live r k → k.Leads clearsFirst
  settled : ∀ pid id nowMs, p.next pid = some (.restart id nowMs) → Settled p.store id

theorem prepared_step {q : CallPool} {e : CallEvent} (hp : Prepared p) (he : KeepsRestarts p e)
    (h : calls.step p e = some q) : Prepared q := by
  refine ⟨leads_step (fun pid r _ => (leads_clearsFirst pid r 0).2) hp.leads h,
    fun pid' id nowMs hnext => ?_⟩
  obtain ⟨pid, r, -, -, rfl⟩ | ⟨pid, x, r, c, k, rfl, hpid, rfl⟩ | ⟨pid, _, _, -, -, rfl⟩ :=
    Machine.step_cases h
  all_goals by_cases hne : pid' = pid
  · subst hne
    rw [next_set_live] at hnext
    cases (leads_clearsFirst pid' r 0).1 id nowMs hnext
  · rw [next_set_of_ne _ _ _ hne] at hnext
    exact hp.settled pid' id nowMs hnext
  · subst hne
    rw [next_set_live] at hnext
    obtain rfl := (hp.leads pid' r _ hpid _).1 id nowMs hnext
    exact settled_clearSteps p.store id
  · rw [next_set_of_ne _ _ _ hne] at hnext
    exact settled_exec (hp.settled pid' id nowMs hnext)
      (he c (next_eq_some.2 ⟨r, k, hpid⟩) pid' hne id nowMs hnext)
  · simp [hne, next, set_procs] at hnext
  · rw [next_set_of_ne _ _ _ hne] at hnext
    exact hp.settled pid' id nowMs hnext

/-- **In every run in which no instance ends between the two statements of a restart, an instance
that a restart queues is queued without a failed or pending step.** -/
theorem cleared_restart {es : List CallEvent} {pid : String} {nowMs : ℕ}
    (hm : Runs.Meets calls.step KeepsRestarts (idle s) es)
    (hp : run calls.step (idle s) es = some p) (hnext : p.next pid = some (.restart id nowMs))
    (hone : (exec (.restart id nowMs) x p.store).2 = 1) :
    Cleared (exec (.restart id nowMs) x p.store).1 id := by
  have hidle : Prepared (idle s) := ⟨fun _ _ _ h => (nomatch h), fun _ _ _ h => nomatch h⟩
  have hprepared : Prepared p :=
    run_invariant (P := Prepared) (fun _ _ _ hp he h => prepared_step hp he h) hidle hm hp
  have hend : Ended p.store id := by
    by_contra hend
    cases hi : p.store.instances.get id <;>
      simp_all [exec, update, Ended]
  exact (hprepared.settled pid id nowMs hnext hend).exec hend _ x

/-- An instance that failed, with the step that did. -/
def orderFailed : Ledger where
  instances := empty.insert "order" { status := .failed }
  steps := fun _ => empty.insert "pay" { seq := 1, kind := .run, status := .failed }
  signals := empty
  handed := []

/-- A call restarts the instance, up to the statement that queues it. -/
def restarting (pid : String) : List CallEvent :=
  [.start pid (.restart "order"), .step pid {}, .step pid {}]

theorem cleared_restart_alone :
    Runs.Meets calls.step KeepsRestarts (idle orderFailed) (restarting "first") ∧
      ∃ p, run calls.step (idle orderFailed) (restarting "first") = some p ∧
        p.next "first" = some (.restart "order" 0) ∧ (exec (.restart "order" 0) {} p.store).2 = 1 ∧
          Cleared (exec (.restart "order" 0) {} p.store).1 "order" := by
  have hm : Runs.Meets calls.step KeepsRestarts (idle orderFailed) (restarting "first") := by
    refine ⟨trivial, fun t ht => ?_⟩
    cases ht
    refine ⟨keepsRestarts_of_next (c := .clock) rfl fun _ => rfl, fun t ht => ?_⟩
    cases ht
    exact ⟨keepsRestarts_of_next (c := .clearSteps "order") rfl fun _ => rfl, fun _ _ => trivial⟩
  obtain ⟨p, hp, hnext, hone⟩ : ∃ p ∈ run calls.step (idle orderFailed) (restarting "first"),
      p.next "first" = some (.restart "order" 0) ∧ (exec (.restart "order" 0) {} p.store).2 = 1 := by
    decide +kernel
  exact ⟨hm, p, hp, hnext, hone, cleared_restart hm hp hnext hone⟩

/-- The same call, and before its second statement another restart and an advance in which the step
fails again. -/
def overtaken : List CallEvent :=
  restarting "first" ++ restarting "second" ++ [.step "second" {}, .start "A" (.claimOne 0)] ++
    List.replicate 5 (.step "A" {}) ++
    [.start "step" (.stepRecord "order" "A" "pay" ⟨.failed, none, none, 1⟩), .step "step" {},
      .step "step" {}, .start "end" (.failTerminal "order" "A" "pay"), .step "end" {}]

/-- The instance is queued with the failed step of that advance. -/
theorem uncleared_restart : ∃ p, run calls.step (idle orderFailed) overtaken = some p ∧
      p.next "first" = some (.restart "order" 0) ∧ (exec (.restart "order" 0) {} p.store).2 = 1 ∧
        ¬ Cleared (exec (.restart "order" 0) {} p.store).1 "order" := by
  obtain ⟨p, hp, hnext, hone, row, hget, hfailed⟩ :
      ∃ p ∈ run calls.step (idle orderFailed) overtaken,
        p.next "first" = some (.restart "order" 0) ∧
        (exec (.restart "order" 0) {} p.store).2 = 1 ∧
        ∃ row ∈ ((exec (.restart "order" 0) {} p.store).1.steps "order").get "pay",
          row.status = .failed := by decide +kernel
  exact ⟨p, hp, hnext, hone, fun hclear => (hclear "pay" row hget).1 hfailed⟩

end Workflow

end RandallFlare
