import RandallFlare.Workflow.Calls

/-!
# Writes are fenced by the lease

A runner may stall for as long as it likes: its lease runs out, another runner takes the instance,
or someone pauses or ends it.  Its statements name its lease, so that what it writes afterwards
changes nothing.  One statement does not: the end of a sleep is written for the instance and the
name of the step alone.

* `Stmt.writer`, `Fenced`: the writes of a runner, and that one changes the ledger only while the
  instance runs under the runner's lease;
* `Stmt.takesLease`, `SleepersKeepLease`: the statements that end a lease, and the runs in which
  none of them ends the lease of a `step_sleep` call that is in progress;
* `writes_fenced`: in such runs every write is fenced, and the result of a step that is done stays
  whatever follows;
* `pausedSleeper_writes`: a `step_sleep` call writes to an instance that was paused meanwhile.
-/

namespace RandallFlare

namespace Workflow

open Programs Prog Ledger Runs Pool SortedMap

/-- The instance and the lease for which a runner writes. -/
def Stmt.writer : Stmt → Option (String × String)
  | .recordStep id _ lease _ => some (id, lease)
  | .insertSleep id _ lease _ => some (id, lease)
  | .finishSleep id _ lease => some (id, lease)
  | .park id lease _ _ => some (id, lease)
  | .deliverSignal _ id lease => some (id, lease)
  | .renew id lease => some (id, lease)
  | .finish id lease _ => some (id, lease)
  | .failTerminal id lease _ => some (id, lease)
  | .systemRetry id lease _ _ => some (id, lease)
  | _ => none

/-- A runner's write changes the ledger only while the instance runs under its lease. -/
def Fenced (c : Stmt) (x : Env) (s : Ledger) : Prop :=
  ∀ id lease, c.writer = some (id, lease) → (exec c x s).1 ≠ s → s.runsUnder id lease

/-- The one write whose `WHERE` does not name the lease. -/
def Stmt.endsSleep : Stmt → Bool
  | .finishSleep _ _ _ => true
  | _ => false

variable {c : Stmt} {s : Ledger} {id lease : String} {x : Env} {p : CallPool} {name : String}
  {resultJson : Option String}

/-- Every write but the end of a sleep is fenced by its own guard. -/
theorem fenced_of_endsSleep (hc : c.endsSleep = false) (x : Env) (s : Ledger) : Fenced c x s := by
  intro id lease hw hne
  cases c <;> simp only [Stmt.writer, Option.some.injEq, Prod.mk.injEq, reduceCtorEq] at hw <;>
    obtain ⟨rfl, rfl⟩ := hw
  case recordStep =>
    by_contra h
    simp [exec, recordStep, h] at hne
  case insertSleep =>
    by_contra h
    simp [exec, insertSleep, h] at hne
  case finishSleep => cases hc
  case deliverSignal =>
    by_contra h
    simp only [exec, deliverSignal] at hne
    split at hne <;> simp [h] at hne
  all_goals exact runsUnder_iff.2 (guard_of_update_ne _ _ _ _ hne)

/-! ### Losing a lease -/

/-- The statement ends the lease under which the instance runs. -/
def Stmt.takesLease (c : Stmt) (id lease : String) (s : Ledger) : Bool :=
  s.runsUnder id lease &&
    match c with
    | .expireLeases nowMs => (s.instances.get id).any (·.expired nowMs)
    | .park id' lease' _ _ => id' = id ∧ lease' = lease
    | .finish id' lease' _ => id' = id ∧ lease' = lease
    | .failTerminal id' lease' _ => id' = id ∧ lease' = lease
    | .systemRetry id' lease' _ _ => id' = id ∧ lease' = lease
    | .pause id' => id' = id
    | .terminate id' => id' = id
    | _ => false

theorem runsUnder_update {id' : String} {guard : Instance → Bool}
    {f : Instance → Instance} (h : s.runsUnder id lease)
    (hf : ∀ i, i.runsUnder lease → id' = id → guard i → (f i).runsUnder lease) :
    (s.update id' guard f).1.runsUnder id lease := by
  obtain ⟨i, hi, hr⟩ := runsUnder_iff.1 h
  rw [runsUnder_iff, get_update]
  by_cases hid : id = id'
  · subst hid
    refine ⟨_, by rw [if_pos rfl, hi, Option.map_some], ?_⟩
    split_ifs with hg
    · exact hf i hr rfl hg
    · exact hr
  · exact ⟨i, by rw [if_neg hid, hi], hr⟩

theorem runsUnder_exec (h : s.runsUnder id lease) (ht : c.takesLease id lease s = false) :
    (exec c x s).1.runsUnder id lease := by
  obtain ⟨i, hi, hr⟩ := runsUnder_iff.1 h
  cases c
  case expireLeases nowMs =>
    have hx : i.expired nowMs = false := by simpa [Stmt.takesLease, h, hi] using ht
    rw [runsUnder_iff]
    exact ⟨i, by simp [exec, expireLeases, get_mapEntries, hi, hx], hr⟩
  case renew id' lease' =>
    refine runsUnder_update h fun i hi _ _ => ?_
    simpa [Instance.runsUnder] using hi
  case clock | dueInstance | readInstance | validLease | readStep | firstSignal | execute | hand =>
    exact h
  case recordStep | insertSleep | finishSleep | clearSteps | insertSignal | deliverSignal =>
    simpa [exec, runsUnder] using h
  all_goals
    refine runsUnder_update h fun j hj hid hg => ?_
    simp_all [Stmt.takesLease, Instance.runsUnder, Instance.due, Status.terminal]

/-! ### Sleeping calls -/

/-- A `step_sleep` call under the lease is in progress. -/
def Sleeping (p : CallPool) (pid id lease : String) : Prop :=
  ∃ name durationMs c k, p.procs pid = .live (.stepSleep id lease name durationMs) (.cmd c k)

/-- No statement ends the lease of a `step_sleep` call of another process that is in progress. -/
def SleepersKeepLease (p : CallPool) : CallEvent → Prop
  | .step pid _ => ∀ c, p.next pid = some c → ∀ pid', pid' ≠ pid → ∀ id lease,
      Sleeping p pid' id lease → c.takesLease id lease p.store = false
  | _ => True

/-- A statement that ends no lease is always allowed. -/
theorem sleepersKeepLease_of_next {pid : String}
    (hc : p.next pid = some c) (h : ∀ id lease, c.takesLease id lease p.store = false) :
    SleepersKeepLease p (.step pid x) := by
  intro c' hc' pid' _ id lease _
  cases hc.symm.trans hc'
  exact h id lease

/-- A `step_sleep` call relies on its lease; every call fences its writes. -/
def fenceContract (r : Call) : Contract Ledger Env Stmt where
  rely s t := ∀ id lease name durationMs, r = .stepSleep id lease name durationMs →
    s.runsUnder id lease → t.runsUnder id lease
  assume _ _ _ := True
  ensure := Fenced

theorem lawful_fenceContract (r : Call) : (fenceContract r).Lawful where
  refl _ _ _ _ _ _ h := h
  trans _ _ _ hst htu id lease name durationMs hr h :=
    htu id lease name durationMs hr (hst id lease name durationMs hr h)

section StepSleep

variable {id lease name : String} {durationMs : ℕ}

theorem safe_validateStepRequest (s : Ledger) :
    Safe exec (fun _ => True) (fenceContract (.stepSleep id lease name durationMs))
      (fun valid t => valid = .ok () → t.runsUnder id lease)
      (validateStepRequest id lease name) s := by
  unfold validateStepRequest
  split_ifs
  · intro t _ _ x _
    refine ⟨fenced_of_endsSleep rfl x t, ?_⟩
    simp only [exec, ret_bind]
    split_ifs with hr
    · exact fun u htu _ => htu id lease name durationMs rfl hr
    · intro u _ h
      cases h
  · intro u _ h
    cases h

theorem safe_stepSleep (s : Ledger) :
    Safe exec (fun _ => True) (fenceContract (.stepSleep id lease name durationMs))
      (fun _ _ => True) (stepSleep id lease name durationMs) s := by
  have hK := lawful_fenceContract (.stepSleep id lease name durationMs)
  refine Safe.seq hK (safe_validateStepRequest s) fun valid t hvalid => ?_
  cases valid with
  | error e => exact fun _ _ => trivial
  | ok u =>
    have ht : t.runsUnder id lease := hvalid rfl
    -- insert the row
    intro t₁ h₁ _ x₁ _
    refine ⟨fenced_of_endsSleep rfl x₁ t₁, ?_⟩
    have ht₁ := runsUnder_exec (x := x₁) (c := .insertSleep id name lease durationMs)
      (h₁ id lease name durationMs rfl ht) (by simp [Stmt.takesLease])
    -- read it back
    intro t₂ h₂ _ x₂ _
    refine ⟨fenced_of_endsSleep rfl x₂ t₂, ?_⟩
    have ht₂ := h₂ id lease name durationMs rfl ht₁
    simp only [exec, ret_bind]
    cases (t₂.steps id).get name with
    | none => exact fun _ _ => trivial
    | some row =>
      dsimp only
      split_ifs
      · exact fun _ _ => trivial
      · split
        · exact fun _ _ => trivial
        · -- read the clock
          intro t₃ h₃ _ x₃ _
          refine ⟨fenced_of_endsSleep rfl x₃ t₃, ?_⟩
          have ht₃ := h₃ id lease name durationMs rfl ht₂
          simp only [exec, ret_bind]
          split_ifs
          · intro t₄ h₄ _ x₄ _
            refine ⟨fun id' lease' hw _ => ?_, fun _ _ => trivial⟩
            cases hw
            exact h₄ id lease name durationMs rfl ht₃
          · refine Safe.of_all ⟨fun x t _ _ => fenced_of_endsSleep rfl x t, fun a => ?_⟩
            simp only [ret_bind]
            split_ifs <;> trivial

end StepSleep

theorem all_endsSleep (pid : String) {r : Call}
    (hr : ∀ id lease name durationMs, r ≠ .stepSleep id lease name durationMs) :
    (r.body pid).All fun c => c.endsSleep = false := by
  refine all_body pid r fun c hc => ?_
  cases c
  case finishSleep => cases r <;> first | exact absurd rfl (hr _ _ _ _) | cases hc
  all_goals rfl

theorem fits_fenceContract :
    Fits calls SleepersKeepLease (fun _ => True) (fun _ _ => True) fun _ r => fenceContract r where
  lawful _ r := lawful_fenceContract r
  assumes _ _ _ _ _ _ _ _ := trivial
  keeps _ _ _ _ _ _ _ _ := trivial
  ignores _ _ _ _ _ _ _ _ _ := trivial
  tolerates p pid x r c k pid' r' c' k' hne hok hpid hpid' _ _ := by
    rintro id lease name durationMs rfl h
    exact runsUnder_exec h (hok c (next_eq_some.2 ⟨r, k, hpid⟩) pid' hne id lease
      ⟨name, durationMs, c', k', hpid'⟩)
  starts p pid r _ _ _ := by
    by_cases hr : ∃ id lease name durationMs, r = .stepSleep id lease name durationMs
    · obtain ⟨id, lease, name, durationMs, rfl⟩ := hr
      exact Safe.seq (lawful_fenceContract _) (safe_stepSleep p.store) fun _ _ _ _ _ => trivial
    · refine Safe.of_all ((all_endsSleep pid fun id lease name durationMs h =>
        hr ⟨id, lease, name, durationMs, h⟩).mono fun c hc x t _ _ => ?_)
      exact fenced_of_endsSleep hc x t

/-! ### Steps that are done -/

/-- A step is done with this result. -/
def StepDone (s : Ledger) (id name : String) (resultJson : Option String) : Prop :=
  ∃ row, (s.steps id).get name = some row ∧ row.status = .ok ∧ row.resultJson = resultJson

/-- No statement changes the result of a step that is done. -/
theorem stepDone_exec (c : Stmt) (x : Env) (h : StepDone s id name resultJson) :
    StepDone (exec c x s).1 id name resultJson := by
  obtain ⟨row, hrow, hok, hres⟩ := h
  rcases step_exec c x s id name with hsame | ⟨_, _, -, -, hnot⟩ |
    ⟨_, _, _, -, -, hnone, -⟩ | ⟨old, hold, hnew⟩ | ⟨old, hold, hbad, -⟩
  · exact ⟨row, hsame.trans hrow, hok, hres⟩
  · simp [hrow, hok] at hnot
  · cases hrow.symm.trans hnone
  · cases hrow.symm.trans hold
    exact ⟨_, hnew, hok, hres⟩
  · cases hrow.symm.trans hold
    simp [hok] at hbad

theorem stepDone_run {q : CallPool} {es : List CallEvent} (hr : run calls.step p es = some q)
    (h : StepDone p.store id name resultJson) : StepDone q.store id name resultJson := by
  refine run_invariant (P := fun p : CallPool => StepDone p.store id name resultJson)
    (fun p e q hp _ hstep => ?_) h (meets_true p es) hr
  obtain ⟨_, _, -, -, rfl⟩ | ⟨_, x, _, c, _, -, -, rfl⟩ | ⟨_, _, _, -, -, rfl⟩ :=
    Machine.step_cases hstep
  · exact hp
  · exact stepDone_exec c x hp
  · exact hp

/-- **In every run in which no `step_sleep` call in progress loses its lease, a runner's write
changes the ledger only under its lease; and a step that is done stays so, whatever follows.** -/
theorem writes_fenced {s : Ledger} {es fs : List CallEvent} {p q : CallPool}
    (hm : Runs.Meets calls.step SleepersKeepLease (idle s) es)
    (hp : run calls.step (idle s) es = some p) (hq : run calls.step p fs = some q) :
    (∀ pid c, p.next pid = some c → ∀ x, Fenced c x p.store) ∧
      ∀ id name resultJson, StepDone p.store id name resultJson →
        StepDone q.store id name resultJson := by
  have hsound : p.Sound calls.exec (fun _ => True) (fun _ _ => True) fun _ r => fenceContract r :=
    sound_run fits_fenceContract (Pool.Sound.idle calls.exec _ trivial fun _ => trivial) hm hp
  constructor
  · intro pid c hc x
    obtain ⟨r, k, hpid⟩ := next_eq_some.1 hc
    exact hsound.ensure (lawful_fenceContract r) hpid trivial
  · exact fun id name resultJson => stepDone_run hq

/-- An instance that runs under the lease `A`, asleep since before. -/
def asleep : Ledger where
  instances := empty.insert "order"
    { status := .running, leaseToken := some "A", leaseUntilMs := some 100 }
  steps := fun _ => empty.insert "nap"
    { seq := 1, kind := .sleep, status := .slept, wakeAtMs := some 0 }
  signals := empty
  handed := []

/-- A `step_sleep` call under that lease, up to the end of the sleep. -/
def sleeper : List CallEvent :=
  [.start "nap" (.stepSleep "order" "A" "nap" 0), .step "nap" {}, .step "nap" {}, .step "nap" {},
    .step "nap" {}]

theorem writes_fenced_sleeper : Runs.Meets calls.step SleepersKeepLease (idle asleep) sleeper ∧
      ∃ p, run calls.step (idle asleep) sleeper = some p ∧
        p.next "nap" = some (.finishSleep "order" "nap" "A") ∧
          Fenced (.finishSleep "order" "nap" "A") { nowMs := 7 } p.store := by
  have hm : Runs.Meets calls.step SleepersKeepLease (idle asleep) sleeper := by
    refine ⟨trivial, fun t ht => ?_⟩
    cases ht
    refine ⟨sleepersKeepLease_of_next (c := .validLease "order" "A") rfl
      (by simp [Stmt.takesLease]), fun t ht => ?_⟩
    cases ht
    refine ⟨sleepersKeepLease_of_next (c := .insertSleep "order" "nap" "A" 0) rfl
      (by simp [Stmt.takesLease]), fun t ht => ?_⟩
    cases ht
    refine ⟨sleepersKeepLease_of_next (c := .readStep "order" "nap") rfl
      (by simp [Stmt.takesLease]), fun t ht => ?_⟩
    cases ht
    exact ⟨sleepersKeepLease_of_next (c := .clock) rfl (by simp [Stmt.takesLease]),
      fun _ _ => trivial⟩
  exact ⟨hm, Runs.exists_of_view (·.next "nap") (by decide +kernel) fun p hp hnext =>
    ⟨hnext, (writes_fenced hm hp (run_nil p)).1 "nap" _ hnext _⟩⟩

/-- An operator pauses the instance. -/
def paused : List CallEvent :=
  [.start "operator" (.pause "order"), .step "operator" {}]

/-- The next statement of the call, whether its lease is held, and the row of its step. -/
def sleepView (p : CallPool) : Option Stmt × Bool × Option StepRow :=
  (p.next "nap", p.store.runsUnder "order" "A", (p.store.steps "order").get "nap")

/-- The instance is paused before the call has written the end of its sleep, and the call writes it
all the same. -/
theorem pausedSleeper_writes : ∃ p, run calls.step (idle asleep) (sleeper ++ paused) = some p ∧
      ∃ c, p.next "nap" = some c ∧ ∃ x, ¬ Fenced c x p.store := by
  refine Runs.exists_of_view sleepView (v := (some (.finishSleep "order" "nap" "A"), false,
    some { seq := 1, kind := .sleep, status := .slept, wakeAtMs := some 0 })) (by decide +kernel)
    fun p hp hview => ?_
  simp only [sleepView, Prod.mk.injEq] at hview
  obtain ⟨hnext, hruns, hrow⟩ := hview
  refine ⟨_, hnext, { nowMs := 7 }, fun hf => ?_⟩
  have hruns' := hf "order" "A" rfl fun heq => ?_
  · simp [hruns] at hruns'
  · have := congrArg (fun s => (s.steps "order").get "nap") heq
    simp [exec, finishSleep, hrow, get_setStep] at this

end Workflow

end RandallFlare
