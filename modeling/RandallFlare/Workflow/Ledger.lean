import Mathlib.Data.String.Basic
import Mathlib.Data.List.Sort
import RandallFlare.Lib.SortedMap
import RandallFlare.Lib.Programs

/-!
# The ledger of a workflow

A workflow keeps its instances, the log of their steps and their signals in a D1 database of its
own.  A runner holds an instance by a lease token written on its row; its statements name the
token, and each statement is one command of D1.

* `Instance`, `StepRow`, `SignalRow`, `Ledger`: the tables;
* `Stmt`, `Ledger.exec`: the statements of `workflow.rs` and what each does;
* `Ledger.instance_exec`, `Ledger.step_exec`, `Ledger.signal_exec`: what can become of a row by a
  statement.

`Ledger.handed` is not stored by the program: it lists the values that replays have handed to the
workflow's code.  The audit events are left out.
-/

namespace RandallFlare

open SortedMap

namespace Workflow

inductive Status
  | queued | running | waiting | paused | complete | failed | terminated
  deriving DecidableEq

/-- An instance in one of these states is not run again. -/
def Status.terminal : Status → Bool
  | .complete | .failed | .terminated => true
  | _ => false

/-- A row of `workflow_instances`. -/
structure Instance where
  status : Status := .queued
  waitingFor : Option String := none
  sleepUntilMs : Option ℕ := some 0
  leaseToken : Option String := none
  leaseUntilMs : Option ℕ := none
  outputJson : Option String := none
  lastError : Option String := none
  retryCount : ℕ := 0
  startedAtMs : ℕ := 0
  finishedAtMs : Option ℕ := none
  updatedAtMs : ℕ := 0
  concurrencyGroup : Option String := none
  concurrencyGroupLimit : ℕ := 0
  instanceRetries : ℕ := 3
  deriving DecidableEq

/-- Steps that run code, and steps that sleep. -/
inductive StepKind
  | run | sleep
  deriving DecidableEq

inductive StepStatus
  | ok | failed | slept | pending
  deriving DecidableEq

/-- A row of `workflow_steps`. -/
structure StepRow where
  seq : ℕ
  kind : StepKind
  status : StepStatus
  resultJson : Option String := none
  error : Option String := none
  wakeAtMs : Option ℕ := none
  attempts : ℕ := 1
  startedAtMs : ℕ := 0
  finishedAtMs : Option ℕ := none
  deriving DecidableEq

/-- A row of `workflow_signals`. -/
structure SignalRow where
  instanceId : String
  name : String
  payloadJson : String
  deliveredAtMs : Option ℕ := none
  createdAtMs : ℕ
  deriving DecidableEq

/-- What a run of a step left. -/
structure StepOutcome where
  status : StepStatus
  resultJson : Option String
  error : Option String
  attempts : ℕ
  deriving DecidableEq

/-- A call of the workflow's code and the value it got. -/
structure Handed where
  instanceId : String
  signal : Bool
  name : String
  valueJson : String
  deriving DecidableEq

/-- The D1 database of a workflow; the steps are given for each instance. -/
structure Ledger where
  instances : SortedMap String Instance
  steps : String → SortedMap String StepRow
  signals : SortedMap String SignalRow
  handed : List Handed

def leaseMs : ℕ := 5 * 60 * 1000

namespace Instance

/-- `status='running' AND lease_token=?`. -/
def runsUnder (i : Instance) (lease : String) : Bool :=
  i.status = .running ∧ i.leaseToken = some lease

/-- `status='running' AND lease_until_ms<=?`. -/
def expired (i : Instance) (nowMs : ℕ) : Bool :=
  i.status = .running && i.leaseUntilMs.any (· ≤ nowMs)

/-- `status IN ('queued','waiting') AND sleep_until_ms<=?`, a null time being never due. -/
def due (i : Instance) (nowMs : ℕ) : Bool :=
  (i.status = .queued || i.status = .waiting) && i.sleepUntilMs.any (· ≤ nowMs)

/-- The row a runner leaves that gives its lease back. -/
def release (i : Instance) (status : Status) (sleepUntilMs : Option ℕ) (nowMs : ℕ) : Instance :=
  { i with
    status := status
    sleepUntilMs := sleepUntilMs
    leaseToken := none
    leaseUntilMs := none
    updatedAtMs := nowMs }

/-- A release for good. -/
def close (i : Instance) (status : Status) (nowMs : ℕ) : Instance :=
  { i.release status none nowMs with waitingFor := none, finishedAtMs := some nowMs }

end Instance

namespace Ledger

/-- `UPDATE workflow_instances … WHERE id=? AND …`, and the number of rows it changed. -/
def update (s : Ledger) (id : String) (guard : Instance → Bool) (f : Instance → Instance) :
    Ledger × ℕ :=
  match s.instances.get id with
  | none => (s, 0)
  | some i => if guard i then ({ s with instances := s.instances.insert id (f i) }, 1) else (s, 0)

/-- The instance runs under the token. -/
def runsUnder (s : Ledger) (id lease : String) : Bool :=
  (s.instances.get id).any (·.runsUnder lease)

/-- How many instances run, in a group if one is given. -/
def running (s : Ledger) (group : Option String) : ℕ :=
  (s.instances.values.filter fun i =>
    i.status = .running ∧ (group = none ∨ i.concurrencyGroup = group)).length

/-- `ORDER BY sleep_until_ms,started_at_ms LIMIT 1` among the instances that are due; of equal ones it
is the first by id, which the SQL leaves open. -/
def dueInstance (s : Ledger) (nowMs : ℕ) : Option (String × Instance) :=
  ((s.instances.entries.filter fun p => p.2.due nowMs).insertionSort fun p q =>
    p.2.sleepUntilMs.getD 0 < q.2.sleepUntilMs.getD 0 ∨
      p.2.sleepUntilMs.getD 0 = q.2.sleepUntilMs.getD 0 ∧
        p.2.startedAtMs ≤ q.2.startedAtMs).head?

/-- The undelivered signals of a name. -/
def undelivered (s : Ledger) (id name : String) : List (String × SignalRow) :=
  s.signals.entries.filter fun p => p.2.instanceId = id ∧ p.2.name = name ∧ p.2.deliveredAtMs = none

/-- `ORDER BY created_at_ms,id LIMIT 1` among the undelivered signals of a name. -/
def firstSignal (s : Ledger) (id name : String) : Option (String × SignalRow) :=
  ((s.undelivered id name).insertionSort fun p q =>
    p.2.createdAtMs < q.2.createdAtMs ∨ p.2.createdAtMs = q.2.createdAtMs ∧ p.1 ≤ q.1).head?

/-- `COALESCE(MAX(seq),0)+1`. -/
def nextSeq (s : Ledger) (id : String) : ℕ :=
  ((s.steps id).values.map (·.seq)).foldl max 0 + 1

def setStep (s : Ledger) (id name : String) (row : StepRow) : Ledger :=
  { s with steps := Function.update s.steps id ((s.steps id).insert name row) }

end Ledger

/-! ### Statements -/

/-- The statements of runners, of those who send signals and of those who manage instances, the
clock, and the calls of the workflow's code.  The lease of `finishSleep` is not part of its SQL: it
says for which runner the statement is made. -/
inductive Stmt
  | clock
  | expireLeases (nowMs : ℕ)
  | dueInstance (nowMs : ℕ)
  | claim (id lease : String) (nowMs maxRunning : ℕ) (group : Option String) (groupLimit : ℕ)
  | readInstance (id : String)
  | validLease (id lease : String)
  | readStep (id name : String)
  | recordStep (id name lease : String) (outcome : StepOutcome)
  | insertSleep (id name lease : String) (durationMs : ℕ)
  | finishSleep (id name lease : String)
  | park (id lease : String) (sleepUntilMs : Option ℕ) (waitingFor : String)
  | firstSignal (id name : String)
  | deliverSignal (sig id lease : String)
  | wakeParked (id name : String)
  | insertSignal (sig id name payloadJson : String) (nowMs : ℕ)
  | wakeWaiting (id name : String) (nowMs : ℕ)
  | renew (id lease : String)
  | finish (id lease outputJson : String)
  | failTerminal (id lease error : String)
  | systemRetry (id lease : String) (retryCount : ℕ) (error : String)
  | pause (id : String)
  | resume (id : String)
  | terminate (id : String)
  | clearSteps (id : String)
  | restart (id : String) (nowMs : ℕ)
  | execute (id name : String)
  | hand (h : Handed)
  deriving DecidableEq

/-- What running the code of a step gives: a result, an error that may or may not be tried again,
or a result that is not JSON. -/
inductive Execution
  | result (json : String)
  | error (message : String) (retryable : Bool)
  | unserializable
  deriving DecidableEq

@[reducible] def Stmt.Ans : Stmt → Type
  | .clock => ℕ
  | .dueInstance _ => Option (String × Instance)
  | .readInstance _ => Option Instance
  | .validLease _ _ => Bool
  | .readStep _ _ => Option StepRow
  | .firstSignal _ _ => Option (String × SignalRow)
  | .execute _ _ => Execution
  | .expireLeases _ => Unit
  | .insertSleep _ _ _ _ => Unit
  | .finishSleep _ _ _ => Unit
  | .wakeWaiting _ _ _ => Unit
  | .clearSteps _ => Unit
  | .hand _ => Unit
  | _ => ℕ

/-- What the environment adds to a statement: the node's clock, and what the code of a step
does. -/
structure Env where
  nowMs : ℕ := 0
  execution : Execution := .result "null"

namespace Ledger

/-- The row a record of a step leaves: a new one, or an old one that was not done. -/
def recorded (s : Ledger) (id name : String) (outcome : StepOutcome) (nowMs : ℕ) : StepRow :=
  match (s.steps id).get name with
  | none =>
    { seq := s.nextSeq id
      kind := .run
      status := outcome.status
      resultJson := outcome.resultJson
      error := outcome.error
      attempts := outcome.attempts
      startedAtMs := nowMs
      finishedAtMs := some nowMs }
  | some row =>
    { row with
      status := outcome.status
      resultJson := outcome.resultJson
      error := outcome.error
      attempts := outcome.attempts
      finishedAtMs := some nowMs }

/-- `INSERT … ON CONFLICT DO UPDATE … WHERE status!='ok'`, if the lease is held. -/
def recordStep (s : Ledger) (id name lease : String) (outcome : StepOutcome) (nowMs : ℕ) :
    Ledger × ℕ :=
  if s.runsUnder id lease ∧ ((s.steps id).get name).all (·.status ≠ .ok) then
    (s.setStep id name (s.recorded id name outcome nowMs), 1)
  else (s, 0)

/-- `INSERT … ON CONFLICT DO NOTHING`, if the lease is held. -/
def insertSleep (s : Ledger) (id name lease : String) (durationMs nowMs : ℕ) : Ledger :=
  if s.runsUnder id lease ∧ (s.steps id).get name = none then
    s.setStep id name
      { seq := s.nextSeq id
        kind := .sleep
        status := .slept
        wakeAtMs := some (nowMs + min durationMs (365 * 24 * 60 * 60 * 1000))
        startedAtMs := nowMs }
  else s

/-- `UPDATE workflow_steps SET finished_at_ms`, whoever holds the lease. -/
def finishSleep (s : Ledger) (id name : String) (nowMs : ℕ) : Ledger :=
  match (s.steps id).get name with
  | none => s
  | some row => s.setStep id name { row with finishedAtMs := some nowMs }

/-- Mark a signal as delivered, if the lease is held and no one has. -/
def deliverSignal (s : Ledger) (sig id lease : String) (nowMs : ℕ) : Ledger × ℕ :=
  match s.signals.get sig with
  | none => (s, 0)
  | some row =>
    if row.deliveredAtMs = none ∧ s.runsUnder id lease then
      ({ s with signals := s.signals.insert sig { row with deliveredAtMs := some nowMs } }, 1)
    else (s, 0)

def signalRow (id name payloadJson : String) (nowMs : ℕ) : SignalRow :=
  { instanceId := id, name := name, payloadJson := payloadJson, createdAtMs := nowMs }

/-- `INSERT … SELECT` of a signal for an instance that is not at its end. -/
def insertSignal (s : Ledger) (sig id name payloadJson : String) (nowMs : ℕ) : Ledger × ℕ :=
  if (s.instances.get id).any (!·.status.terminal) ∧ s.signals.get sig = none then
    ({ s with signals := s.signals.insert sig (signalRow id name payloadJson nowMs) }, 1)
  else (s, 0)

/-- Requeue every instance whose lease has run out. -/
def expireLeases (s : Ledger) (nowMs : ℕ) : Ledger :=
  { s with instances := s.instances.mapEntries fun _ i =>
      if i.expired nowMs then i.release .queued (some nowMs) nowMs else i }

/-- Forget the steps of an ended instance that failed or never ended. -/
def clearSteps (s : Ledger) (id : String) : Ledger :=
  if (s.instances.get id).any (·.status.terminal) then
    { s with steps := Function.update s.steps id ((s.steps id).filter fun _ row =>
        row.status ≠ .failed ∧ row.status ≠ .pending) }
  else s

/-- Make an instance run again that is `queued`. -/
def queue (i : Instance) (nowMs : ℕ) : Instance :=
  { i with
    status := .queued
    waitingFor := none
    sleepUntilMs := some nowMs
    updatedAtMs := nowMs }

/-- What a statement does and answers. -/
def exec : (c : Stmt) → Env → Ledger → Ledger × c.Ans
  | .clock, x, s => (s, x.nowMs)
  | .expireLeases nowMs, _, s => (s.expireLeases nowMs, ())
  | .dueInstance nowMs, _, s => (s, s.dueInstance nowMs)
  | .claim id lease nowMs maxRunning group groupLimit, _, s =>
    s.update id
      (fun i => i.due nowMs && (maxRunning = 0 || s.running none < maxRunning) &&
        (group = none || groupLimit = 0 || s.running group < groupLimit))
      fun i => { i with
        status := .running
        waitingFor := none
        leaseToken := some lease
        leaseUntilMs := some (nowMs + leaseMs)
        updatedAtMs := nowMs }
  | .readInstance id, _, s => (s, s.instances.get id)
  | .validLease id lease, _, s => (s, s.runsUnder id lease)
  | .readStep id name, _, s => (s, (s.steps id).get name)
  | .recordStep id name lease outcome, x, s => s.recordStep id name lease outcome x.nowMs
  | .insertSleep id name lease durationMs, x, s =>
    (s.insertSleep id name lease durationMs x.nowMs, ())
  | .finishSleep id name _, x, s => (s.finishSleep id name x.nowMs, ())
  | .park id lease sleepUntilMs waitingFor, x, s =>
    s.update id (·.runsUnder lease) fun i =>
      { i.release .waiting sleepUntilMs x.nowMs with waitingFor := some waitingFor }
  | .firstSignal id name, _, s => (s, s.firstSignal id name)
  | .deliverSignal sig id lease, x, s => s.deliverSignal sig id lease x.nowMs
  | .wakeParked id name, x, s =>
    s.update id
      (fun i => i.status = .waiting && i.waitingFor = some name &&
        !(s.undelivered id name).isEmpty)
      fun i => queue i x.nowMs
  | .insertSignal sig id name payloadJson nowMs, _, s =>
    s.insertSignal sig id name payloadJson nowMs
  | .wakeWaiting id name nowMs, _, s =>
    ((s.update id
      (fun i => i.status = .waiting && (i.waitingFor = some name || i.waitingFor = none))
      fun i => queue i nowMs).1, ())
  | .renew id lease, x, s =>
    s.update id (·.runsUnder lease) fun i =>
      { i with leaseUntilMs := some (x.nowMs + leaseMs), updatedAtMs := x.nowMs }
  | .finish id lease outputJson, x, s =>
    s.update id (·.runsUnder lease) fun i =>
      { i.close .complete x.nowMs with outputJson := some outputJson, lastError := none }
  | .failTerminal id lease error, x, s =>
    s.update id (·.runsUnder lease) fun i =>
      { i.close .failed x.nowMs with lastError := some error }
  | .systemRetry id lease retryCount error, x, s =>
    s.update id (·.runsUnder lease) fun i =>
      { i.release .queued (some (x.nowMs + 2 ^ min retryCount 8 * 1000)) x.nowMs with
        retryCount := retryCount
        lastError := some error }
  | .pause id, x, s =>
    s.update id
      (fun i => i.status = .queued || i.status = .running || i.status = .waiting)
      fun i => i.release .paused i.sleepUntilMs x.nowMs
  | .resume id, x, s =>
    s.update id (·.status = .paused) fun i => i.release .queued (some x.nowMs) x.nowMs
  | .terminate id, x, s => s.update id (!·.status.terminal) fun i => i.close .terminated x.nowMs
  | .clearSteps id, _, s => (s.clearSteps id, ())
  | .restart id nowMs, _, s =>
    s.update id (·.status.terminal) fun i =>
      { i.release .queued (some nowMs) nowMs with
        waitingFor := none
        outputJson := none
        lastError := none
        finishedAtMs := none }
  | .execute _ _, x, s => (s, x.execution)
  | .hand h, _, s => ({ s with handed := h :: s.handed }, ())

/-! ### What the operations leave alone, and what an update makes of a row -/

/-- Nothing but the steps differs. -/
abbrev OnlySteps (s t : Ledger) : Prop :=
  t.instances = s.instances ∧ t.signals = s.signals ∧ t.handed = s.handed

/-- Nothing but the signals differs. -/
abbrev OnlySignals (s t : Ledger) : Prop :=
  t.instances = s.instances ∧ t.steps = s.steps ∧ t.handed = s.handed

section Frame

variable (s : Ledger) (id id' : String) (guard : Instance → Bool) (f : Instance → Instance)

@[simp] theorem update_frame : (s.update id guard f).1.steps = s.steps ∧
    (s.update id guard f).1.signals = s.signals ∧ (s.update id guard f).1.handed = s.handed := by
  unfold update
  split
  · exact ⟨rfl, rfl, rfl⟩
  · split <;> exact ⟨rfl, rfl, rfl⟩

theorem get_update : (s.update id guard f).1.instances.get id' =
    if id' = id then (s.instances.get id').map fun i => if guard i then f i else i
    else s.instances.get id' := by
  unfold update
  by_cases hid : id' = id
  · subst hid
    cases hi : s.instances.get id' with
    | none => simp [hi]
    | some i => by_cases hg : guard i <;> simp [hg, hi]
  · cases hi : s.instances.get id with
    | none => simp [hid]
    | some i => by_cases hg : guard i <;> simp [hg, hid, get_insert]

/-- A row after an update is the row before it, or what the update made of that. -/
theorem get_update_cases {i : Instance} (h : (s.update id guard f).1.instances.get id' = some i) :
    ∃ j, s.instances.get id' = some j ∧ (i = j ∨ id = id' ∧ guard j ∧ i = f j) := by
  rw [get_update] at h
  split_ifs at h with hid
  · obtain ⟨j, hj, rfl⟩ := Option.map_eq_some_iff.1 h
    refine ⟨j, hj, ?_⟩
    split_ifs with hg
    · exact .inr ⟨hid.symm, hg, rfl⟩
    · exact .inl rfl
  · exact ⟨i, h, .inl rfl⟩

theorem guard_of_update_ne (h : (s.update id guard f).1 ≠ s) :
    ∃ i, s.instances.get id = some i ∧ guard i := by
  unfold update at h
  split at h
  · exact absurd rfl h
  · rename_i i hi
    split_ifs at h with hg
    · exact ⟨i, hi, hg⟩
    · exact absurd rfl h

variable (name name' : String) (row : StepRow)

theorem get_setStep : ((s.setStep id name row).steps id').get name' =
    if id' = id ∧ name' = name then some row else (s.steps id').get name' := by
  unfold setStep
  by_cases hid : id' = id
  · subst hid
    simp [get_insert]
  · simp [hid]

variable (lease sig payloadJson : String) (outcome : StepOutcome) (durationMs nowMs : ℕ)

@[simp] theorem recordStep_frame :
    OnlySteps s (s.recordStep id name lease outcome nowMs).1 := by
  unfold recordStep
  split_ifs <;> exact ⟨rfl, rfl, rfl⟩

@[simp] theorem insertSleep_frame :
    OnlySteps s (s.insertSleep id name lease durationMs nowMs) := by
  unfold insertSleep
  split_ifs <;> exact ⟨rfl, rfl, rfl⟩

@[simp] theorem finishSleep_frame : OnlySteps s (s.finishSleep id name nowMs) := by
  unfold finishSleep
  split <;> exact ⟨rfl, rfl, rfl⟩

@[simp] theorem clearSteps_frame : OnlySteps s (s.clearSteps id) := by
  unfold clearSteps
  split_ifs <;> exact ⟨rfl, rfl, rfl⟩

@[simp] theorem deliverSignal_frame : OnlySignals s (s.deliverSignal sig id lease nowMs).1 := by
  unfold deliverSignal
  split
  · exact ⟨rfl, rfl, rfl⟩
  · split_ifs <;> exact ⟨rfl, rfl, rfl⟩

@[simp] theorem insertSignal_frame :
    OnlySignals s (s.insertSignal sig id name payloadJson nowMs).1 := by
  unfold insertSignal
  split_ifs <;> exact ⟨rfl, rfl, rfl⟩

end Frame

theorem runsUnder_iff {s : Ledger} {id lease : String} :
    s.runsUnder id lease ↔ ∃ i, s.instances.get id = some i ∧ i.runsUnder lease := by
  simp [runsUnder, Option.any_eq_true]

end Ledger

/-- The claim of a row in the group may go through. -/
def Ledger.hasRoom (s : Ledger) (maxRunning : ℕ) (group : Option String) (limit : ℕ) : Prop :=
  (maxRunning = 0 ∨ s.running none < maxRunning) ∧
    (group = none ∨ limit = 0 ∨ s.running group < limit)

/-- The statement ends the instance. -/
def Stmt.ends (c : Stmt) (id : String) (s : Ledger) : Bool :=
  match c with
  | .finish id' lease _ => id' = id && s.runsUnder id lease
  | .failTerminal id' lease _ => id' = id && s.runsUnder id lease
  | .terminate id' => id' = id && (s.instances.get id).any (!·.status.terminal)
  | _ => false

namespace Ledger

/-! ### What a statement does to a row -/

/-- What can become of an instance by a statement. -/
inductive Turned (s : Ledger) (id : String) (j i : Instance) : Stmt → Prop
  | same (c : Stmt) (h : i = j) : Turned s id j i c
  | claimed {lease nowMs maxRunning group limit} (h : s.hasRoom maxRunning group limit)
      (hrun : i.status = .running ∧ i.leaseToken = some lease) :
      Turned s id j i (.claim id lease nowMs maxRunning group limit)
  | renewed {lease} (hold : j.status = .running)
      (hrun : i.status = .running ∧ i.leaseToken = j.leaseToken) : Turned s id j i (.renew id lease)
  | parked {lease untilMs name} (h : i.status = .waiting ∧ i.waitingFor = some name) :
      Turned s id j i (.park id lease untilMs name)
  | ended (c : Stmt) (h : c.ends id s) (hend : i.status.terminal) : Turned s id j i c
  | freed (c : Stmt) (h : i.status = .queued ∨ i.status = .paused) : Turned s id j i c

theorem instance_exec {s : Ledger} {c : Stmt} {x : Env} {id : String} {i : Instance}
    (h : (exec c x s).1.instances.get id = some i) :
    ∃ j, s.instances.get id = some j ∧ i.concurrencyGroup = j.concurrencyGroup ∧
      i.concurrencyGroupLimit = j.concurrencyGroupLimit ∧ Turned s id j i c := by
  cases c
  case claim id' lease nowMs maxRunning group limit =>
    obtain ⟨j, hj, rfl | ⟨rfl, hg, rfl⟩⟩ := get_update_cases _ _ _ _ _ h
    · exact ⟨_, hj, rfl, rfl, .same _ rfl⟩
    · simp only [Bool.and_eq_true, Bool.or_eq_true, decide_eq_true_eq, or_assoc] at hg
      exact ⟨j, hj, rfl, rfl, .claimed ⟨hg.1.2, hg.2⟩ ⟨rfl, rfl⟩⟩
  case expireLeases nowMs =>
    simp only [exec, expireLeases, get_mapEntries] at h
    obtain ⟨j, hj, rfl⟩ := Option.map_eq_some_iff.1 h
    refine ⟨j, hj, ?_⟩
    split_ifs
    · exact ⟨rfl, rfl, .freed _ (.inl rfl)⟩
    · exact ⟨rfl, rfl, .same _ rfl⟩
  case clock | dueInstance | readInstance | validLease | readStep | firstSignal | execute | hand |
      recordStep | insertSleep | finishSleep | clearSteps | insertSignal | deliverSignal =>
    exact ⟨i, by simpa [exec] using h, rfl, rfl, .same _ rfl⟩
  all_goals
    obtain ⟨j, hj, rfl | ⟨rfl, hg, rfl⟩⟩ := get_update_cases _ _ _ _ _ h
    · exact ⟨_, hj, rfl, rfl, .same _ rfl⟩
    · refine ⟨j, hj, rfl, rfl, ?_⟩
      first
        | exact .freed _ (.inl rfl)
        | exact .freed _ (.inr rfl)
        | exact .parked ⟨rfl, rfl⟩
        | exact .renewed (by simp_all [Instance.runsUnder]) (by simp_all [Instance.runsUnder])
        | exact .ended _ (by simp [Stmt.ends, Ledger.runsUnder, hj, hg]) rfl

theorem step_exec (c : Stmt) (x : Env) (s : Ledger) (id name : String) :
    ((exec c x s).1.steps id).get name = (s.steps id).get name ∨
      (∃ lease outcome, c = .recordStep id name lease outcome ∧ s.runsUnder id lease ∧
        ((s.steps id).get name).all (·.status ≠ .ok)) ∨
      (∃ lease durationMs row, c = .insertSleep id name lease durationMs ∧ s.runsUnder id lease ∧
        (s.steps id).get name = none ∧ ((exec c x s).1.steps id).get name = some row ∧
        row.status = .slept) ∨
      (∃ row, (s.steps id).get name = some row ∧ ((exec c x s).1.steps id).get name =
        some { row with finishedAtMs := some x.nowMs }) ∨
      ∃ row, (s.steps id).get name = some row ∧ (row.status = .failed ∨ row.status = .pending) ∧
        ((exec c x s).1.steps id).get name = none := by
  cases c
  case recordStep id' name' lease outcome =>
    simp only [exec, recordStep]
    split_ifs with hg
    · rw [get_setStep]
      split_ifs with hid
      · obtain ⟨rfl, rfl⟩ := hid
        exact .inr (.inl ⟨lease, outcome, rfl, hg⟩)
      · exact .inl rfl
    · exact .inl rfl
  case insertSleep id' name' lease durationMs =>
    simp only [exec, insertSleep]
    split_ifs with hg
    · rw [get_setStep]
      split_ifs with hid
      · obtain ⟨rfl, rfl⟩ := hid
        exact .inr (.inr (.inl ⟨lease, durationMs, _, rfl, hg.1, hg.2, rfl, rfl⟩))
      · exact .inl rfl
    · exact .inl rfl
  case finishSleep id' name' lease =>
    simp only [exec, finishSleep]
    split
    · exact .inl rfl
    · rename_i row hrow
      rw [get_setStep]
      split_ifs with hid
      · obtain ⟨rfl, rfl⟩ := hid
        exact .inr (.inr (.inr (.inl ⟨row, hrow, rfl⟩)))
      · exact .inl rfl
  case clearSteps id' =>
    simp only [exec, clearSteps]
    split_ifs
    · by_cases hid : id = id'
      · subst hid
        simp only [Function.update_self, get_filter]
        cases hrow : (s.steps id).get name with
        | none => exact .inl rfl
        | some row =>
          by_cases hbad : row.status ≠ .failed ∧ row.status ≠ .pending
          · exact .inl (by simp [hbad])
          · exact .inr (.inr (.inr (.inr ⟨row, rfl, by tauto, by simpa using hbad⟩)))
      · exact .inl (by simp [hid])
    · exact .inl rfl
  all_goals exact .inl (by simp [exec, expireLeases])

theorem signal_exec (c : Stmt) (x : Env) (s : Ledger) (sig : String) :
    (exec c x s).1.signals.get sig = s.signals.get sig ∨
      (∃ id lease row, c = .deliverSignal sig id lease ∧ s.runsUnder id lease ∧
        s.signals.get sig = some row ∧ (exec c x s).1.signals.get sig =
          some { row with deliveredAtMs := some x.nowMs }) ∨
      ∃ id name payloadJson nowMs, c = .insertSignal sig id name payloadJson nowMs ∧
        s.signals.get sig = none ∧
        (exec c x s).1.signals.get sig = some (signalRow id name payloadJson nowMs) := by
  cases c
  case deliverSignal sig' id lease =>
    simp only [exec, deliverSignal]
    split
    · exact .inl rfl
    · rename_i row hrow
      split_ifs with hg
      · by_cases hsig : sig = sig'
        · subst hsig
          exact .inr (.inl ⟨id, lease, row, rfl, hg.2, hrow, by simp⟩)
        · exact .inl (by simp [get_insert, hsig])
      · exact .inl rfl
  case insertSignal sig' id name payloadJson nowMs =>
    simp only [exec, insertSignal]
    split_ifs with hg
    · by_cases hsig : sig = sig'
      · subst hsig
        exact .inr (.inr ⟨id, name, payloadJson, nowMs, rfl, hg.2, by simp⟩)
      · exact .inl (by simp [get_insert, hsig])
    · exact .inl rfl
  all_goals exact .inl (by simp [exec, expireLeases])

end Ledger

end Workflow

end RandallFlare
