import RandallFlare.Workflow.Ledger

/-!
# Calls on a workflow

The functions of `workflow.rs` on an instance, statement by statement, and the step interface that
the runtime gives to the code of a workflow.

* `claimOne`, `renew`, `finish`, `failTerminal`, `failSystem`: how a runner takes an instance and
  gives it back;
* `stepLookup`, `stepRecord`, `stepSleep`, `stepSignal`: the steps, as the Worker asks for them;
* `sendSignal`, `pause`, `resume`, `terminate`, `restart`: calls from outside;
* `Call`, `calls`: any number of these calls at work;
* `StepCall`, `interpret`, `advance`: a workflow as a program over the step interface, and what a
  runner does with it from the claim to the end of the advance;
* `Task`, `engine`: any number of runners, and calls from outside.

An error of a statement ends the call, as the death of its process does.
-/

namespace RandallFlare

namespace Workflow

open Programs Prog

abbrev WorkflowProg := Prog Stmt Stmt.Ans

def sql (c : Stmt) : WorkflowProg c.Ans := call c

def maxResultBytes : ℕ := 4 * 1024 * 1024

def truncateError (error : String) : String := String.ofList (error.toList.take 4000)

def lostLease : String := "Workflow 推进租约已失效"

/-- `validate_step_name`. -/
def validStepName (name : String) : Bool :=
  !(name.isEmpty || 256 < name.utf8ByteSize ||
    name.toList.any fun c => c.toNat < 32 || c.toNat = 127)

def badName : String := "Workflow 步骤或信号名称必须介于 1 和 256 个字符之间"

/-! ### Runners -/

/-- Requeue what has expired, then claim the instance that is due first under the token `lease`. -/
def claimOne (lease : String) (maxRunning : ℕ) :
    WorkflowProg (Except String (Option (String × Instance))) := do
  let nowMs ← sql .clock
  sql (.expireLeases nowMs)
  let candidate ← sql (.dueInstance nowMs)
  match candidate with
  | none => pure (.ok none)
  | some (id, i) =>
    let claimed ← sql
      (.claim id lease nowMs maxRunning i.concurrencyGroup i.concurrencyGroupLimit)
    if claimed = 1 then
      let found ← sql (.readInstance id)
      match found with
      | none => pure (.error "已认领的 Workflow 实例不可见")
      | some i => pure (.ok (some (id, i)))
    else pure (.ok none)

def renew (id lease : String) : WorkflowProg Bool := do
  let changed ← sql (.renew id lease)
  pure (changed = 1)

def finish (id lease outputJson : String) : WorkflowProg (Except String Unit) :=
  if maxResultBytes < outputJson.utf8ByteSize then pure (.error "Workflow 输出不得超过 4 MiB")
  else do
    let _ ← sql (.finish id lease outputJson)
    pure (.ok ())

def failTerminal (id lease error : String) : WorkflowProg (Except String Unit) := do
  let _ ← sql (.failTerminal id lease (truncateError error))
  pure (.ok ())

/-- Try again later, or fail once the retries are used up. -/
def failSystem (maxRetries : ℕ) (id lease error : String) :
    WorkflowProg (Except String Unit) := do
  let current ← sql (.readInstance id)
  match current with
  | none => pure (.error "Workflow 实例不存在")
  | some i =>
    if i.retryCount < maxRetries then
      let _ ← sql (.systemRetry id lease (i.retryCount + 1) (truncateError error))
      pure (.ok ())
    else failTerminal id lease (truncateError error)

/-! ### Steps -/

/-- The name is well formed and the lease is held. -/
def validateStepRequest (id lease name : String) : WorkflowProg (Except String Unit) :=
  if validStepName name then do
    let valid ← sql (.validLease id lease)
    if valid then pure (.ok ()) else pure (.error lostLease)
  else pure (.error badName)

/-- What a replay finds of a step. -/
inductive Lookup
  | cached (resultJson : String)
  | alreadyFailed (error : String)
  | absent
  deriving DecidableEq

/-- What a row says to a replay. -/
def lookupOf : Option StepRow → Lookup
  | none => .absent
  | some row =>
    match row.status with
    | .ok => .cached (row.resultJson.getD "null")
    | .failed => .alreadyFailed (row.error.getD "未知步骤错误")
    | _ => .absent

def stepLookup (id lease name : String) : WorkflowProg (Except String Lookup) := do
  let valid ← validateStepRequest id lease name
  match valid with
  | .error e => pure (.error e)
  | .ok _ =>
    let row ← sql (.readStep id name)
    pure (.ok (lookupOf row))

/-- The row a record left is the one asked for: the answer of an earlier record was lost. -/
def sameOutcome (row : StepRow) (outcome : StepOutcome) : Bool :=
  row.status = outcome.status ∧ row.resultJson = outcome.resultJson ∧ row.error = outcome.error

/-- The outcome as it is written. -/
def StepOutcome.truncated (outcome : StepOutcome) : StepOutcome :=
  { outcome with error := outcome.error.map truncateError }

def stepRecord (id lease name : String) (outcome : StepOutcome) :
    WorkflowProg (Except String Unit) := do
  let valid ← validateStepRequest id lease name
  match valid with
  | .error e => pure (.error e)
  | .ok _ =>
    if outcome.status ≠ .ok ∧ outcome.status ≠ .failed then pure (.error "Workflow 步骤状态无效")
    else if outcome.resultJson.any (maxResultBytes < ·.utf8ByteSize) then
      pure (.error "Workflow 步骤结果不得超过 4 MiB")
    else
      let affected ← sql (.recordStep id name lease outcome.truncated)
      if affected = 0 then
        let existing ← sql (.readStep id name)
        if existing.any (sameOutcome · outcome.truncated) then pure (.ok ())
        else pure (.error "Workflow 推进租约已失效，或步骤名称已被其他结果占用")
      else pure (.ok ())

/-- A sleep is over, or the instance is parked until it is. -/
inductive Slept
  | wake
  | sleep (wakeAtMs : ℕ)
  deriving DecidableEq

def stepSleep (id lease name : String) (durationMs : ℕ) :
    WorkflowProg (Except String Slept) := do
  let valid ← validateStepRequest id lease name
  match valid with
  | .error e => pure (.error e)
  | .ok _ =>
    sql (.insertSleep id name lease durationMs)
    let found ← sql (.readStep id name)
    match found with
    | none => pure (.error lostLease)
    | some row =>
      if row.kind ≠ .sleep ∨ row.status ≠ .slept then
        pure (.error "Workflow 步骤名称已被其他类型占用")
      else
        match row.wakeAtMs with
        | none => pure (.error "睡眠步骤缺少唤醒时间")
        | some wakeAtMs =>
          let nowMs ← sql .clock
          if wakeAtMs ≤ nowMs then
            sql (.finishSleep id name lease)
            pure (.ok .wake)
          else
            let parked ← sql (.park id lease (some wakeAtMs) name)
            if parked = 1 then pure (.ok (.sleep wakeAtMs)) else pure (.error lostLease)

/-- A signal was delivered, or the instance is parked until one comes. -/
inductive Signalled
  | delivered (payloadJson : String)
  | wait
  deriving DecidableEq

/-- Park for a signal, and look again for one that came before the park. -/
def parkForSignal (id lease name : String) : WorkflowProg (Except String Signalled) := do
  let parked ← sql (.park id lease none name)
  if parked = 1 then
    let _ ← sql (.wakeParked id name)
    pure (.ok .wait)
  else pure (.error lostLease)

/-- The loop of `step_signal`; `fuel` bounds how often another call may be faster. -/
def signalLoop (id lease name : String) : ℕ → WorkflowProg (Except String Signalled)
  | 0 => pure (.error lostLease)
  | fuel + 1 => do
    let found ← sql (.firstSignal id name)
    match found with
    | none => parkForSignal id lease name
    | some (sig, row) =>
      let delivered ← sql (.deliverSignal sig id lease)
      if delivered = 0 then
        let valid ← validateStepRequest id lease name
        match valid with
        | .error e => pure (.error e)
        | .ok _ => signalLoop id lease name fuel
      else pure (.ok (.delivered row.payloadJson))

def stepSignal (id lease name : String) (fuel : ℕ) :
    WorkflowProg (Except String Signalled) := do
  let valid ← validateStepRequest id lease name
  match valid with
  | .error e => pure (.error e)
  | .ok _ => signalLoop id lease name fuel

/-! ### Calls from outside -/

/-- Send a signal under the new id `sig`, and wake an instance that waits for it. -/
def sendSignal (sig id name payloadJson : String) : WorkflowProg (Except String Unit) :=
  if validStepName name then
    if maxResultBytes < payloadJson.utf8ByteSize then pure (.error "Workflow 信号不得超过 4 MiB")
    else do
      let found ← sql (.readInstance id)
      match found with
      | none => pure (.error "Workflow 实例不存在")
      | some i =>
        if i.status.terminal then pure (.error "终态 Workflow 实例不能接收信号")
        else
          let nowMs ← sql .clock
          let inserted ← sql (.insertSignal sig id name payloadJson nowMs)
          if inserted = 1 then
            sql (.wakeWaiting id name nowMs)
            pure (.ok ())
          else pure (.error "Workflow 实例不存在或已进入终态")
  else pure (.error badName)

/-- Forget failed and unfinished steps of an ended instance, then queue it. -/
def restart (id : String) : WorkflowProg Bool := do
  let nowMs ← sql .clock
  sql (.clearSteps id)
  let changed ← sql (.restart id nowMs)
  pure (changed = 1)

/-- Calls at work on the instances of a workflow, each naming whatever lease it was given. -/
inductive Call
  | claimOne (maxRunning : ℕ)
  | renew (id lease : String)
  | stepRecord (id lease name : String) (outcome : StepOutcome)
  | stepSleep (id lease name : String) (durationMs : ℕ)
  | stepSignal (id lease name : String) (fuel : ℕ)
  | finish (id lease outputJson : String)
  | failTerminal (id lease error : String)
  | failSystem (maxRetries : ℕ) (id lease error : String)
  | pause (id : String)
  | resume (id : String)
  | terminate (id : String)
  | restart (id : String)
  | sendSignal (id name payloadJson : String)

/-- Run a call for what it does. -/
def forget {α : Type} (p : WorkflowProg α) : WorkflowProg Unit := p.bind fun _ => .ret ()

/-- The program of a call; the new ids it draws (a lease token, the id of a signal) are the name of
its process, so that no two calls draw the same. -/
def Call.body (pid : String) : Call → WorkflowProg Unit
  | .claimOne maxRunning => forget (Workflow.claimOne pid maxRunning)
  | .renew id lease => forget (Workflow.renew id lease)
  | .stepRecord id lease name outcome => forget (Workflow.stepRecord id lease name outcome)
  | .stepSleep id lease name durationMs => forget (Workflow.stepSleep id lease name durationMs)
  | .stepSignal id lease name fuel => forget (Workflow.stepSignal id lease name fuel)
  | .finish id lease outputJson => forget (Workflow.finish id lease outputJson)
  | .failTerminal id lease error => forget (Workflow.failTerminal id lease error)
  | .failSystem maxRetries id lease error => forget (Workflow.failSystem maxRetries id lease error)
  | .pause id => forget (sql (.pause id))
  | .resume id => forget (sql (.resume id))
  | .terminate id => forget (sql (.terminate id))
  | .restart id => forget (Workflow.restart id)
  | .sendSignal id name payloadJson => forget (Workflow.sendSignal pid id name payloadJson)

/-- Calls on a workflow at work. -/
def calls : Machine Ledger String Call Env Stmt Stmt.Ans Unit := ⟨Ledger.exec, Call.body⟩

abbrev CallPool := Pool Ledger String Call Stmt Stmt.Ans Unit

abbrev CallEvent := Programs.Event String Call Env

/-! ### The runtime -/

/-- What a step can throw at the code of a workflow: an error, or the mark that the instance is
parked.  The code may catch either. -/
inductive Thrown
  | error (message : String)
  | parked
  deriving DecidableEq

/-- What the code of a workflow can ask of its runtime. -/
inductive StepCall
  | run (name : String) (retries : ℕ)
  | sleep (name : String) (durationMs : ℕ)
  | waitForSignal (name : String)

/-- What it gets: the result of a step, nothing, or the payload of a signal. -/
@[reducible] def StepCall.Ans : StepCall → Type
  | .run _ _ => Except Thrown String
  | .sleep _ _ => Except Thrown Unit
  | .waitForSignal _ => Except Thrown String

/-- A deterministic workflow: its calls and its output depend on the answers alone. -/
abbrev Script := Prog StepCall StepCall.Ans (Except Thrown String)

inductive AdvanceResponse
  | complete (outputJson : String)
  | parked
  | failed (error : String)
  deriving DecidableEq

/-- What the Worker throws when the node refuses a step. -/
def refused (e : String) : Thrown := .error ("WORKFLOW_STEP_ERROR: 422 " ++ e)

/-- Run the code of a step until it gives a result or may not be tried again, and count the
attempts. -/
def runAttempts (id name : String) : ℕ → ℕ → WorkflowProg (Execution × ℕ)
  | 0, attempt => do
    let execution ← sql (.execute id name)
    pure (execution, attempt + 1)
  | retries + 1, attempt => do
    let execution ← sql (.execute id name)
    match execution with
    | .error _ true => runAttempts id name retries (attempt + 1)
    | ended => pure (ended, attempt + 1)

/-- A result as the node gets it: `null` reads as no result. -/
def resultOf (json : String) : Option String := if json = "null" then none else some json

/-- Write down the end of a step. -/
def recordEnd (id lease name : String) : Execution × ℕ → WorkflowProg (Except Thrown String)
  | (.result json, attempts) => do
    let stored ← stepRecord id lease name ⟨.ok, resultOf json, none, attempts⟩
    match stored with
    | .error e => pure (.error (refused e))
    | .ok _ =>
      sql (.hand ⟨id, false, name, json⟩)
      pure (.ok json)
  | (.error message _, attempts) => do
    let stored ← stepRecord id lease name ⟨.failed, none, some message, attempts⟩
    match stored with
    | .error e => pure (.error (refused e))
    | .ok _ => pure (.error (.error message))
  | (.unserializable, _) => pure (.error (.error "step.do() result must be JSON serializable"))

/-- `step.do`: what an earlier replay recorded, or a run of the code. -/
def runStep (id lease name : String) (retries : ℕ) : WorkflowProg (Except Thrown String) := do
  let found ← stepLookup id lease name
  match found with
  | .error e => pure (.error (refused e))
  | .ok (.cached json) =>
    sql (.hand ⟨id, false, name, json⟩)
    pure (.ok json)
  | .ok (.alreadyFailed e) =>
    pure (.error (.error ("step \"" ++ name ++ "\" already failed: " ++ e)))
  | .ok .absent =>
    let ended ← runAttempts id name retries 0
    recordEnd id lease name ended

/-- `step.sleep`. -/
def sleepStep (id lease name : String) (durationMs : ℕ) :
    WorkflowProg (Except Thrown Unit) := do
  let slept ← stepSleep id lease name durationMs
  match slept with
  | .error e => pure (.error (refused e))
  | .ok .wake => pure (.ok ())
  | .ok (.sleep _) => pure (.error .parked)

/-- `step.waitForSignal`. -/
def waitForSignal (id lease name : String) (fuel : ℕ) :
    WorkflowProg (Except Thrown String) := do
  let signalled ← stepSignal id lease name fuel
  match signalled with
  | .error e => pure (.error (refused e))
  | .ok (.delivered json) =>
    sql (.hand ⟨id, true, name, json⟩)
    pure (.ok json)
  | .ok .wait => pure (.error .parked)

/-- The step interface of an advance. -/
def answer (id lease : String) (fuel : ℕ) : (c : StepCall) → WorkflowProg c.Ans
  | .run name retries => runStep id lease name retries
  | .sleep name durationMs => sleepStep id lease name durationMs
  | .waitForSignal name => waitForSignal id lease name fuel

/-- What the Worker answers for the end of the workflow's code. -/
def responseOf : Except Thrown String → AdvanceResponse
  | .ok output => .complete output
  | .error .parked => .parked
  | .error (.error message) => .failed message

/-- One advance of a workflow: its code from the start, each call answered by the ledger. -/
def interpret (id lease : String) (fuel : ℕ) : Script → WorkflowProg AdvanceResponse
  | .ret output => pure (responseOf output)
  | .cmd c next => (answer id lease fuel c).bind fun a => interpret id lease fuel (next a)

/-- What the node does with the answer of an advance. -/
def settle (id lease : String) (retries : ℕ) : AdvanceResponse → WorkflowProg Unit
  | .complete output => forget (finish id lease output)
  | .failed e => forget (failTerminal id lease e)
  | .parked => do
    let current ← sql (.readInstance id)
    if current.any (·.status = .running) then
      forget (failSystem retries id lease "Workflow 返回 parked，但没有持久化等待边界")
    else pure ()

/-- Claim an instance, run the workflow's code for it, and settle the answer. -/
def advance (lease : String) (script : String → Script) (maxRunning fuel : ℕ) :
    WorkflowProg Unit := do
  let claimed ← claimOne lease maxRunning
  match claimed with
  | .ok (some (id, i)) =>
    let response ← interpret id lease fuel (script id)
    settle id lease i.instanceRetries response
  | _ => pure ()

/-- Runners, heartbeats and calls from outside. -/
inductive Task
  | advance (maxRunning fuel : ℕ)
  | renew (id lease : String)
  | failSystem (maxRetries : ℕ) (id lease error : String)
  | pause (id : String)
  | resume (id : String)
  | terminate (id : String)
  | restart (id : String)
  | sendSignal (id name payloadJson : String)

/-- The program of a task; `script` is the workflow's code with the input of each instance. -/
def Task.body (script : String → Script) (pid : String) : Task → WorkflowProg Unit
  | .advance maxRunning fuel => Workflow.advance pid script maxRunning fuel
  | .renew id lease => forget (Workflow.renew id lease)
  | .failSystem maxRetries id lease error => forget (Workflow.failSystem maxRetries id lease error)
  | .pause id => forget (sql (.pause id))
  | .resume id => forget (sql (.resume id))
  | .terminate id => forget (sql (.terminate id))
  | .restart id => forget (Workflow.restart id)
  | .sendSignal id name payloadJson => forget (Workflow.sendSignal pid id name payloadJson)

/-- Runners of a workflow at work. -/
def engine (script : String → Script) : Machine Ledger String Task Env Stmt Stmt.Ans Unit :=
  ⟨Ledger.exec, Task.body script⟩

abbrev EnginePool := Pool Ledger String Task Stmt Stmt.Ans Unit

abbrev TaskEvent := Programs.Event String Task Env

/-! ### The statements a call can issue -/

/-- The kinds of statements that a call issues. -/
def Call.issues : Call → Stmt → Bool
  | .claimOne .., .clock | .claimOne .., .expireLeases .. | .claimOne .., .dueInstance ..
  | .claimOne .., .claim .. | .claimOne .., .readInstance .. | .renew .., .renew ..
  | .stepRecord .., .validLease .. | .stepRecord .., .recordStep .. | .stepRecord .., .readStep ..
  | .stepSleep .., .clock | .stepSleep .., .validLease .. | .stepSleep .., .insertSleep ..
  | .stepSleep .., .readStep .. | .stepSleep .., .finishSleep ..
  | .stepSleep .., .park _ _ (some _) _ | .stepSignal .., .validLease ..
  | .stepSignal .., .firstSignal .. | .stepSignal .., .park _ _ none _
  | .stepSignal .., .wakeParked .. | .stepSignal .., .deliverSignal .. | .finish .., .finish ..
  | .failTerminal .., .failTerminal .. | .failSystem .., .readInstance ..
  | .failSystem .., .systemRetry .. | .failSystem .., .failTerminal .. | .pause .., .pause ..
  | .resume .., .resume .. | .terminate .., .terminate .. | .restart .., .clock
  | .restart .., .clearSteps .. | .restart .., .restart .. | .sendSignal .., .clock
  | .sendSignal .., .readInstance .. | .sendSignal .., .insertSignal ..
  | .sendSignal .., .wakeWaiting .. => true
  | _, _ => false

section Issued

variable {P : Stmt → Prop} {id lease name : String} {error : String}

theorem all_forget {α : Type} {p : WorkflowProg α} (h : p.All P) : (forget p).All P :=
  h.bind fun _ => trivial

theorem all_validateStepRequest (h : P (.validLease id lease)) :
    (validateStepRequest id lease name).All P := by
  unfold validateStepRequest
  split_ifs
  · refine ⟨h, fun valid => ?_⟩
    simp only [ret_bind]
    split_ifs <;> trivial
  · trivial

theorem all_claimOne {maxRunning : ℕ} (h : P .clock) (h₁ : ∀ nowMs, P (.expireLeases nowMs))
    (h₂ : ∀ nowMs, P (.dueInstance nowMs))
    (h₃ : ∀ id nowMs group limit, P (.claim id lease nowMs maxRunning group limit))
    (h₄ : ∀ id, P (.readInstance id)) : (claimOne lease maxRunning).All P := by
  refine ⟨h, fun nowMs => ⟨h₁ nowMs, fun _ => ⟨h₂ nowMs, fun candidate => ?_⟩⟩⟩
  simp only [ret_bind]
  split
  · trivial
  · refine ⟨h₃ _ _ _ _, fun claimed => ?_⟩
    simp only [ret_bind]
    split_ifs
    · refine ⟨h₄ _, fun found => ?_⟩
      simp only [ret_bind]
      split <;> trivial
    · trivial

theorem all_failTerminal (h : ∀ e, P (.failTerminal id lease e)) :
    (failTerminal id lease error).All P :=
  ⟨h _, fun _ => trivial⟩

theorem all_failSystem {maxRetries : ℕ}
    (h : ∀ c, (Call.failSystem maxRetries id lease error).issues c → P c) :
    (failSystem maxRetries id lease error).All P := by
  refine ⟨h _ rfl, fun current => ?_⟩
  simp only [ret_bind]
  split
  · trivial
  · split_ifs
    · exact ⟨h _ rfl, fun _ => trivial⟩
    · exact all_failTerminal fun _ => h _ rfl

theorem all_finish {outputJson : String} (h : P (.finish id lease outputJson)) :
    (finish id lease outputJson).All P := by
  unfold finish
  split_ifs
  · trivial
  · exact ⟨h, fun _ => trivial⟩

theorem all_stepRecord {outcome : StepOutcome}
    (h : ∀ c, (Call.stepRecord id lease name outcome).issues c → P c) :
    (stepRecord id lease name outcome).All P := by
  refine (all_validateStepRequest (h _ rfl)).bind fun valid => ?_
  split
  · trivial
  · split_ifs
    · trivial
    · trivial
    · refine ⟨h _ rfl, fun affected => ?_⟩
      simp only [ret_bind]
      split_ifs
      · refine ⟨h _ rfl, fun existing => ?_⟩
        simp only [ret_bind]
        split_ifs <;> trivial
      · trivial

theorem all_stepSleep {durationMs : ℕ}
    (h : ∀ c, (Call.stepSleep id lease name durationMs).issues c → P c) :
    (stepSleep id lease name durationMs).All P := by
  refine (all_validateStepRequest (h _ rfl)).bind fun valid => ?_
  split
  · trivial
  · refine ⟨h _ rfl, fun _ => ⟨h _ rfl, fun found => ?_⟩⟩
    simp only [ret_bind]
    split
    · trivial
    · split_ifs
      · trivial
      · split
        · trivial
        · refine ⟨h _ rfl, fun nowMs => ?_⟩
          simp only [ret_bind]
          split_ifs
          · exact ⟨h _ rfl, fun _ => trivial⟩
          · refine ⟨h _ rfl, fun parked => ?_⟩
            simp only [ret_bind]
            split_ifs <;> trivial

theorem all_signalLoop {n : ℕ} (h : ∀ c, (Call.stepSignal id lease name n).issues c → P c)
    (fuel : ℕ) : (signalLoop id lease name fuel).All P := by
  induction fuel with
  | zero => trivial
  | succ fuel ih =>
    refine ⟨h _ rfl, fun found => ?_⟩
    simp only [ret_bind]
    split
    · refine ⟨h _ rfl, fun parked => ?_⟩
      simp only [ret_bind]
      split_ifs
      · exact ⟨h _ rfl, fun _ => trivial⟩
      · trivial
    · refine ⟨h _ rfl, fun delivered => ?_⟩
      simp only [ret_bind]
      split_ifs
      · refine (all_validateStepRequest (h _ rfl)).bind fun valid => ?_
        split
        · trivial
        · exact ih
      · trivial

theorem all_sendSignal {sig payloadJson : String}
    (h : ∀ c, (Call.sendSignal id name payloadJson).issues c → P c) :
    (sendSignal sig id name payloadJson).All P := by
  unfold sendSignal
  split_ifs
  · trivial
  · refine ⟨h _ rfl, fun found => ?_⟩
    simp only [ret_bind]
    split
    · trivial
    · split_ifs
      · trivial
      · refine ⟨h _ rfl, fun nowMs => ⟨h _ rfl, fun inserted => ?_⟩⟩
        simp only [ret_bind]
        split_ifs
        · exact ⟨h _ rfl, fun _ => trivial⟩
        · trivial
  · trivial

end Issued

/-- A call issues statements of its kinds only. -/
theorem all_body (pid : String) (r : Call) {P : Stmt → Prop} (h : ∀ c, r.issues c → P c) :
    (r.body pid).All P := by
  cases r with
  | claimOne => exact all_forget (all_claimOne (h _ rfl) (fun _ => h _ rfl) (fun _ => h _ rfl)
      (fun _ _ _ _ => h _ rfl) fun _ => h _ rfl)
  | stepRecord => exact all_forget (all_stepRecord h)
  | stepSleep => exact all_forget (all_stepSleep h)
  | stepSignal =>
    refine all_forget ((all_validateStepRequest (h _ rfl)).bind fun valid => ?_)
    split
    · trivial
    · exact all_signalLoop h _
  | finish => exact all_forget (all_finish (h _ rfl))
  | failTerminal => exact all_forget (all_failTerminal fun _ => h _ rfl)
  | failSystem => exact all_forget (all_failSystem h)
  | restart => exact ⟨h _ rfl, fun _ => ⟨h _ rfl, fun _ => ⟨h _ rfl, fun _ => trivial⟩⟩⟩
  | sendSignal => exact all_forget (all_sendSignal h)
  | _ => exact ⟨h _ rfl, fun _ => trivial⟩

end Workflow

end RandallFlare
