import Mathlib.Data.List.Sort
import RandallFlare.Flow.Graph
import RandallFlare.Lib.Programs

/-!
# The ledger of a flow

A flow keeps its runs and the log of their steps in a D1 database of its own.  A driver holds a run
by a lease token written on its row, and each statement is one command of D1.

* `FlowRun`, `StepRow`, `Ledger`: the tables; the steps of a run are listed in the order of their
  `seq`, in which they are read and in which each new one comes last;
* `Stmt`, `Ledger.exec`: the statements of `flow.rs` and what each does;
* `Ledger.run_exec`, `Ledger.steps_exec`: what can become of a run and of its log by a statement.

Times of steps, run keys and the audit events are left out.
-/

namespace RandallFlare

open SortedMap

namespace Flow

inductive RunStatus
  | queued | running | complete | failed | cancelled
  deriving DecidableEq

/-- A row of `flow_runs`. -/
structure FlowRun where
  graph : FlowGraph
  input : Value
  status : RunStatus := .queued
  output : Option Value := none
  error : Option String := none
  leaseToken : Option String := none
  leaseUntilMs : Option ℕ := none
  dueAtMs : ℕ
  createdAtMs : ℕ

/-- A row of `flow_steps`; a step outside a loop has the iteration 0. -/
structure StepRow where
  nodeId : String
  nodeType : String
  iteration : ℕ
  status : StepStatus
  routeStatus : RouteStatus
  taken : Option String
  input : Value
  output : Value
  error : Option String

def stepRow (n : FlowNode) (iteration : ℕ) (input : Value) (r : ExecResult) : StepRow where
  nodeId := n.id
  nodeType := n.nodeType
  iteration := iteration
  status := r.status
  routeStatus := r.routeStatus
  taken := r.taken
  input := input
  output := r.output
  error := r.error

def StepRow.state (row : StepRow) : StepState := ⟨row.routeStatus, row.output, row.taken⟩

/-- The D1 database of a flow; the steps are given for each run. -/
structure Ledger where
  runs : SortedMap String FlowRun
  steps : String → List StepRow

def leaseMs : ℕ := 5 * 60 * 1000

/-- The statements of those who start and cancel runs and of drivers, and the clock. -/
inductive Stmt
  | clock
  | insertRun (id : String) (graph : FlowGraph) (input : Value) (nowMs maxRuns : ℕ)
  | cancel (id : String)
  | recover (nowMs : ℕ)
  | candidate (nowMs : ℕ)
  | claim (id lease : String) (nowMs : ℕ)
  | readRun (id lease : String)
  | readSteps (id : String)
  | insertStep (id lease : String) (row : StepRow)
  | renew (id lease : String)
  | requeue (id lease : String)
  | fail (id lease error : String)
  | complete (id lease : String) (output : Value)

@[reducible] def Stmt.Ans : Stmt → Type
  | .clock => ℕ
  | .candidate _ => Option String
  | .readRun _ _ => Option FlowRun
  | .readSteps _ => List StepRow
  | .recover _ => Unit
  | .renew _ _ => Unit
  | .requeue _ _ => Unit
  | _ => ℕ

/-- What the environment adds to a statement: the clock of the node. -/
structure Env where
  nowMs : ℕ := 0

namespace FlowRun

/-- The row a driver leaves that gives its lease back. -/
def release (r : FlowRun) (status : RunStatus) : FlowRun :=
  { r with status := status, leaseToken := none, leaseUntilMs := none }

/-- `status='running' AND lease_until_ms<?`. -/
def expired (r : FlowRun) (nowMs : ℕ) : Bool :=
  r.status = .running && r.leaseUntilMs.any (· < nowMs)

/-- `status IN ('queued','running')`. -/
def active (r : FlowRun) : Bool := r.status = .queued ∨ r.status = .running

end FlowRun

namespace Ledger

/-- Nothing has been started. -/
def empty : Ledger := ⟨SortedMap.empty, fun _ => []⟩

/-- `UPDATE flow_runs … WHERE id=? AND …`, and the number of rows it changed. -/
def update (s : Ledger) (id : String) (guard : FlowRun → Bool) (f : FlowRun → FlowRun) :
    Ledger × ℕ :=
  match s.runs.get id with
  | none => (s, 0)
  | some r => if guard r then ({ s with runs := s.runs.insert id (f r) }, 1) else (s, 0)

/-- The run is held under the lease and runs. -/
def leased (s : Ledger) (id lease : String) : Bool :=
  (s.runs.get id).any fun r => r.status = .running ∧ r.leaseToken = some lease

/-- `ORDER BY due_at_ms,created_at_ms LIMIT 1` among the queued runs that are due. -/
def candidate (s : Ledger) (nowMs : ℕ) : Option String :=
  (((s.runs.entries.filter fun p => p.2.status = .queued ∧ p.2.dueAtMs ≤ nowMs).insertionSort
    fun p q => p.2.dueAtMs < q.2.dueAtMs ∨
      p.2.dueAtMs = q.2.dueAtMs ∧ p.2.createdAtMs ≤ q.2.createdAtMs).head?).map Prod.fst

/-- `INSERT OR IGNORE INTO flow_steps … WHERE EXISTS (…)`. -/
def insertStep (s : Ledger) (id lease : String) (row : StepRow) : Ledger × ℕ :=
  if s.leased id lease ∧
      ¬ (s.steps id).any fun old => old.nodeId = row.nodeId ∧ old.iteration = row.iteration then
    ({ s with steps := Function.update s.steps id (s.steps id ++ [row]) }, 1)
  else (s, 0)

def newRun (graph : FlowGraph) (input : Value) (nowMs : ℕ) : FlowRun :=
  { graph := graph, input := input, dueAtMs := nowMs, createdAtMs := nowMs }

/-- `INSERT OR IGNORE INTO flow_runs …` below the limit of active runs. -/
def insertRun (s : Ledger) (id : String) (graph : FlowGraph) (input : Value)
    (nowMs maxRuns : ℕ) : Ledger × ℕ :=
  if s.runs.get id = none ∧
      (maxRuns = 0 ∨ (s.runs.values.filter FlowRun.active).length < maxRuns) then
    ({ s with runs := s.runs.insert id (newRun graph input nowMs) }, 1)
  else (s, 0)

/-- Requeue every run whose lease has run out. -/
def recover (s : Ledger) (nowMs : ℕ) : Ledger :=
  { s with runs := s.runs.mapEntries fun _ r =>
      if r.expired nowMs then { r.release .queued with dueAtMs := nowMs } else r }

/-- What a statement does and answers. -/
def exec : (c : Stmt) → Env → Ledger → Ledger × c.Ans
  | .clock, x, s => (s, x.nowMs)
  | .insertRun id graph input nowMs maxRuns, _, s => s.insertRun id graph input nowMs maxRuns
  | .cancel id, _, s => s.update id FlowRun.active fun r => r.release .cancelled
  | .recover nowMs, _, s => (s.recover nowMs, ())
  | .candidate nowMs, _, s => (s, s.candidate nowMs)
  | .claim id lease nowMs, _, s =>
    s.update id (fun r => r.status = .queued && r.dueAtMs ≤ nowMs) fun r =>
      { r with
        status := .running
        leaseToken := some lease
        leaseUntilMs := some (nowMs + leaseMs) }
  | .readRun id lease, _, s => (s, (s.runs.get id).filter fun r => r.leaseToken = some lease)
  | .readSteps id, _, s => (s, s.steps id)
  | .insertStep id lease row, _, s => s.insertStep id lease row
  | .renew id lease, x, s =>
    ((s.update id (fun r => r.leaseToken = some lease) fun r =>
      { r with leaseUntilMs := some (x.nowMs + leaseMs) }).1, ())
  | .requeue id lease, x, s =>
    ((s.update id (fun r => r.leaseToken = some lease) fun r =>
      { r.release .queued with dueAtMs := x.nowMs }).1, ())
  | .fail id lease error, _, s =>
    s.update id (fun r => r.leaseToken = some lease) fun r =>
      { r.release .failed with error := some error }
  | .complete id lease output, _, s =>
    s.update id (fun r => r.leaseToken = some lease) fun r =>
      { r.release .complete with output := some output, error := none }

/-! ### What the operations leave -/

section Frame

variable (s : Ledger) (id id' : String) (guard : FlowRun → Bool) (f : FlowRun → FlowRun)

@[simp] theorem update_steps : (s.update id guard f).1.steps = s.steps := by
  unfold update
  split
  · rfl
  · split <;> rfl

/-- A row after an update is the row before it, or what the update made of that. -/
theorem get_update_cases {r : FlowRun} (h : (s.update id guard f).1.runs.get id' = some r) :
    ∃ q, s.runs.get id' = some q ∧ (r = q ∨ id = id' ∧ guard q ∧ r = f q) := by
  unfold update at h
  split at h
  · exact ⟨r, h, .inl rfl⟩
  · rename_i q hq
    split_ifs at h with hg
    · simp only [get_insert] at h
      split_ifs at h with hid
      · cases h
        exact ⟨q, hid ▸ hq, .inr ⟨hid.symm, hg, rfl⟩⟩
      · exact ⟨r, h, .inl rfl⟩
    · exact ⟨r, h, .inl rfl⟩

theorem get_update_eq_none : (s.update id guard f).1.runs.get id' = none ↔
    s.runs.get id' = none := by
  unfold update
  split
  · rfl
  · rename_i q hq
    split_ifs with hg
    · by_cases hid : id' = id
      · subst hid
        simp [hq]
      · simp [get_insert, hid]
    · rfl

end Frame

variable {s : Ledger}

theorem leased_iff {id lease : String} : s.leased id lease ↔
    ∃ r, s.runs.get id = some r ∧ r.status = .running ∧ r.leaseToken = some lease := by
  simp [leased, Option.any_eq_true]

theorem leased_unique {id lease lease' : String} (h : s.leased id lease)
    (h' : s.leased id lease') : lease = lease' := by
  obtain ⟨r, hr, -, hl⟩ := leased_iff.1 h
  obtain ⟨r', hr', -, hl'⟩ := leased_iff.1 h'
  cases hr.symm.trans hr'
  exact Option.some.inj (hl.symm.trans hl')

theorem insertStep_cases (s : Ledger) (id lease : String) (row : StepRow) :
    s.insertStep id lease row = (s, 0) ∨ s.leased id lease ∧ s.insertStep id lease row =
      ({ s with steps := Function.update s.steps id (s.steps id ++ [row]) }, 1) := by
  unfold insertStep
  split_ifs with h
  · exact .inr ⟨h.1, rfl⟩
  · exact .inl rfl

/-! ### What a statement does to a run -/

/-- What can become of a run by a statement. -/
inductive Turned (id : String) (q : FlowRun) : Stmt → FlowRun → Prop
  | same (c : Stmt) : Turned id q c q
  | claimed (lease : String) (nowMs : ℕ) (h : q.status = .queued) :
      Turned id q (.claim id lease nowMs) { q with
        status := .running, leaseToken := some lease, leaseUntilMs := some (nowMs + leaseMs) }
  | renewed (lease : String) (untilMs : ℕ) :
      Turned id q (.renew id lease) { q with leaseUntilMs := some untilMs }
  | cancelled : Turned id q (.cancel id) (q.release .cancelled)
  | recovered (nowMs : ℕ) (h : q.expired nowMs) :
      Turned id q (.recover nowMs) { q.release .queued with dueAtMs := nowMs }
  | requeued (lease : String) (dueAtMs : ℕ) (h : q.leaseToken = some lease) :
      Turned id q (.requeue id lease) { q.release .queued with dueAtMs := dueAtMs }
  | failed (lease error : String) (h : q.leaseToken = some lease) :
      Turned id q (.fail id lease error) { q.release .failed with error := some error }
  | completed (lease : String) (output : Value) (h : q.leaseToken = some lease) :
      Turned id q (.complete id lease output)
        { q.release .complete with output := some output, error := none }

theorem run_exec {c : Stmt} {x : Env} {id : String} {r : FlowRun}
    (h : (exec c x s).1.runs.get id = some r) :
    (∃ q, s.runs.get id = some q ∧ Turned id q c r) ∨ s.runs.get id = none ∧
      ∃ graph input nowMs maxRuns, c = .insertRun id graph input nowMs maxRuns ∧
        r = newRun graph input nowMs := by
  cases c
  case clock | candidate | readRun | readSteps => exact .inl ⟨r, h, .same _⟩
  case insertRun id' graph input nowMs maxRuns =>
    simp only [exec, insertRun] at h
    split_ifs at h with hg
    · simp only [get_insert] at h
      split_ifs at h with hid
      · cases h
        subst hid
        exact .inr ⟨hg.1, graph, input, nowMs, maxRuns, rfl, rfl⟩
      · exact .inl ⟨r, h, .same _⟩
    · exact .inl ⟨r, h, .same _⟩
  case recover nowMs =>
    simp only [exec, recover, get_mapEntries] at h
    obtain ⟨q, hq, rfl⟩ := Option.map_eq_some_iff.1 h
    refine .inl ⟨q, hq, ?_⟩
    split_ifs with hx
    · exact .recovered nowMs hx
    · exact .same _
  case insertStep id' lease row =>
    refine .inl ⟨r, ?_, .same _⟩
    obtain hsame | ⟨-, hsame⟩ := insertStep_cases s id' lease row <;>
      simpa only [exec, hsame] using h
  all_goals
    obtain ⟨q, hq, rfl | ⟨rfl, hg, rfl⟩⟩ := get_update_cases _ _ _ _ _ h
    · exact .inl ⟨_, hq, .same _⟩
    · refine .inl ⟨q, hq, ?_⟩
      first
        | exact .cancelled
        | exact .renewed _ _
        | exact .claimed _ _ (by simp_all)
        | exact .requeued _ _ (by simpa using hg)
        | exact .failed _ _ (by simpa using hg)
        | exact .completed _ _ (by simpa using hg)

theorem get_exec_eq_none {c : Stmt} {x : Env} {id : String}
    (h : (exec c x s).1.runs.get id = none) : s.runs.get id = none := by
  cases c
  case clock | candidate | readRun | readSteps => exact h
  case insertRun =>
    simp only [exec, insertRun] at h
    split_ifs at h
    · simp only [get_insert] at h
      split_ifs at h
      exact h
    · exact h
  case recover => simpa [exec, recover, get_mapEntries] using h
  case insertStep id' lease row =>
    obtain hsame | ⟨-, hsame⟩ := insertStep_cases s id' lease row <;>
      simpa only [exec, hsame] using h
  all_goals exact (get_update_eq_none _ _ _ _ _).1 h

theorem steps_exec (c : Stmt) (x : Env) (s : Ledger) (id : String) :
    (exec c x s).1.steps id = s.steps id ∨
      ∃ lease row, c = .insertStep id lease row ∧ s.leased id lease ∧
        (exec c x s).1.steps id = s.steps id ++ [row] := by
  cases c
  case insertStep id' lease row =>
    obtain hsame | ⟨hl, hsame⟩ := insertStep_cases s id' lease row
    · exact .inl (by simp only [exec, hsame])
    · by_cases hid : id = id'
      · subst hid
        exact .inr ⟨lease, row, rfl, hl, by simp [exec, hsame]⟩
      · exact .inl (by simp [exec, hsame, hid])
  case insertRun =>
    left
    simp only [exec, insertRun]
    split_ifs <;> rfl
  all_goals exact .inl (by simp [exec, recover])

end Ledger

end Flow

end RandallFlare
