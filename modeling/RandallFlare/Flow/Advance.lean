import RandallFlare.Flow.Ledger

/-!
# Drivers of a flow

A driver requeues runs whose lease has run out, claims one that is due and runs its nodes, one
after the other, writing a row for each before it goes on.

* `Turn`, `bodyTurn`, `nodeTurn`: what comes next, as far as it follows from what is known of the
  steps so far;
* `iterateBody`, `runIterations`, `executeLoop`: a loop node;
* `advanceNodes`, `advanceRun`, `drive`: a driver from the claim to the end of its lease;
* `Request`, `drivers`: any number of drivers at work, and of calls that start or cancel runs.

An error of a statement ends a driver, as the death of its process does.
-/

namespace RandallFlare

namespace Flow

open Programs Prog

abbrev FlowProg := Prog Stmt Stmt.Ans

def sql (c : Stmt) : FlowProg c.Ans := call c

def maxNodesPerAdvance : ℕ := 40

/-- What the rows of one iteration say, 0 being outside of loops. -/
def statesOf (rows : List StepRow) (p : StepRow → Bool) : States :=
  (rows.filter p).foldl (fun states row => states.insert row.nodeId row.state) SortedMap.empty

/-- The rows of the steps outside of loops. -/
def StepRow.isTop (row : StepRow) : Bool := row.iteration = 0

/-- The rows of an iteration of a loop. -/
def StepRow.isIn (body : List String) (iteration : ℕ) (row : StepRow) : Bool :=
  row.iteration = iteration ∧ row.nodeId ∈ body

/-- What comes next where a node is to run: a row to write before going on, a row to write before
ending with an error, or an error without a row; nothing if no node is ready. -/
inductive Turn
  | idle
  | write (node : FlowNode) (input : Value) (result : ExecResult)
  | stop (node : FlowNode) (input : Value) (result : ExecResult) (message : String)
  | error (message : String)

/-! ### Loops -/

/-- What a node in the body of a loop is given. -/
def bodyInput (n : FlowNode) (graph : FlowGraph) (item : Value) (states : States) (r : Ready) :
    Value :=
  if r.node.id ∈ loopEntries n.id graph ∨ r.incoming = [] then item
  else collectInput item r.live states

def bodyContext (n : FlowNode) (graph : FlowGraph) (context : ExecContext) (outer : States)
    (item : Value) (states : States) (input : Value) : ExecContext where
  input := input
  trigger := context.trigger
  nodes := nodeContext (bodyGraph n.id graph).nodes states
    (nodeContext graph.nodes outer SortedMap.empty)
  item := some item

/-- The result of a node that was run. -/
def resultOf (n : FlowNode) : Except String (Value × Option String) → ExecResult
  | .ok (output, taken) => successResult output taken
  | .error e => n.errorResult (safeError e)

/-- What comes of a node in the body of a loop that was run. -/
def ranTurn (E : Engine) (n : FlowNode) (iteration : ℕ) (input : Value)
    (executed : Except String (Value × Option String)) : Turn :=
  match executed, n.onError with
  | .error e, .stop => .stop n input (resultOf n executed)
      ("Flow loop 第 " ++ toString iteration ++ " 次迭代失败：" ++ safeError e)
  | _, _ =>
    if maxNodeResultBytes < E.size (resultOf n executed).output then
      .error "Flow loop 节点输出不得超过 4 MiB"
    else .write n input (resultOf n executed)

/-- Run a node in the body of a loop, where no loop may be. -/
def executeBody (E : Engine) (n : FlowNode) (iteration : ℕ) (context : ExecContext) :
    Except String (Value × Option String) :=
  if n.isLoop then .error "Flow 暂不允许嵌套 loop 节点" else E.execute n iteration context

/-- What comes next in an iteration of the loop `n`. -/
def bodyTurn (E : Engine) (graph : FlowGraph) (n : FlowNode) (context : ExecContext)
    (outer : States) (iteration : ℕ) (item : Value) (states : States) : Turn :=
  match ready (bodyGraph n.id graph).nodes (bodyGraph n.id graph).edges states with
  | none => .idle
  | some r =>
    if r.dead then .write r.node .null skippedResult
    else
      let input := bodyInput n graph item states r
      ranTurn E r.node iteration input
        (executeBody E r.node iteration (bodyContext n graph context outer item states input))

/-- Write the row of a step under the lease, or give the error `refused`. -/
def persistRow (refused id lease : String) (row : StepRow) : FlowProg (Except String Unit) := do
  let changed ← sql (.insertStep id lease row)
  if changed = 1 then
    sql (.renew id lease)
    pure (.ok ())
  else pure (.error refused)

def persistIterationStep : String → String → StepRow → FlowProg (Except String Unit) :=
  persistRow "Flow loop 步骤提交失败：租约可能已转移"

def persistStep : String → String → StepRow → FlowProg (Except String Unit) :=
  persistRow "Flow 步骤提交失败：租约可能已转移"

/-- Run the nodes of an iteration that are not done; each gives a fate to one more node of the
body, so that there are no more turns than nodes. -/
def iterateBody (id lease : String) (turn : States → Turn) (iteration : ℕ) :
    ℕ → States → FlowProg (Except String States)
  | 0, states => pure (.ok states)
  | fuel + 1, states =>
    match turn states with
    | .idle => pure (.ok states)
    | .error message => pure (.error message)
    | .stop node input result message => do
      let persisted ← persistIterationStep id lease (stepRow node iteration input result)
      match persisted with
      | .error e => pure (.error e)
      | .ok _ => pure (.error message)
    | .write node input result => do
      let persisted ← persistIterationStep id lease (stepRow node iteration input result)
      match persisted with
      | .error e => pure (.error e)
      | .ok _ => iterateBody id lease turn iteration fuel (states.insert node.id result.state)

/-- The output of an iteration that is done, or the error of one that cannot go on. -/
def iterationOutput (graph : FlowGraph) (n : FlowNode) (iteration : ℕ) (item : Value)
    (states : States) : Except String Value :=
  let body := bodyGraph n.id graph
  if states.entries.length ≠ body.nodes.length then
    .error ("Flow loop 第 " ++ toString iteration ++ " 次迭代的子图无法继续推进")
  else if body.nodes.isEmpty then .ok item
  else .ok (finalOutput body states)

/-- The iterations of a loop from one on, over the steps that were there when it began. -/
def runIterations (E : Engine) (id lease : String) (graph : FlowGraph) (n : FlowNode)
    (context : ExecContext) (outer : States) (persisted : List StepRow) :
    List Value → ℕ → List Value → FlowProg (Except String (List Value))
  | [], _, results => pure (.ok results)
  | item :: items, iteration, results => do
    let ended ← iterateBody id lease (bodyTurn E graph n context outer iteration item) iteration
      (bodyGraph n.id graph).nodes.length
      (statesOf persisted (StepRow.isIn (loopBody n.id graph) iteration))
    match ended with
    | .error e => pure (.error e)
    | .ok states =>
      match iterationOutput graph n iteration item states with
      | .error e => pure (.error e)
      | .ok output =>
        runIterations E id lease graph n context outer persisted items (iteration + 1)
          (results ++ [output])

/-- A loop node: its body for each item, and the outputs as an array. -/
def executeLoop (E : Engine) (id lease : String) (graph : FlowGraph) (n : FlowNode)
    (context : ExecContext) (outer : States) : FlowProg (Except String (Value × Option String)) :=
  match loopItems E n context with
  | .error e => pure (.error e)
  | .ok items => do
    let persisted ← sql (.readSteps id)
    let ended ← runIterations E id lease graph n context outer persisted items 1 []
    match ended with
    | .error e => pure (.error e)
    | .ok results => pure (.ok (.arr results, some "done"))

/-! ### Runs -/

/-- What a node outside of loops is given, in a run over `graph` with the input `root`. -/
def runContext (graph : FlowGraph) (root : Value) (states : States) (r : Ready) : ExecContext where
  input := collectInput root r.live states
  trigger := root
  nodes := nodeContext graph.nodes states SortedMap.empty
  item := none

/-- What comes of a node outside of loops that was run. -/
def nodeTurn (E : Engine) (n : FlowNode) (input : Value)
    (executed : Except String (Value × Option String)) : Turn :=
  match executed, n.onError with
  | .error e, .stop => .stop n input (resultOf n executed) (safeError e)
  | _, _ =>
    if maxNodeResultBytes < E.size (resultOf n executed).output then
      .stop n input (failedResult "Flow 节点输出不得超过 4 MiB") "Flow 节点输出不得超过 4 MiB"
    else .write n input (resultOf n executed)

def completeClaim (E : Engine) (id lease : String) (output : Value) :
    FlowProg (Except String Unit) :=
  if maxNodeResultBytes < E.size output then pure (.error "Flow 最终输出不得超过 4 MiB")
  else do
    let _ ← sql (.complete id lease output)
    pure (.ok ())

def stalled : String := "Flow 图无法继续推进；请检查节点依赖和路由条件"

/-- Write the row of a turn and go on, or fail the run. -/
def settleTurn (id lease : String) (states : States)
    (next : States → FlowProg (Except String Unit)) : Turn → FlowProg (Except String Unit)
  | .write node input result => do
    let persisted ← persistStep id lease (stepRow node 0 input result)
    match persisted with
    | .error e => pure (.error e)
    | .ok _ => next (states.insert node.id result.state)
  | .stop node input result message => do
    let persisted ← persistStep id lease (stepRow node 0 input result)
    match persisted with
    | .error e => pure (.error e)
    | .ok _ =>
      let _ ← sql (.fail id lease message)
      pure (.ok ())
  | _ => pure (.ok ())

/-- The loop of `advance_run`, for so many nodes as one lease may run. -/
def advanceNodes (E : Engine) (id lease : String) (graph : FlowGraph) (root : Value) :
    ℕ → States → FlowProg (Except String Unit)
  | 0, _ => do
    sql (.requeue id lease)
    pure (.ok ())
  | fuel + 1, states =>
    match ready graph.nodes graph.edges states with
    | none =>
      if states.entries.length ≠ graph.nodes.length then do
        let _ ← sql (.fail id lease stalled)
        pure (.ok ())
      else completeClaim E id lease (finalOutput graph states)
    | some r =>
      if r.dead then
        settleTurn id lease states (advanceNodes E id lease graph root fuel)
          (.write r.node .null skippedResult)
      else do
        let context := runContext graph root states r
        let executed ←
          if r.node.isLoop then executeLoop E id lease graph r.node context states
          else pure (E.execute r.node 0 context)
        settleTurn id lease states (advanceNodes E id lease graph root fuel)
          (nodeTurn E r.node context.input executed)

def advanceRun (E : Engine) (id lease : String) (run : FlowRun) :
    FlowProg (Except String Unit) := do
  let rows ← sql (.readSteps id)
  advanceNodes E id lease run.graph run.input maxNodesPerAdvance (statesOf rows StepRow.isTop)

/-- `claim_run` with the token `lease`. -/
def claimRun (E : Engine) (lease : String) :
    FlowProg (Except String (Option (String × FlowRun))) := do
  let nowMs ← sql .clock
  let candidate ← sql (.candidate nowMs)
  match candidate with
  | none => pure (.ok none)
  | some id =>
    let changed ← sql (.claim id lease nowMs)
    if changed = 1 then
      let found ← sql (.readRun id lease)
      match found with
      | none => pure (.error "Flow 租约成功后运行不可见")
      | some run => if E.accepts run.graph then pure (.ok (some (id, run))) else pure (.error "")
    else pure (.ok none)

def recoverExpired : FlowProg Unit := do
  let nowMs ← sql .clock
  sql (.recover nowMs)

/-- One round of a driver. -/
def drive (E : Engine) (lease : String) : FlowProg Unit := do
  recoverExpired
  let claimed ← claimRun E lease
  match claimed with
  | .ok (some (id, run)) =>
    let _ ← advanceRun E id lease run
    pure ()
  | _ => pure ()

/-- Runs started, cancelled and driven. -/
inductive Request
  | create (graph : FlowGraph) (input : Value) (maxRuns : ℕ)
  | cancel (id : String)
  | drive

/-- The program of a request; the new ids it draws are the name of its process. -/
def body (E : Engine) (pid : String) : Request → FlowProg Unit
  | .create graph input maxRuns => do
    let nowMs ← sql .clock
    let _ ← sql (.insertRun pid graph input nowMs maxRuns)
    pure ()
  | .cancel id => do
    let _ ← sql (.cancel id)
    pure ()
  | .drive => drive E pid

/-- Drivers of a flow at work. -/
def drivers (E : Engine) : Machine Ledger String Request Env Stmt Stmt.Ans Unit :=
  ⟨Ledger.exec, body E⟩

abbrev FlowPool := Pool Ledger String Request Stmt Stmt.Ans Unit

abbrev FlowEvent := Programs.Event String Request Env

end Flow

end RandallFlare
