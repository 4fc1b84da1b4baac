import RandallFlare.Queue.Ledger

/-!
# Producers and consumers of queues

The programs of `queue.rs` that produce and consume messages, statement by statement.

* `enqueue`: new messages;
* `claimBatch`, `settleBatch`, `moveToDeadLetter`, `enqueueExisting`, `consume`: what one task of
  the dispatcher does, from leasing a batch to settling each of its messages;
* `receiveOne`: the receive node of a flow, which leases and acknowledges one message;
* `machine`: any number of these at work, each with a lease id of its own.

An error of a statement ends the task, as its death does; a process may die anywhere, so errors of
D1 are not answers of the statements here.
-/

namespace RandallFlare

namespace Queue

open Programs Prog

structure SendMessage where
  body : String
  contentType : String := "json"
  bodyBase64 : Option String := none
  delaySeconds : ℕ := 0
  deriving DecidableEq

/-- What the programs read of the signed resources, and the check of a message, which looks at
JSON and base64. -/
structure Registry where
  spec : String → Option QueueSpec
  validateMessage : SendMessage → Except String Unit

abbrev QueueProg := Prog Stmt Stmt.Ans

def sql (c : Stmt) : QueueProg c.Ans := call c

def maxDelaySeconds : ℕ := 12 * 60 * 60
def maxBatchMessages : ℕ := 100
def deadLetterRetentionMs : ℕ := 30 * 24 * 60 * 60 * 1000

def truncateError (error : String) : String := String.ofList (error.toList.take 4000)

/-! ### Producing -/

/-- The entry of a message sent under a new id. -/
def pending (nowMs : ℕ) (m : String × SendMessage) : PendingMessage :=
  ⟨m.1, ⟨m.2.body, m.2.contentType, m.2.bodyBase64, nowMs⟩, nowMs + m.2.delaySeconds * 1000⟩

def checkMessage (reg : Registry) (m : SendMessage) : Except String Unit :=
  if maxDelaySeconds < m.delaySeconds then .error "队列消息延迟不得超过 12 小时"
  else reg.validateMessage m

/-- Send messages, each under a new id. -/
def enqueue (reg : Registry) (queue : String) (messages : List (String × SendMessage)) :
    QueueProg (Except String Unit) :=
  match reg.spec queue with
  | none => pure (.error "队列不存在")
  | some _ =>
    if messages.isEmpty || maxBatchMessages < messages.length then
      pure (.error "每次必须发送 1 至 100 条队列消息")
    else do
      let nowMs ← sql .clock
      match messages.forM fun m => checkMessage reg m.2 with
      | .error e => pure (.error e)
      | .ok _ =>
        let inserted ← sql (.insertMessages queue (messages.map (pending nowMs)))
        if inserted then
          sql (.addProduced queue messages.length)
          pure (.ok ())
        else pure (.error "UNIQUE constraint failed: queue_messages.id")

/-! ### Consuming -/

/-- Drop what is too old, lease a batch, and read it. -/
def claimBatch (queue : String) (spec : QueueSpec) (lease : String) :
    QueueProg (List QueueMessage) := do
  let nowMs ← sql .clock
  sql (.sweepMessages queue (nowMs - spec.retentionSeconds * 1000))
  sql (.sweepDeadLetters queue (nowMs - deadLetterRetentionMs))
  sql (.leaseBatch queue lease (nowMs + spec.visibilityTimeoutMs) nowMs spec.batchSize)
  sql (.leased queue lease)

/-- Put a message of another queue into `target`, unless it is there. -/
def enqueueExisting (reg : Registry) (queue lease target : String) (m : QueueMessage) :
    QueueProg (Except String Unit) :=
  match reg.spec target with
  | none => pure (.error "死信目标队列不存在")
  | some _ =>
    match reg.validateMessage ⟨m.payload.body, m.payload.contentType, m.payload.bodyBase64, 0⟩ with
    | .error e => pure (.error e)
    | .ok _ => do
      let inserted ← sql (.forward queue m.id lease target m.payload)
      if 0 < inserted then
        sql (.addProduced target 1)
        pure (.ok ())
      else pure (.ok ())

/-- Copy a message that is given up into the dead-letter queue, if there is one. -/
def forwardDead (reg : Registry) (queue : String) (spec : QueueSpec) (lease : String)
    (m : QueueMessage) : QueueProg (Except String Unit) :=
  match spec.deadLetterQueue with
  | none => pure (.ok ())
  | some target => enqueueExisting reg queue lease target m

/-- Give up on a message: a dead letter, the copy, and then the message is deleted. -/
def moveToDeadLetter (reg : Registry) (queue : String) (spec : QueueSpec) (lease : String)
    (m : QueueMessage) (error : String) : QueueProg (Except String Unit) := do
  sql (.deadLetter queue m.id lease (truncateError error))
  let copied ← forwardDead reg queue spec lease m
  match copied with
  | .error e => pure (.error e)
  | .ok _ =>
    let _ ← sql (.acknowledge queue m.id lease)
    pure (.ok ())

/-- What the Worker asked for a message: the last of its actions for it. -/
def actionOf (delivery : Except String (List MessageAction)) (id : String) :
    Option MessageAction :=
  match delivery with
  | .ok actions => actions.reverse.find? (·.id = id)
  | .error _ => none

/-- The Worker failed, or asked for another attempt. -/
def shouldRetry (delivery : Except String (List MessageAction)) (id : String) : Bool :=
  match delivery with
  | .ok _ => (actionOf delivery id).any (·.action = "retry")
  | .error _ => true

/-- The error noted with a message that is tried again or given up. -/
def errorOf (delivery : Except String (List MessageAction)) (id : String) : String :=
  ((actionOf delivery id).bind (·.error)).getD
    (match delivery with
    | .ok _ => "Worker 请求重试"
    | .error e => e)

def delayMsOf (delivery : Except String (List MessageAction)) (id : String) : ℕ :=
  min (((actionOf delivery id).map (·.delaySeconds)).getD 0) maxDelaySeconds * 1000

/-- Settle the messages of a batch one after the other, counting those consumed. -/
def settleMessages (reg : Registry) (queue : String) (spec : QueueSpec) (lease : String)
    (delivery : Except String (List MessageAction)) :
    List QueueMessage → ℕ → QueueProg (Except String ℕ)
  | [], consumed => pure (.ok consumed)
  | m :: ms, consumed =>
    if shouldRetry delivery m.id then
      if m.attempts ≤ spec.maxRetries then do
        sql (.requeue queue m.id lease (delayMsOf delivery m.id)
          (truncateError (errorOf delivery m.id)))
        settleMessages reg queue spec lease delivery ms consumed
      else do
        let moved ← moveToDeadLetter reg queue spec lease m (errorOf delivery m.id)
        match moved with
        | .error e => pure (.error e)
        | .ok _ => settleMessages reg queue spec lease delivery ms consumed
    else do
      let affected ← sql (.acknowledge queue m.id lease)
      settleMessages reg queue spec lease delivery ms (consumed + affected)

/-- Settle a batch and count what was consumed. -/
def settleBatch (reg : Registry) (queue : String) (spec : QueueSpec) (lease : String)
    (messages : List QueueMessage) (delivery : Except String (List MessageAction)) :
    QueueProg (Except String Unit) := do
  let settled ← settleMessages reg queue spec lease delivery messages 0
  match settled with
  | .error e => pure (.error e)
  | .ok consumed =>
    if 0 < consumed then
      sql (.addConsumed queue consumed)
      pure (.ok ())
    else pure (.ok ())

/-- One task of the dispatcher: claim, deliver, settle. -/
def consume (reg : Registry) (queue lease : String) : QueueProg (Except String Unit) :=
  match reg.spec queue with
  | none => pure (.ok ())
  | some spec =>
    if spec.suspended then pure (.ok ())
    else do
      let messages ← claimBatch queue spec lease
      if messages.isEmpty then pure (.ok ())
      else
        let delivery ← sql (.deliver queue messages)
        settleBatch reg queue spec lease messages delivery

/-- Lease one message and acknowledge it at once. -/
def receiveOne (reg : Registry) (queue lease : String) : QueueProg (Except String Unit) :=
  match reg.spec queue with
  | none => pure (.error "队列不存在")
  | some spec =>
    if spec.suspended then pure (.error "队列已暂停")
    else do
      let nowMs ← sql .clock
      sql (.sweepMessages queue (nowMs - spec.retentionSeconds * 1000))
      sql (.leaseBatch queue lease (nowMs + spec.visibilityTimeoutMs) nowMs 1)
      let messages ← sql (.leased queue lease)
      match messages with
      | [] => pure (.ok ())
      | m :: _ =>
        let deleted ← sql (.acknowledge queue m.id lease)
        if deleted = 1 then
          sql (.addConsumed queue 1)
          pure (.ok ())
        else pure (.error "队列消息确认失败：租约可能已转移")

/-! ### All of them at work -/

/-- What a process is started for. -/
inductive Request
  | enqueue (queue : String) (messages : List (String × SendMessage))
  | consume (queue : String)
  | receiveOne (queue : String)

/-- The queue a process works on. -/
def Request.queue : Request → String
  | .enqueue queue _ => queue
  | .consume queue => queue
  | .receiveOne queue => queue

/-- The program of a request; a consumer's lease id is the name of its process, so that no two
consumers draw the same. -/
def body (reg : Registry) (lease : String) : Request → QueueProg (Except String Unit)
  | .enqueue queue messages => Queue.enqueue reg queue messages
  | .consume queue => Queue.consume reg queue lease
  | .receiveOne queue => Queue.receiveOne reg queue lease

/-- Producers and consumers over the databases of the queues. -/
def machine (reg : Registry) :
    Machine Queues String Request Env Stmt Stmt.Ans (Except String Unit) :=
  ⟨Queues.exec, body reg⟩

end Queue

end RandallFlare
