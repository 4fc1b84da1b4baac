import Mathlib.Data.String.Basic
import Mathlib.Data.List.Sort
import RandallFlare.Lib.SortedMap
import RandallFlare.Lib.Programs

/-!
# The ledger of a queue

Every queue keeps its messages, its dead letters and its counters in a D1 database of its own; a
consumer and a producer reach them by SQL statements, each of which is one command of D1.

* `QueueSpec`, `QueueMessage`, `MessageRow`, `DeadLetter`, `Ledger`: the signed definition of a
  queue and the tables;
* `Stmt`, `Queues.exec`: the statements of `queue.rs` and what each does.

A message is leased to a consumer by writing the consumer's lease id on its row; everything a
consumer later does to the row names that lease, except the copy into another queue.
`Queues.handed` is not stored by the program: it counts how often the message that now stands (or
last stood) under an id was returned by `claim_batch` since it was put into the queue.
-/

namespace RandallFlare

namespace Queue

/-- What the ledger's statements use of a queue's definition. -/
structure QueueSpec where
  batchSize : ℕ := 10
  maxRetries : ℕ := 3
  visibilityTimeoutMs : ℕ := 120000
  retentionSeconds : ℕ := 604800
  deadLetterQueue : Option String := none
  suspended : Bool := false
  deriving DecidableEq

/-- The body of a message: JSON text, its type, and bytes in base64. -/
structure Payload where
  body : String
  contentType : String := "json"
  bodyBase64 : Option String := none
  producedAtMs : ℕ
  deriving DecidableEq

/-- A message as a consumer sees it. -/
structure QueueMessage where
  id : String
  payload : Payload
  attempts : ℕ
  deriving DecidableEq

/-- A row of `queue_messages`. -/
structure MessageRow where
  payload : Payload
  availableAtMs : ℕ
  attempts : ℕ := 0
  leaseId : Option String := none
  leaseUntilMs : Option ℕ := none
  lastError : Option String := none
  deriving DecidableEq

/-- A message on its way into a queue. -/
structure PendingMessage where
  id : String
  payload : Payload
  availableAtMs : ℕ
  deriving DecidableEq

def PendingMessage.toRow (e : PendingMessage) : MessageRow :=
  { payload := e.payload, availableAtMs := e.availableAtMs }

/-- A row of `queue_dead_letters`. -/
structure DeadLetter where
  payload : Payload
  deadLetterAtMs : ℕ
  attempts : ℕ
  lastError : String
  deriving DecidableEq

/-- What a consumer asks for a message: `"ack"` or `"retry"`, after a delay. -/
structure MessageAction where
  id : String
  action : String
  delaySeconds : ℕ := 0
  error : Option String := none
  deriving DecidableEq

/-- The D1 database of one queue. -/
structure Ledger where
  messages : SortedMap String MessageRow
  deadLetters : SortedMap String DeadLetter
  totalProduced : ℕ
  totalConsumed : ℕ
  deriving DecidableEq

namespace MessageRow

/-- `lease_until_ms <= now`, which is not true of an empty column. -/
def expired (row : MessageRow) (nowMs : ℕ) : Bool := row.leaseUntilMs.any (· ≤ nowMs)

/-- `lease_id IS NULL OR lease_until_ms <= now`. -/
def free (row : MessageRow) (nowMs : ℕ) : Bool := row.leaseId.isNone || row.expired nowMs

/-- The row a lease leaves. -/
def leasedTo (row : MessageRow) (lease : String) (untilMs : ℕ) : MessageRow :=
  { row with leaseId := some lease, leaseUntilMs := some untilMs, attempts := row.attempts + 1 }

/-- The row as the message a consumer gets. -/
def toMessage (id : String) (row : MessageRow) : QueueMessage := ⟨id, row.payload, row.attempts⟩

end MessageRow

namespace Ledger

def empty : Ledger := ⟨SortedMap.empty, SortedMap.empty, 0, 0⟩

/-- The row of a message is leased under `lease`. -/
def held (l : Ledger) (id lease : String) : Bool :=
  (l.messages.get id).any (·.leaseId = some lease)

/-- `ORDER BY available_at_ms, id`. -/
def comesBefore (p q : String × MessageRow) : Prop :=
  p.2.availableAtMs < q.2.availableAtMs ∨ p.2.availableAtMs = q.2.availableAtMs ∧ p.1 ≤ q.1

instance (p q : String × MessageRow) : Decidable (comesBefore p q) :=
  inferInstanceAs (Decidable (_ ∨ _))

/-- The ids a lease statement selects. -/
def ready (l : Ledger) (nowMs limit : ℕ) : List String :=
  (((l.messages.entries.filter fun p => p.2.availableAtMs ≤ nowMs ∧ p.2.free nowMs).insertionSort
    comesBefore).take limit).map Prod.fst

/-- Lease up to `limit` messages that are due and free. -/
def leaseBatch (l : Ledger) (lease : String) (untilMs nowMs limit : ℕ) : Ledger :=
  { l with messages := l.messages.mapEntries fun id row =>
      if id ∈ l.ready nowMs limit ∧ row.free nowMs then row.leasedTo lease untilMs else row }

/-- The messages leased under `lease`, `ORDER BY available_at_ms, id`. -/
def leased (l : Ledger) (lease : String) : List QueueMessage :=
  ((l.messages.entries.filter fun p => p.2.leaseId = some lease).insertionSort comesBefore).map
    fun p => p.2.toMessage p.1

/-- `DELETE FROM queue_messages WHERE produced_at_ms < before`. -/
def sweepMessages (l : Ledger) (before : ℕ) : Ledger :=
  { l with messages := l.messages.filter fun _ row => before ≤ row.payload.producedAtMs }

/-- `DELETE FROM queue_dead_letters WHERE dead_letter_at_ms < before`. -/
def sweepDeadLetters (l : Ledger) (before : ℕ) : Ledger :=
  { l with deadLetters := l.deadLetters.filter fun _ d => before ≤ d.deadLetterAtMs }

/-- `DELETE FROM queue_messages WHERE id AND lease_id`. -/
def acknowledge (l : Ledger) (id lease : String) : Ledger :=
  if l.held id lease then { l with messages := l.messages.erase id } else l

/-- Give a leased message back, due at `availableAtMs`. -/
def requeue (l : Ledger) (id lease : String) (availableAtMs : ℕ) (error : String) : Ledger :=
  { l with messages := l.messages.mapEntries fun k row =>
      if k = id ∧ row.leaseId = some lease then
        { row with
          leaseId := none
          leaseUntilMs := none
          availableAtMs := availableAtMs
          lastError := some error }
      else row }

/-- Copy a leased message into the dead letters. -/
def deadLetter (l : Ledger) (id lease : String) (nowMs : ℕ) (error : String) : Ledger :=
  match l.messages.get id with
  | none => l
  | some row =>
    if row.leaseId = some lease then
      { l with deadLetters := l.deadLetters.insert id ⟨row.payload, nowMs, row.attempts, error⟩ }
    else l

/-- `INSERT OR IGNORE` of a message that was in another queue. -/
def enqueueExisting (l : Ledger) (id : String) (payload : Payload) (nowMs : ℕ) : Ledger :=
  match l.messages.get id with
  | some _ => l
  | none =>
    { l with messages := l.messages.insert id { payload := payload, availableAtMs := nowMs } }

/-- `INSERT` of new messages. -/
def insertMessages (l : Ledger) (entries : List PendingMessage) : Ledger :=
  { l with messages := entries.foldl (fun m e => m.insert e.id e.toRow) l.messages }

/-- The ids of the entries are different and not taken; if not, the statement fails as a whole. -/
def admits (l : Ledger) (entries : List PendingMessage) : Bool :=
  (entries.map PendingMessage.id).Nodup ∧ ∀ e ∈ entries, l.messages.get e.id = none

/-- `redrive_dead_letter`: the dead letter becomes a new message. -/
def redriveDeadLetter (l : Ledger) (id : String) (nowMs : ℕ) : Ledger × Bool :=
  match l.deadLetters.get id with
  | none => (l, false)
  | some d =>
    ({ l with
      messages := l.messages.insert id { payload := d.payload, availableAtMs := nowMs }
      deadLetters := l.deadLetters.erase id }, true)

end Ledger

/-! ### Statements -/

/-- The statements of a queue's producers and consumers, the clock, and the call of the consumer's
Worker.  The lease of `forward` is not part of the SQL: it says for which consumer the copy is
made. -/
inductive Stmt
  | clock
  | sweepMessages (queue : String) (before : ℕ)
  | sweepDeadLetters (queue : String) (before : ℕ)
  | leaseBatch (queue lease : String) (untilMs nowMs limit : ℕ)
  | leased (queue lease : String)
  | deliver (queue : String) (messages : List QueueMessage)
  | acknowledge (queue id lease : String)
  | requeue (queue id lease : String) (delayMs : ℕ) (error : String)
  | deadLetter (queue id lease : String) (error : String)
  | forward (queue id lease : String) (target : String) (payload : Payload)
  | insertMessages (queue : String) (entries : List PendingMessage)
  | addProduced (queue : String) (n : ℕ)
  | addConsumed (queue : String) (n : ℕ)
  deriving DecidableEq

@[reducible] def Stmt.Ans : Stmt → Type
  | .clock => ℕ
  | .leased _ _ => List QueueMessage
  | .deliver _ _ => Except String (List MessageAction)
  | .acknowledge _ _ _ => ℕ
  | .forward _ _ _ _ _ => ℕ
  | .insertMessages _ _ => Bool
  | _ => Unit

/-- What the environment adds to a statement: the node's clock, and what the Worker answers. -/
structure Env where
  nowMs : ℕ := 0
  delivery : Except String (List MessageAction) := .ok []

/-- The databases of the queues, and how often each message was handed out. -/
structure Queues where
  ledgers : String → Ledger
  handed : String → String → ℕ

open Queues SortedMap Ledger List

namespace Queues

def empty : Queues := ⟨fun _ => Ledger.empty, fun _ _ => 0⟩

/-- Change the database of one queue. -/
def setLedger (s : Queues) (queue : String) (l : Ledger) : Queues :=
  { s with ledgers := Function.update s.ledgers queue l }

/-- Change the counts of one queue. -/
def setHanded (s : Queues) (queue : String) (f : String → ℕ) : Queues :=
  { s with handed := Function.update s.handed queue f }

/-- What a statement does and answers. -/
def exec : (c : Stmt) → Env → Queues → Queues × c.Ans
  | .clock, x, s => (s, x.nowMs)
  | .sweepMessages q before, _, s => (s.setLedger q ((s.ledgers q).sweepMessages before), ())
  | .sweepDeadLetters q before, _, s => (s.setLedger q ((s.ledgers q).sweepDeadLetters before), ())
  | .leaseBatch q lease untilMs nowMs limit, _, s =>
    (s.setLedger q ((s.ledgers q).leaseBatch lease untilMs nowMs limit), ())
  | .leased q lease, _, s =>
    (s.setHanded q fun id =>
      if (s.ledgers q).held id lease then s.handed q id + 1 else s.handed q id,
      (s.ledgers q).leased lease)
  | .deliver _ _, x, s => (s, x.delivery)
  | .acknowledge q id lease, _, s =>
    (s.setLedger q ((s.ledgers q).acknowledge id lease),
      if (s.ledgers q).held id lease then 1 else 0)
  | .requeue q id lease delayMs error, x, s =>
    (s.setLedger q ((s.ledgers q).requeue id lease (x.nowMs + delayMs) error), ())
  | .deadLetter q id lease error, x, s =>
    (s.setLedger q ((s.ledgers q).deadLetter id lease x.nowMs error), ())
  | .forward _ id _ target payload, x, s =>
    if ((s.ledgers target).messages.get id).isSome then (s, (0 : ℕ))
    else
      ((s.setLedger target ((s.ledgers target).enqueueExisting id payload x.nowMs)).setHanded
        target (Function.update (s.handed target) id 0), (1 : ℕ))
  | .insertMessages q entries, _, s =>
    if (s.ledgers q).admits entries then
      ((s.setLedger q ((s.ledgers q).insertMessages entries)).setHanded q fun id =>
        if id ∈ entries.map PendingMessage.id then 0 else s.handed q id, true)
    else (s, false)
  | .addProduced q n, _, s =>
    (s.setLedger q { s.ledgers q with totalProduced := (s.ledgers q).totalProduced + n }, ())
  | .addConsumed q n, _, s =>
    (s.setLedger q { s.ledgers q with totalConsumed := (s.ledgers q).totalConsumed + n }, ())

def row (s : Queues) (queue id : String) : Option MessageRow := (s.ledgers queue).messages.get id

theorem row_setLedger (s : Queues) (q q' id : String) (l : Ledger) :
    (s.setLedger q l).row q' id = if q' = q then l.messages.get id else s.row q' id := by
  by_cases h : q' = q
  · subst h
    simp [row, setLedger]
  · simp [row, setLedger, h]

@[simp] theorem row_setHanded (s : Queues) (q q' id : String) (f : String → ℕ) :
    (s.setHanded q f).row q' id = s.row q' id := rfl

@[simp] theorem handed_setLedger (s : Queues) (q q' id : String) (l : Ledger) :
    (s.setLedger q l).handed q' id = s.handed q' id := rfl

theorem handed_setHanded (s : Queues) (q q' id : String) (f : String → ℕ) :
    (s.setHanded q f).handed q' id = if q' = q then f id else s.handed q' id := by
  by_cases h : q' = q
  · subst h
    simp [setHanded]
  · simp [setHanded, h]

end Queues

/-! ### What a statement can do to a message -/

namespace Ledger

theorem held_iff {l : Ledger} {id lease : String} :
    l.held id lease ↔ ∃ row, l.messages.get id = some row ∧ row.leaseId = some lease := by
  simp [held, Option.any_eq_true]

theorem messages_deadLetter (l : Ledger) (id lease : String) (nowMs : ℕ) (error : String) :
    (l.deadLetter id lease nowMs error).messages = l.messages := by
  unfold deadLetter
  split
  · rfl
  · split_ifs <;> rfl

theorem get_insertMessages (l : Ledger) (entries : List PendingMessage) (id : String) :
    (id ∉ entries.map PendingMessage.id ∧
      (l.insertMessages entries).messages.get id = l.messages.get id) ∨
    (id ∈ entries.map PendingMessage.id ∧
      ∃ e : PendingMessage, (l.insertMessages entries).messages.get id = some e.toRow) := by
  simp only [insertMessages]
  generalize l.messages = m
  induction entries generalizing m with
  | nil => exact .inl ⟨not_mem_nil, rfl⟩
  | cons e es ih =>
    rcases ih (m.insert e.id e.toRow) with ⟨hn, hget⟩ | ⟨hm, hget⟩
    · by_cases hid : id = e.id
      · exact .inr ⟨by simp [hid], e, by simpa [get_insert, hid] using hget⟩
      · exact .inl ⟨by simpa [hid] using hn, by simpa [get_insert, hid] using hget⟩
    · exact .inr ⟨mem_cons_of_mem _ hm, hget⟩

theorem mem_leased {l : Ledger} {lease : String} {m : QueueMessage} : m ∈ l.leased lease ↔
      ∃ row, l.messages.get m.id = some row ∧ row.leaseId = some lease ∧
        m = row.toMessage m.id := by
  simp only [leased, mem_map, mem_insertionSort, mem_filter, Prod.exists,
    decide_eq_true_eq, get_eq_some_iff]
  constructor
  · rintro ⟨id, row, ⟨hrow, hlease⟩, rfl⟩
    exact ⟨row, hrow, hlease, rfl⟩
  · rintro ⟨row, hrow, hlease, hm⟩
    exact ⟨m.id, row, ⟨hrow, hlease⟩, hm.symm⟩

theorem nodup_leased (l : Ledger) (lease : String) :
    ((l.leased lease).map QueueMessage.id).Nodup := by
  have hkeys : (l.messages.entries.map Prod.fst).Nodup :=
    pairwise_map.2 (l.messages.sorted.imp fun h => h.ne)
  have hsort := (perm_insertionSort comesBefore
    (l.messages.entries.filter fun p => p.2.leaseId = some lease)).map Prod.fst
  rw [leased, map_map]
  exact (hsort.nodup_iff).2 (hkeys.sublist (filter_sublist.map Prod.fst))

/-- **Redriving a message that became a dead letter** gives it back with its payload and all its
attempts, and leaves the others alone. -/
theorem redrive_deadLetter {l : Ledger} {id lease : String} {row : MessageRow}
    (h : l.messages.get id = some row) (hlease : row.leaseId = some lease) (diedMs nowMs : ℕ)
    (error : String) : ∃ back, ((l.deadLetter id lease diedMs error).acknowledge id
      lease).redriveDeadLetter id nowMs = (back, true) ∧ ∀ id', back.messages.get id' =
        (if id' = id then some { payload := row.payload, availableAtMs := nowMs }
          else l.messages.get id') ∧
        back.deadLetters.get id' = if id' = id then none else l.deadLetters.get id' := by
  have hmoved : (l.deadLetter id lease diedMs error).acknowledge id lease =
      { l with
        messages := l.messages.erase id
        deadLetters := l.deadLetters.insert id ⟨row.payload, diedMs, row.attempts, error⟩ } := by
    simp [acknowledge, deadLetter, held, h, hlease]
  rw [hmoved, redriveDeadLetter]
  simp only [get_insert_self]
  refine ⟨_, rfl, fun id' => ?_⟩
  by_cases hid : id' = id <;> simp [hid, get_insert, get_erase]

/-- A message without an attempt left. -/
def spent : Ledger :=
  ⟨SortedMap.empty.insert "job" ⟨⟨"1", "json", none, 0⟩, 0, 4, some "a", some 9, none⟩,
    SortedMap.empty, 1, 0⟩

theorem redrive_deadLetter_spent : ∃ back, ((spent.deadLetter "job" "a" 5 "failed").acknowledge
    "job" "a").redriveDeadLetter "job" 6 = (back, true) ∧ ∀ id', back.deadLetters.get id' = none := by
  have hjob : spent.messages.get "job" = some _ := rfl
  obtain ⟨back, hback, hget⟩ := redrive_deadLetter hjob rfl 5 6 "failed"
  exact ⟨back, hback, fun id' => (hget id').2.trans (by split_ifs <;> rfl)⟩

end Ledger

/-- What the statement `c` can do to the message `id` of `queue`, whose database is `l`: its count of
hand-outs and its row, before and after. -/
inductive Touch (c : Stmt) (l : Ledger) (queue id : String) :
    ℕ → Option MessageRow → ℕ → Option MessageRow → Prop
  | same (n : ℕ) (row : Option MessageRow) : Touch c l queue id n row n row
  | swept (n : ℕ) (row : MessageRow) (before : ℕ) (hc : c = .sweepMessages queue before)
      (hold : row.payload.producedAtMs < before) : Touch c l queue id n (some row) n none
  | leased (n : ℕ) (row : MessageRow) (lease : String) (untilMs nowMs limit : ℕ)
      (hc : c = .leaseBatch queue lease untilMs nowMs limit) (hfree : row.free nowMs)
      (hready : id ∈ l.ready nowMs limit) :
      Touch c l queue id n (some row) n (some (row.leasedTo lease untilMs))
  | handed (n : ℕ) (row : MessageRow) (lease : String) (hc : c = .leased queue lease)
      (hlease : row.leaseId = some lease) : Touch c l queue id n (some row) (n + 1) (some row)
  | acknowledged (n : ℕ) (row : MessageRow) (lease : String) (hc : c = .acknowledge queue id lease)
      (hlease : row.leaseId = some lease) : Touch c l queue id n (some row) n none
  | requeued (n : ℕ) (row row' : MessageRow) (lease : String) (delayMs : ℕ) (error : String)
      (hc : c = .requeue queue id lease delayMs error) (hlease : row.leaseId = some lease)
      (hfree : row'.leaseId = none) (hattempts : row'.attempts = row.attempts) :
      Touch c l queue id n (some row) n (some row')
  | inserted (n : ℕ) (row : MessageRow) (hfree : row.leaseId = none)
      (hattempts : row.attempts = 0) : Touch c l queue id n none 0 (some row)

section

variable {c : Stmt} {s : Queues} {q q' id : String} {l : Ledger} {n : ℕ}

theorem touch_setLedger
    (h : q = q' → Touch c (s.ledgers q) q id (s.handed q id) (s.row q id) (s.handed q id)
      (l.messages.get id)) :
    Touch c (s.ledgers q) q id (s.handed q id) (s.row q id) ((s.setLedger q' l).handed q id)
      ((s.setLedger q' l).row q id) := by
  rw [handed_setLedger, row_setLedger]
  split_ifs with hq
  · exact h hq
  · exact .same _ _

theorem touch_sweepMessages (before : ℕ) :
    Touch (.sweepMessages q before) l q id n (l.messages.get id) n
      ((l.sweepMessages before).messages.get id) := by
  simp only [sweepMessages, get_filter]
  cases l.messages.get id with
  | none => exact .same _ _
  | some row =>
    by_cases hold : before ≤ row.payload.producedAtMs
    · rw [Option.filter_some, if_pos (decide_eq_true hold)]
      exact .same _ _
    · rw [Option.filter_some, if_neg (by simpa using hold)]
      exact .swept _ row before rfl (not_le.1 hold)

theorem touch_leaseBatch (lease : String) (untilMs nowMs limit : ℕ) :
    Touch (.leaseBatch q lease untilMs nowMs limit) l q id n (l.messages.get id) n
      ((l.leaseBatch lease untilMs nowMs limit).messages.get id) := by
  simp only [leaseBatch, get_mapEntries]
  cases l.messages.get id with
  | none => exact .same _ _
  | some row =>
    rw [Option.map_some]
    split_ifs with hsel
    · exact .leased _ row lease untilMs nowMs limit rfl hsel.2 hsel.1
    · exact .same _ _

theorem touch_acknowledge (id' lease : String) :
    Touch (.acknowledge q id' lease) l q id n (l.messages.get id) n
      ((l.acknowledge id' lease).messages.get id) := by
  unfold acknowledge
  split_ifs with hheld
  · rw [get_erase]
    split_ifs with hid
    · subst hid
      obtain ⟨row, hrow, hlease⟩ := held_iff.1 hheld
      rw [hrow]
      exact .acknowledged _ row lease rfl hlease
    · exact .same _ _
  · exact .same _ _

theorem touch_requeue (id' lease : String) (delayMs availableAtMs : ℕ) (error : String) :
    Touch (.requeue q id' lease delayMs error) l q id n (l.messages.get id) n
      ((l.requeue id' lease availableAtMs error).messages.get id) := by
  simp only [requeue, get_mapEntries]
  cases l.messages.get id with
  | none => exact .same _ _
  | some row =>
    rw [Option.map_some]
    split_ifs with hsel
    · obtain ⟨rfl, hlease⟩ := hsel
      exact .requeued _ row _ lease delayMs error rfl hlease rfl rfl
    · exact .same _ _

theorem touch_leased (x : Env) (lease : String) :
    Touch (.leased q' lease) (s.ledgers q) q id (s.handed q id) (s.row q id)
      ((exec (.leased q' lease) x s).1.handed q id) ((exec (.leased q' lease) x s).1.row q id) := by
  simp only [exec, handed_setHanded]
  rw [row_setHanded]
  split_ifs with hq hheld
  · subst hq
    obtain ⟨row, hrow, hlease⟩ := held_iff.1 hheld
    rw [show s.row q id = some row from hrow]
    exact .handed _ row lease rfl hlease
  · subst hq
    exact .same _ _
  · exact .same _ _

theorem touch_forward (x : Env) (source id' lease : String) (payload : Payload) :
    Touch (.forward source id' lease q' payload) (s.ledgers q) q id (s.handed q id) (s.row q id)
      ((exec (.forward source id' lease q' payload) x s).1.handed q id)
      ((exec (.forward source id' lease q' payload) x s).1.row q id) := by
  simp only [exec]
  split_ifs with hthere
  · exact .same _ _
  · have hnone : (s.ledgers q').messages.get id' = none := by simpa using hthere
    simp only [handed_setHanded, handed_setLedger, enqueueExisting, hnone]
    rw [row_setHanded, row_setLedger]
    by_cases hq : q = q'
    · subst hq
      by_cases hid : id = id'
      · subst hid
        simpa [show s.row q id = none from hnone] using Touch.inserted _ _ rfl rfl
      · simp only [hid, get_insert, Function.update_apply, if_true, if_false]
        exact .same _ _
    · simpa [hq] using Touch.same _ _

theorem touch_insertMessages (x : Env) (entries : List PendingMessage) :
    Touch (.insertMessages q' entries) (s.ledgers q) q id (s.handed q id) (s.row q id)
      ((exec (.insertMessages q' entries) x s).1.handed q id)
      ((exec (.insertMessages q' entries) x s).1.row q id) := by
  simp only [exec]
  split_ifs with hadmits
  · simp only [handed_setHanded]
    rw [row_setHanded, row_setLedger]
    by_cases hq : q = q'
    · subst hq
      simp only [if_true]
      rcases get_insertMessages (s.ledgers q) entries id with ⟨hn, hget⟩ | ⟨hm, e, hget⟩
      · rw [hget, if_neg hn]
        exact .same _ _
      · obtain ⟨d, hd, rfl⟩ := mem_map.1 hm
        have hnone : s.row q d.id = none := (of_decide_eq_true hadmits).2 d hd
        rw [hget, if_pos hm, hnone]
        exact .inserted _ _ rfl rfl
    · simpa [hq] using Touch.same _ _
  · exact .same _ _

end

/-- **What a statement can do to a message.** -/
theorem touch (c : Stmt) (x : Env) (s : Queues) (q id : String) :
    Touch c (s.ledgers q) q id (s.handed q id) (s.row q id) ((exec c x s).1.handed q id)
      ((exec c x s).1.row q id) := by
  cases c with
  | clock => exact .same _ _
  | sweepMessages q' before => exact touch_setLedger fun h => h ▸ touch_sweepMessages before
  | sweepDeadLetters q' before => exact touch_setLedger fun h => by subst h; exact .same _ _
  | leaseBatch q' lease untilMs nowMs limit =>
    exact touch_setLedger fun h => h ▸ touch_leaseBatch lease untilMs nowMs limit
  | leased q' lease => exact touch_leased x lease
  | deliver q' messages => exact .same _ _
  | acknowledge q' id' lease => exact touch_setLedger fun h => h ▸ touch_acknowledge id' lease
  | requeue q' id' lease delayMs error =>
    exact touch_setLedger fun h => h ▸ touch_requeue id' lease delayMs _ error
  | deadLetter q' id' lease error =>
    refine touch_setLedger fun h => ?_
    subst h
    rw [messages_deadLetter]
    exact .same _ _
  | forward source id' lease target payload => exact touch_forward x source id' lease payload
  | insertMessages q' entries => exact touch_insertMessages x entries
  | addProduced q' n => exact touch_setLedger fun h => by subst h; exact .same _ _
  | addConsumed q' n => exact touch_setLedger fun h => by subst h; exact .same _ _

end Queue

end RandallFlare
