import RandallFlare.Queue.Consumers

/-!
# Retry budgets and leases

How often a message is handed out, and who decides what becomes of it.

* `Budgeted`: the invariant of a message's row: it was handed out at most as often as its
  `attempts` say, these are at most `max_retries + 1`, and a message nobody holds has an attempt
  left;
* `Undisturbed`: what a consumer relies on for the messages it holds;
* `handed_le_budget`: no message is handed out more than `max_retries + 1` times, in every run in
  which no message on its last attempt loses its consumer;
* `settles_only_held`: a consumer decides about the messages it still holds and no others, in every
  run in which messages on their last attempt are neither claimed nor swept from under it.

Without these conditions both fail: `claim_batch` leases a message whose lease has run out however
often it was tried (`abandoned`), and the copy into the dead-letter queue is made without looking
at the lease (`forwardedLate`).
-/

namespace RandallFlare

namespace Queue

open Programs Prog Queues Runs Stmt SortedMap List

/-! ### The row of a message -/

/-- A row within its budget, given how often the message was handed out. -/
def Budgeted (spec : QueueSpec) (n : ℕ) : Option MessageRow → Prop
  | none => n ≤ spec.maxRetries + 1
  | some row => n ≤ row.attempts ∧ row.attempts ≤ spec.maxRetries + 1 ∧
      (row.leaseId = none → row.attempts ≤ spec.maxRetries)

variable {spec : QueueSpec}

theorem Budgeted.le {n : ℕ} {row : Option MessageRow}
    (h : Budgeted spec n row) : n ≤ spec.maxRetries + 1 := by
  cases row with
  | none => exact h
  | some row => exact h.1.trans h.2.1

/-- The lease a statement of a consumer names. -/
def Stmt.lease : Stmt → Option String
  | .leaseBatch _ lease _ _ _ => some lease
  | .leased _ lease => some lease
  | .acknowledge _ _ lease => some lease
  | .requeue _ _ lease _ _ => some lease
  | .deadLetter _ _ lease _ => some lease
  | .forward _ _ lease _ _ => some lease
  | _ => none

/-- The statement does not read, take or drop the message `id` if it stands in its queue. -/
def Stmt.spares (id : String) : Stmt → Bool
  | .sweepMessages _ _ => false
  | .leaseBatch _ _ _ _ _ => false
  | .leased _ _ => false
  | .acknowledge _ id' _ => id' ≠ id
  | .requeue _ id' _ _ _ => id' ≠ id
  | _ => true

namespace Touch

variable {c : Stmt} {l : Ledger} {q id : String} {n n' : ℕ} {r r' : Option MessageRow}

section

variable (h : Touch c l q id n r n' r') {lease : String} {row : MessageRow}

include h

/-- Every statement keeps a message within its budget, if it leases no message beyond it, reads a
lease once, and gives back only what has an attempt left. -/
theorem budgeted (hb : Budgeted spec n r)
    (hclaim : ∀ lease untilMs nowMs limit row, c = .leaseBatch q lease untilMs nowMs limit →
      r = some row → row.leaseId.isSome → id ∈ l.ready nowMs limit → row.attempts ≤ spec.maxRetries)
    (hread : ∀ lease row, c = .leased q lease → r = some row → row.leaseId = some lease →
      n + 1 ≤ row.attempts)
    (hrequeue : ∀ lease delayMs error row, c = .requeue q id lease delayMs error → r = some row →
      row.leaseId = some lease → row.attempts ≤ spec.maxRetries) : Budgeted spec n' r' := by
  cases h with
  | same => exact hb
  | swept row before hc hold => exact hb.le
  | leased row lease untilMs nowMs limit hc hfree hready =>
    have hleft : row.attempts ≤ spec.maxRetries := by
      by_cases hnone : row.leaseId = none
      · exact hb.2.2 hnone
      · exact hclaim lease untilMs nowMs limit row hc rfl (Option.isSome_iff_ne_none.2 hnone) hready
    refine ⟨hb.1.trans (Nat.le_succ _), Nat.succ_le_succ hleft, ?_⟩
    intro hnone
    cases hnone
  | handed row lease hc hlease => exact ⟨hread lease row hc rfl hlease, hb.2⟩
  | acknowledged row lease hc hlease => exact hb.le
  | requeued row row' lease delayMs error hc hlease hfree hattempts =>
    have hleft := hrequeue lease delayMs error row hc rfl hlease
    exact ⟨hattempts ▸ hb.1, by omega, fun _ => hattempts ▸ hleft⟩
  | inserted row hfree hattempts => exact ⟨Nat.zero_le _, by omega, fun _ => by omega⟩

/-- A row leased to `lease` after a statement of another consumer is as it was before. -/
theorem back (hother : c.lease ≠ some lease) (hr : r' = some row) (hl : row.leaseId = some lease) :
    r = some row ∧ n' = n := by
  cases h with
  | same => exact ⟨hr, rfl⟩
  | swept => cases hr
  | leased row' lease' untilMs nowMs limit hc hfree =>
    cases hr
    exact absurd (by rw [hc]; exact hl) hother
  | handed row' lease' hc hlease =>
    cases hr
    exact absurd (by rw [hc]; exact hlease.symm.trans hl) hother
  | acknowledged => cases hr
  | requeued row row' lease' delayMs error hc hlease hfree hattempts =>
    cases hr
    rw [hfree] at hl
    cases hl
  | inserted row' hfree hattempts =>
    cases hr
    rw [hfree] at hl
    cases hl

/-- A row leased to `lease` stays as it is under a statement of another consumer, unless that
leases or sweeps it. -/
theorem keep (hother : c.lease ≠ some lease) (hr : r = some row) (hl : row.leaseId = some lease)
    (hclaim : ∀ lease untilMs nowMs limit, c = .leaseBatch q lease untilMs nowMs limit →
      id ∉ l.ready nowMs limit)
    (hsweep : ∀ before, c = .sweepMessages q before → before ≤ row.payload.producedAtMs) :
    r' = some row := by
  cases h with
  | same => exact hr
  | swept row' before hc hold =>
    cases hr
    exact absurd (hsweep before hc) (not_le.2 hold)
  | leased row' lease' untilMs nowMs limit hc hfree hready =>
    exact absurd hready (hclaim lease' untilMs nowMs limit hc)
  | handed row' lease' hc hlease => exact hr
  | acknowledged row' lease' hc hlease =>
    cases hr
    exact absurd (by rw [hc]; exact hlease.symm.trans hl) hother
  | requeued row' row'' lease' delayMs error hc hlease hfree hattempts =>
    cases hr
    exact absurd (by rw [hc]; exact hlease.symm.trans hl) hother
  | inserted => cases hr

/-- A statement that spares a message leaves its row, or puts one nobody holds where none was. -/
theorem spared (hc : c.spares id) :
    r' = r ∨ r = none ∧ ∃ row, r' = some row ∧ row.leaseId = none := by
  cases h with
  | same => exact .inl rfl
  | inserted row hfree hattempts => exact .inr ⟨rfl, row, rfl, hfree⟩
  | handed => exact .inl rfl
  | swept row before h => simp [h, spares] at hc
  | leased row lease untilMs nowMs limit h => simp [h, spares] at hc
  | acknowledged row lease h => simp [h, spares] at hc
  | requeued row row' lease delayMs error h => simp [h, spares] at hc

end

end Touch

/-! ### What a consumer relies on -/

/-- The message a statement settles, and for which lease. -/
def Stmt.settles : Stmt → Option (String × String × String)
  | .acknowledge q id lease => some (q, id, lease)
  | .requeue q id lease _ _ => some (q, id, lease)
  | .deadLetter q id lease _ => some (q, id, lease)
  | .forward q id lease _ _ => some (q, id, lease)
  | _ => none

/-- If the statement settles a message and changes anything, its lease is the one on the message. -/
def SettlesHeld (c : Stmt) (x : Env) (s : Queues) : Prop :=
  ∀ q id lease, c.settles = some (q, id, lease) → (exec c x s).1 ≠ s →
    (s.ledgers q).held id lease

section

variable (reg : Registry) (p : QueueSpec → Bool) (strict : Prop)

/-- The messages of the queues that `p` selects are within their budgets. -/
def WithinBudget (s : Queues) : Prop :=
  ∀ q spec id, reg.spec q = some spec → p spec → Budgeted spec (s.handed q id) (s.row q id)

/-- A claim in a queue that `p` selects finds no message on its last attempt whose lease has run
out. -/
def keepsLastLeases : Stmt → Queues → Bool
  | .leaseBatch q _ _ nowMs _, s => (reg.spec q).all fun spec =>
      !p spec || (s.ledgers q).messages.entries.all fun e =>
        !(e.2.leaseId.isSome && e.2.expired nowMs) || e.2.attempts ≤ spec.maxRetries
  | _, _ => true

/-- A claim in a queue that `p` selects takes no message on its last attempt from its consumer. -/
def takesNoLastLease : Stmt → Queues → Bool
  | .leaseBatch q _ _ nowMs limit, s => (reg.spec q).all fun spec =>
      !p spec || ((s.ledgers q).ready nowMs limit).all fun id => (s.row q id).all fun row =>
        !row.leaseId.isSome || row.attempts ≤ spec.maxRetries
  | _, _ => true

/-- The sweep of a queue that `p` selects drops no leased message on its last attempt. -/
def keepsLastMessages : Stmt → Queues → Bool
  | .sweepMessages q before, s => (reg.spec q).all fun spec =>
      !p spec || (s.ledgers q).messages.entries.all fun e =>
        !(e.2.leaseId.isSome && spec.maxRetries < e.2.attempts) ||
          before ≤ e.2.payload.producedAtMs
  | _, _ => true

/-- What others do leaves the messages leased to `lease` as they are or takes them away, and, in
the strict reading, takes none away that is on its last attempt. -/
structure Undisturbed (lease q : String) (s t : Queues) : Prop where
  back : ∀ id row, t.row q id = some row → row.leaseId = some lease →
    s.row q id = some row ∧ t.handed q id = s.handed q id
  keep : strict → ∀ spec, reg.spec q = some spec → p spec → ∀ id row, s.row q id = some row →
    row.leaseId = some lease → spec.maxRetries < row.attempts → t.row q id = some row

/-- A consumer works under its own lease, keeps the budgets, and, in the strict reading, settles
only what it holds. -/
def contract (lease q : String) : Contract Queues Env Stmt where
  rely := Undisturbed reg p strict lease q
  assume c _ s := takesNoLastLease reg p c s ∧ (strict → keepsLastMessages reg p c s)
  ensure c x s := WithinBudget reg p (exec c x s).1 ∧
    (∀ l, c.lease = some l → l = lease) ∧ (strict → SettlesHeld c x s)

/-- Nothing is leased to `lease`. -/
def Unused (lease : String) (s : Queues) : Prop :=
  ∀ q id row, s.row q id = some row → row.leaseId ≠ some lease

/-- What is leased to `lease` was handed out less often than it was leased. -/
def Unread (lease q : String) (s : Queues) : Prop :=
  ∀ spec id row, reg.spec q = some spec → p spec → s.row q id = some row →
    row.leaseId = some lease → s.handed q id + 1 ≤ row.attempts

/-- A consumer knows the attempts of the messages it still holds, and, in the strict reading, holds
all those on their last attempt. -/
def Knows (spec : QueueSpec) (lease q : String) (ms : List QueueMessage) (s : Queues) : Prop :=
  ∀ m ∈ ms,
    (∀ row, s.row q m.id = some row → row.leaseId = some lease → row.attempts = m.attempts) ∧
    (strict → p spec → spec.maxRetries < m.attempts →
      ∃ row, s.row q m.id = some row ∧ row.leaseId = some lease ∧ row.attempts = m.attempts)

end

variable {reg : Registry} {p : QueueSpec → Bool} {strict : Prop} {lease q : String}
  {s t : Queues} {c : Stmt} {x : Env} {spec : QueueSpec} {m : QueueMessage} {ms : List QueueMessage}
  {untilMs nowMs limit : ℕ} {id : String} {row : MessageRow}

theorem lawful_contract : (contract reg p strict lease q).Lawful where
  refl s := ⟨fun _ _ h _ => ⟨h, rfl⟩, fun _ _ _ _ _ _ h _ _ => h⟩
  trans s t u hst htu := by
    refine ⟨fun id row hu hl => ?_, fun hs spec hspec hp id row hrow hl hlast => ?_⟩
    · obtain ⟨ht, hn⟩ := htu.back id row hu hl
      obtain ⟨hs, hn'⟩ := hst.back id row ht hl
      exact ⟨hs, hn.trans hn'⟩
    · exact htu.keep hs spec hspec hp id row (hst.keep hs spec hspec hp id row hrow hl hlast) hl
        hlast

theorem Unread.rely (h : Unread reg p lease q s) (hst : Undisturbed reg p strict lease q s t) :
    Unread reg p lease q t := by
  intro spec id row hspec hp hrow hl
  obtain ⟨hrow', hn⟩ := hst.back id row hrow hl
  rw [hn]
  exact h spec id row hspec hp hrow' hl

theorem Knows.rely (h : Knows p strict spec lease q ms s)
    (hspec : reg.spec q = some spec) (hst : Undisturbed reg p strict lease q s t) :
    Knows p strict spec lease q ms t := by
  intro m hm
  obtain ⟨hatt, hheld⟩ := h m hm
  refine ⟨fun row hrow hl => hatt row (hst.back m.id row hrow hl).1 hl, fun hs hp hlast => ?_⟩
  obtain ⟨row, hrow, hl, hrow'⟩ := hheld hs hp hlast
  exact ⟨row, hst.keep hs spec hspec hp m.id row hrow hl (hrow' ▸ hlast), hl, hrow'⟩

theorem Unread.step (h : Unread reg p lease q s) (hc : c.lease ≠ some lease) :
    Unread reg p lease q (exec c x s).1 := by
  intro spec id row hspec hp hrow hl
  obtain ⟨hrow', hn⟩ := (touch c x s q id).back hc hrow hl
  rw [hn]
  exact h spec id row hspec hp hrow' hl

/-- What is leased anew has been handed out less often than it was leased. -/
theorem Unread.leaseBatch (h : Unread reg p lease q s) (hb : WithinBudget reg p s) :
    Unread reg p lease q (exec (.leaseBatch q lease untilMs nowMs limit) x s).1 := by
  intro spec id row hspec hp hrow hl
  have hbud := hb q spec id hspec hp
  have hun := h spec id
  have ht := touch (.leaseBatch q lease untilMs nowMs limit) x s q id
  rw [hrow] at ht
  generalize (exec (.leaseBatch q lease untilMs nowMs limit) x s).1.handed q id = n' at ht ⊢
  generalize s.handed q id = n, s.row q id = r at hbud hun ht
  cases ht with
  | same => exact hun row hspec hp rfl hl
  | leased row' lease' untilMs' nowMs' limit' hc hfree => exact Nat.succ_le_succ hbud.1
  | handed row' lease' hc => cases hc
  | requeued row' row'' lease' delayMs error hc => cases hc
  | inserted row' hfree hattempts =>
    rw [hfree] at hl
    cases hl

theorem knows_leased : Knows p strict spec lease q ((s.ledgers q).leased lease)
    (exec (.leased q lease) x s).1 := by
  intro m hm
  obtain ⟨row, hrow, hl, hm'⟩ := Ledger.mem_leased.1 hm
  have hatt : row.attempts = m.attempts := (congrArg QueueMessage.attempts hm').symm
  have hrow' : (exec (.leased q lease) x s).1.row q m.id = some row := hrow
  refine ⟨fun row' h _ => ?_, fun _ _ _ => ⟨row, hrow', hl, hatt⟩⟩
  rw [hrow'] at h
  cases h
  exact hatt

theorem Knows.step (h : Knows p strict spec lease q ms s)
    (hc : ∀ m ∈ ms, c.spares m.id) : Knows p strict spec lease q ms (exec c x s).1 := by
  intro m hm
  obtain ⟨hatt, hheld⟩ := h m hm
  rcases (touch c x s q m.id).spared (hc m hm) with hsame | ⟨hnone, row, hrow, hfree⟩
  · rw [hsame]
    exact ⟨hatt, hheld⟩
  · constructor
    · intro row' hrow' hl
      rw [hrow] at hrow'
      cases hrow'
      rw [hfree] at hl
      cases hl
    · intro hs hp hlast
      obtain ⟨row', hrow', -⟩ := hheld hs hp hlast
      rw [hnone] at hrow'
      cases hrow'

theorem Knows.tail (h : Knows p strict spec lease q (m :: ms) s) :
    Knows p strict spec lease q ms s :=
  fun m' hm' => h m' (mem_cons_of_mem m hm')

theorem Knows.step_tail (h : Knows p strict spec lease q (m :: ms) s)
    (hnodup : ((m :: ms).map QueueMessage.id).Nodup) (hc : ∀ id, m.id ≠ id → c.spares id) :
    Knows p strict spec lease q ms (exec c x s).1 :=
  h.tail.step fun m' hm' => hc m'.id fun h =>
    (nodup_cons.1 hnodup).1 (h ▸ mem_map_of_mem hm')

/-! ### Statements keep the contract -/

theorem attempts_le_of_takesNoLastLease
    (h : takesNoLastLease reg p (.leaseBatch q lease untilMs nowMs limit) s)
    (hspec : reg.spec q = some spec) (hp : p spec) (hrow : s.row q id = some row)
    (hleased : row.leaseId.isSome) (hready : id ∈ (s.ledgers q).ready nowMs limit) :
    row.attempts ≤ spec.maxRetries := by
  simp only [takesNoLastLease, hspec, Option.all_some, hp, Bool.not_true, Bool.false_or,
    all_eq_true] at h
  simpa [hrow, Option.isSome_iff_ne_none.1 hleased] using h id hready

theorem mem_ready {l : Ledger} (h : id ∈ l.ready nowMs limit) :
    ∃ row, l.messages.get id = some row ∧ row.free nowMs := by
  obtain ⟨⟨id, row⟩, hmem, rfl⟩ := mem_map.1 h
  have hmem := mem_of_mem_take hmem
  rw [mem_insertionSort, mem_filter, decide_eq_true_eq] at hmem
  exact ⟨row, (get_eq_some_iff _).2 hmem.1, hmem.2.2⟩

theorem takesNoLastLease_of_keepsLastLeases (h : keepsLastLeases reg p c s) :
    takesNoLastLease reg p c s := by
  cases c with
  | leaseBatch q lease untilMs nowMs limit =>
    simp only [keepsLastLeases, takesNoLastLease, Option.all_eq_true, Bool.or_eq_true,
      all_eq_true] at h ⊢
    refine fun spec hspec => (h spec hspec).imp_right fun h id hready row hrow => ?_
    obtain ⟨row', hrow', hfree⟩ := mem_ready hready
    cases hrow.symm.trans hrow'
    have hkept := h (id, row) ((get_eq_some_iff _).1 hrow')
    by_cases hleased : row.leaseId.isSome
    · have hexp : row.expired nowMs := by
        simpa [MessageRow.free, Option.isSome_iff_ne_none.1 hleased] using hfree
      exact .inr (by simpa [hleased, hexp] using hkept)
    · exact .inl (by simpa using hleased)
  | _ => rfl

theorem le_producedAtMs_of_keepsLastMessages {before : ℕ}
    (h : keepsLastMessages reg p (.sweepMessages q before) s) (hspec : reg.spec q = some spec)
    (hp : p spec) (hrow : s.row q id = some row) (hleased : row.leaseId.isSome)
    (hlast : spec.maxRetries < row.attempts) : before ≤ row.payload.producedAtMs := by
  simp only [keepsLastMessages, hspec, Option.all_some, hp, Bool.not_true, Bool.false_or,
    all_eq_true] at h
  simpa [hleased, hlast] using h (id, row) ((get_eq_some_iff _).1 hrow)

theorem Queues.setLedger_self (s : Queues) (q : String) : s.setLedger q (s.ledgers q) = s := by
  simp [setLedger]

/-- Statements that neither read a lease, nor give back, nor forward a message. -/
def Stmt.quiet : Stmt → Bool
  | .leased _ _ => false
  | .requeue _ _ _ _ _ => false
  | .forward _ _ _ _ _ => false
  | _ => true

theorem settlesHeld_of_guarded (hc : ∀ q id lease target payload,
    c ≠ .forward q id lease target payload) : SettlesHeld c x s := by
  intro q id lease hsettles heffect
  by_contra hheld
  apply heffect
  have hnot : ∀ row, (s.ledgers q).messages.get id = some row → row.leaseId ≠ some lease :=
    fun row hrow hl => hheld (Ledger.held_iff.2 ⟨row, hrow, hl⟩)
  cases c <;> simp only [settles, Option.some.injEq, Prod.mk.injEq, reduceCtorEq] at hsettles
  case acknowledge =>
    obtain ⟨rfl, rfl, rfl⟩ := hsettles
    simp only [exec, Ledger.acknowledge, if_neg hheld, setLedger_self]
  case requeue q' id' lease' delayMs error =>
    obtain ⟨rfl, rfl, rfl⟩ := hsettles
    simp only [exec, Ledger.requeue]
    have hsame : ∀ f : MessageRow → MessageRow, ((s.ledgers q').messages.mapEntries fun k row =>
        if k = id' ∧ row.leaseId = some lease' then f row else row) = (s.ledgers q').messages := by
      intro f
      refine ext_get fun k => ?_
      rw [get_mapEntries]
      cases hk : (s.ledgers q').messages.get k with
      | none => rfl
      | some row =>
        rw [Option.map_some, if_neg]
        rintro ⟨rfl, hl⟩
        exact hnot row hk hl
    rw [hsame, setLedger_self]
  case deadLetter q' id' lease' error =>
    obtain ⟨rfl, rfl, rfl⟩ := hsettles
    simp only [exec, Ledger.deadLetter]
    cases hrow : (s.ledgers q').messages.get id' with
    | none => exact setLedger_self s q'
    | some row =>
      simp only [if_neg (hnot row hrow)]
      exact setLedger_self s q'
  case forward q' id' lease' target payload => exact absurd rfl (hc q' id' lease' target payload)

section

variable (hb : WithinBudget reg p s)
  (hread : ∀ q lease, c = .leased q lease → Unread reg p lease q s)
  (hrequeue : ∀ q id lease delayMs error spec row, c = .requeue q id lease delayMs error →
    reg.spec q = some spec → s.row q id = some row → row.leaseId = some lease →
    row.attempts ≤ spec.maxRetries)

include hb hread hrequeue

theorem WithinBudget.step (hclaim : takesNoLastLease reg p c s) :
    WithinBudget reg p (exec c x s).1 := by
  intro q spec id hspec hp
  refine (touch c x s q id).budgeted (hb q spec id hspec hp) ?_ ?_ ?_
  · rintro lease untilMs nowMs limit row rfl hrow hleased hready
    exact attempts_le_of_takesNoLastLease hclaim hspec hp hrow hleased hready
  · intro lease row hc hrow hl
    exact hread q lease hc spec id row hspec hp hrow hl
  · intro lease delayMs error row hc hrow hl
    exact hrequeue q id lease delayMs error spec row hc hspec hrow hl

/-- A statement under the lease keeps the contract if it reads a lease once, gives back only what
has an attempt left and forwards only what is held. -/
theorem ensure_of (hx : (contract reg p strict lease q).assume c x s)
    (hlease : c.lease = none ∨ c.lease = some lease)
    (hforward : ∀ q id lease target payload, c = .forward q id lease target payload → strict →
      (s.ledgers q).held id lease) : (contract reg p strict lease q).ensure c x s := by
  refine ⟨hb.step hread hrequeue hx.1, fun l hl => ?_, fun hs => ?_⟩
  · rcases hlease with h | h <;> rw [h] at hl <;> cases hl
    rfl
  · by_cases hc : ∃ q id lease target payload, c = .forward q id lease target payload
    · obtain ⟨q, id, lease, target, payload, rfl⟩ := hc
      rintro _ _ _ ⟨⟩ -
      exact hforward q id lease target payload rfl hs
    · exact settlesHeld_of_guarded fun q id lease target payload h =>
        hc ⟨q, id, lease, target, payload, h⟩

end

/-! ### Programs keep the contract -/

section

variable (reg p strict lease q)

/-- A program that keeps the contract of the consumer `lease` of the queue `q`. -/
abbrev Keeps {α : Type} (post : α → Queues → Prop) (k : QueueProg α) (s : Queues) : Prop :=
  Safe exec (WithinBudget reg p) (contract reg p strict lease q) post k s

end

variable {α : Type} {post : α → Queues → Prop} {evs : List (Event String Request Env)}

theorem keeps_ret {a : α} (h : ∀ t, Undisturbed reg p strict lease q s t → post a t) :
    Keeps reg p strict lease q post (.ret a) s := h

theorem keeps_done {a : α} : Keeps reg p strict lease q (fun _ _ => True) (.ret a) s :=
  fun _ _ => trivial

variable {f : c.Ans → QueueProg α} {pool : QueuePool}

theorem keeps_quiet (hc : c.quiet) (hlease : c.lease = none ∨ c.lease = some lease)
    (hnext : ∀ t x, Undisturbed reg p strict lease q s t → WithinBudget reg p t →
      Keeps reg p strict lease q post (f (exec c x t).2) (exec c x t).1) :
    Keeps reg p strict lease q post (.cmd c f) s :=
  fun t hst hb x hx => ⟨ensure_of hb (by rintro _ _ rfl; cases hc)
    (by rintro _ _ _ _ _ _ _ rfl; cases hc) hx hlease (by rintro _ _ _ _ _ rfl; cases hc),
    hnext t x hst hb⟩

theorem keeps_before (hu : Unread reg p lease q s) (hc : c.quiet) (hlease : c.lease = none)
    (hnext : ∀ t a, Unread reg p lease q t → Keeps reg p strict lease q post (f a) t) :
    Keeps reg p strict lease q post (.cmd c f) s :=
  keeps_quiet hc (.inl hlease) fun t x hst _ =>
    hnext (exec c x t).1 (exec c x t).2 ((hu.rely hst).step (by simp [hlease]))

theorem keeps_enqueue (messages : List (String × SendMessage)) :
    Keeps reg p strict lease q (fun _ _ => True) (enqueue reg q messages) s := by
  unfold enqueue
  split
  · exact keeps_done
  split_ifs
  · exact keeps_done
  refine keeps_quiet rfl (.inl rfl) fun t x _ _ => ?_
  split
  · exact keeps_done
  refine keeps_quiet rfl (.inl rfl) fun t x _ _ => ?_
  rw [ret_bind]
  split_ifs
  · exact keeps_quiet rfl (.inl rfl) fun t x _ _ => keeps_done
  · exact keeps_done

theorem keeps_lease (spec : QueueSpec) {f : List QueueMessage → QueueProg α}
    (hu : Unread reg p lease q s)
    (hnext : ∀ t ms, Knows p strict spec lease q ms t → (ms.map QueueMessage.id).Nodup →
      Keeps reg p strict lease q post (f ms) t) : Keeps reg p strict lease q post
      (.cmd (.leaseBatch q lease untilMs nowMs limit) fun _ => .cmd (.leased q lease) f) s := by
  refine keeps_quiet rfl (.inr rfl) fun t x hst hb => ?_
  have hu' : Unread reg p lease q
      (exec (.leaseBatch q lease untilMs nowMs limit) x t).1 := (hu.rely hst).leaseBatch hb
  intro t' hst' hb' x' hx'
  refine ⟨ensure_of hb' ?_ nofun hx' (.inr rfl) nofun,
    hnext _ _ knows_leased (Ledger.nodup_leased _ lease)⟩
  rintro _ _ ⟨⟩
  exact hu'.rely hst'

theorem keeps_enqueueExisting {target : String}
    (hspec : reg.spec q = some spec) (hp : p spec) (hlast : spec.maxRetries < m.attempts)
    (hk : Knows p strict spec lease q (m :: ms) s) :
    Keeps reg p strict lease q (fun _ t => Knows p strict spec lease q (m :: ms) t)
      (enqueueExisting reg q lease target m) s := by
  have hret : ∀ (a : Except String Unit) s', Knows p strict spec lease q (m :: ms) s' →
      Keeps reg p strict lease q (fun _ t => Knows p strict spec lease q (m :: ms) t) (.ret a) s' :=
    fun a s' hk' => keeps_ret fun t hst => hk'.rely hspec hst
  unfold enqueueExisting
  split
  · exact hret _ s hk
  split
  · exact hret _ s hk
  intro t hst hb x hx
  have hkt := hk.rely hspec hst
  refine ⟨ensure_of hb nofun nofun hx (.inr rfl) ?_, ?_⟩
  · rintro _ _ _ _ _ ⟨⟩ hs
    obtain ⟨row, hrow, hl, -⟩ := (hkt m mem_cons_self).2 hs hp hlast
    exact Ledger.held_iff.2 ⟨row, hrow, hl⟩
  · have hkt' : Knows p strict spec lease q (m :: ms)
        (exec (.forward q m.id lease target m.payload) x t).1 := hkt.step fun _ _ => rfl
    simp only [ret_bind]
    split_ifs
    · exact keeps_quiet rfl (.inl rfl) fun u x hu _ =>
        hret _ _ ((hkt'.rely hspec hu).step fun _ _ => rfl)
    · exact hret _ _ hkt'

theorem keeps_moveToDeadLetter {error : String}
    (hspec : reg.spec q = some spec) (hp : spec.deadLetterQueue.isSome → p spec)
    (hlast : spec.maxRetries < m.attempts) (hk : Knows p strict spec lease q (m :: ms) s)
    (hnodup : ((m :: ms).map QueueMessage.id).Nodup) :
    Keeps reg p strict lease q (fun _ t => Knows p strict spec lease q ms t)
      (moveToDeadLetter reg q spec lease m error) s := by
  refine keeps_quiet rfl (.inr rfl) fun t x hst _ => ?_
  have hkt := (hk.rely hspec hst).step (c := .deadLetter q m.id lease (truncateError error))
    (x := x) fun _ _ => rfl
  have hforward : Keeps reg p strict lease q
      (fun _ t => Knows p strict spec lease q (m :: ms) t) (forwardDead reg q spec lease m)
      (exec (.deadLetter q m.id lease (truncateError error)) x t).1 := by
    unfold forwardDead
    split
    · exact keeps_ret fun u hu => hkt.rely hspec hu
    · rename_i target hdlq
      exact keeps_enqueueExisting hspec (hp (by simp [hdlq])) hlast hkt
  refine hforward.seq lawful_contract fun copied u hku => ?_
  cases copied with
  | error e => exact keeps_ret fun v hv => hku.tail.rely hspec hv
  | ok _ =>
    refine keeps_quiet rfl (.inr rfl) fun v x hv _ => keeps_ret fun w hw => ?_
    refine Knows.rely ((hku.rely hspec hv).step_tail hnodup fun id hne => ?_) hspec hw
    simpa [spares] using hne

theorem keeps_settleMessages (delivery : Except String (List MessageAction))
    (hspec : reg.spec q = some spec) (hp : spec.deadLetterQueue.isSome → p spec)
    (consumed : ℕ) (hk : Knows p strict spec lease q ms s)
    (hnodup : (ms.map QueueMessage.id).Nodup) : Keeps reg p strict lease q (fun _ _ => True)
      (settleMessages reg q spec lease delivery ms consumed) s := by
  induction ms generalizing s consumed with
  | nil => exact keeps_done
  | cons m ms ih =>
    have hnodup' := (nodup_cons.1 hnodup).2
    unfold settleMessages
    split_ifs with hretry hleft
    · intro t hst hb x hx
      have hkt := hk.rely hspec hst
      refine ⟨ensure_of hb nofun ?_ hx (.inr rfl) nofun, ih _ ?_ hnodup'⟩
      · rintro _ _ _ _ _ _ row ⟨⟩ hspec' hrow hl
        cases hspec.symm.trans hspec'
        rw [(hkt m mem_cons_self).1 row hrow hl]
        exact hleft
      · exact hkt.step_tail hnodup fun id hne => by simpa [spares] using hne
    · refine (keeps_moveToDeadLetter hspec hp (not_le.1 hleft) hk hnodup).seq lawful_contract
        fun moved u hku => ?_
      cases moved with
      | error e => exact keeps_done
      | ok _ => exact ih _ hku hnodup'
    · refine keeps_quiet rfl (.inr rfl) fun t x hst _ => ih _ ?_ hnodup'
      exact (hk.rely hspec hst).step_tail hnodup fun id hne => by simpa [spares] using hne

theorem keeps_consume (hp : ∀ spec : QueueSpec, spec.deadLetterQueue.isSome → p spec)
    (hu : Unread reg p lease q s) :
    Keeps reg p strict lease q (fun _ _ => True) (consume reg q lease) s := by
  unfold consume
  split
  · exact keeps_done
  rename_i spec hspec
  split_ifs
  · exact keeps_done
  refine keeps_before hu rfl rfl fun t nowMs hu => ?_
  refine keeps_before hu rfl rfl fun t _ hu => ?_
  refine keeps_before hu rfl rfl fun t _ hu => ?_
  refine keeps_lease spec hu fun t ms hk hnodup => ?_
  rw [ret_bind]
  split_ifs
  · exact keeps_done
  refine keeps_quiet rfl (.inl rfl) fun t x hst _ => ?_
  refine (keeps_settleMessages _ hspec (hp spec) 0 ((hk.rely hspec hst).step fun _ _ => rfl)
    hnodup).seq lawful_contract fun settled u _ => ?_
  cases settled with
  | error e => exact keeps_done
  | ok consumed =>
    dsimp only
    split_ifs
    · exact keeps_quiet rfl (.inl rfl) fun _ _ _ _ => keeps_done
    · exact keeps_done

theorem keeps_receiveOne (hu : Unread reg p lease q s) :
    Keeps reg p strict lease q (fun _ _ => True) (receiveOne reg q lease) s := by
  unfold receiveOne
  split
  · exact keeps_done
  rename_i spec hspec
  split_ifs
  · exact keeps_done
  refine keeps_before hu rfl rfl fun t nowMs hu => ?_
  refine keeps_before hu rfl rfl fun t _ hu => ?_
  refine keeps_lease spec hu fun t ms hk hnodup => ?_
  cases ms with
  | nil => exact keeps_done
  | cons m ms =>
  refine keeps_quiet rfl (.inr rfl) fun t x hst _ => ?_
  rw [ret_bind]
  split_ifs
  · exact keeps_quiet rfl (.inl rfl) fun _ _ _ _ => keeps_done
  · exact keeps_done

/-! ### Every interleaving -/

abbrev QueuePool := Pool Queues String Request Stmt Stmt.Ans (Except String Unit)

/-- What a consumer may do is something every other consumer relies on. -/
theorem undisturbed_exec {lease' q' : String} (hne : lease' ≠ lease)
    (hx : (contract reg p strict lease q).assume c x s) (hc : ∀ l, c.lease = some l → l = lease) :
    Undisturbed reg p strict lease' q' s (exec c x s).1 := by
  have hother : c.lease ≠ some lease' := fun h => hne (hc lease' h)
  refine ⟨fun id row hrow hl => (touch c x s q' id).back hother hrow hl,
    fun hs spec hspec hp id row hrow hl hlast => ?_⟩
  have hleased : row.leaseId.isSome := by simp [hl]
  refine (touch c x s q' id).keep hother hrow hl ?_ ?_
  · rintro lease'' untilMs nowMs limit rfl hready
    have hle := attempts_le_of_takesNoLastLease hx.1 hspec hp hrow hleased hready
    exact absurd hle (not_le.2 hlast)
  · rintro before rfl
    exact le_producedAtMs_of_keepsLastMessages (hx.2 hs) hspec hp hrow hleased hlast

theorem unused_exec {lease' : String} (hne : lease' ≠ lease)
    (hc : ∀ l, c.lease = some l → l = lease) (h : Unused lease' s) :
    Unused lease' (exec c x s).1 := by
  intro q id row hrow hl
  exact h q id row ((touch c x s q id).back (fun h' => hne (hc lease' h')) hrow hl).1 hl

/-- The commands of a run meet what the contracts assume. -/
def Assumed (reg : Registry) (p : QueueSpec → Bool) (strict : Prop) (pool : QueuePool)
    (e : Event String Request Env) : Prop :=
  OnCommand (fun _ _ c _ s => takesNoLastLease reg p c s ∧ (strict → keepsLastMessages reg p c s))
    pool e

theorem fits_contract (hp : ∀ spec : QueueSpec, spec.deadLetterQueue.isSome → p spec) :
    Fits (machine reg) (Assumed reg p strict) (WithinBudget reg p) Unused
      (fun lease r => contract reg p strict lease r.queue) where
  lawful _ _ := lawful_contract
  assumes _ _ _ r c next h hid := h r c next hid
  keeps _ _ _ _ _ _ _ hc := hc.1
  ignores _ _ _ _ _ _ hne hc h := unused_exec hne hc.2.1 h
  tolerates _ lease _ r c next _ _ _ _ hne h hid _ _ hc :=
    undisturbed_exec (q := r.queue) hne (h r c next hid) hc.2.1
  starts pool lease r _ _ hfresh := by
    have hu : Unread reg p lease r.queue pool.store := fun _ id row _ _ hrow hl =>
      absurd hl (hfresh r.queue id row hrow)
    cases r with
    | enqueue queue messages => exact keeps_enqueue messages
    | consume queue => exact keeps_consume hp hu
    | receiveOne queue => exact keeps_receiveOne hu

/-- Nothing sent, nobody at work. -/
def quietPool : QueuePool := Pool.idle empty

theorem sound_quietPool : quietPool.Sound exec (WithinBudget reg p) Unused
      (fun lease r => contract reg p strict lease r.queue) :=
  Pool.Sound.idle _ _ (fun _ _ _ _ _ => Nat.zero_le _) fun _ _ _ _ h => nomatch h

/-- The claims of a run find no message on its last attempt whose lease has run out. -/
def LastAttemptsSettled (reg : Registry) (pool : QueuePool) (e : Event String Request Env) :
    Prop :=
  OnCommand (fun _ _ c _ s => keepsLastLeases reg (fun _ => true) c s) pool e

/-- **The retry budget.**  In every run of producers and consumers in which no message on its last
attempt loses its consumer, no message is handed out more than `max_retries + 1` times. -/
theorem handed_le_budget (reg : Registry)
    (hm : Runs.Meets (machine reg).step (LastAttemptsSettled reg) quietPool evs)
    (hr : run (machine reg).step quietPool evs = some pool)
    {queue : String} (hspec : reg.spec queue = some spec) (id : String) :
    pool.store.handed queue id ≤ spec.maxRetries + 1 := by
  have hF : Fits (machine reg) (Assumed reg (fun _ => true) False) (WithinBudget reg fun _ => true)
      Unused fun lease r => contract reg (fun _ => true) False lease r.queue :=
    fits_contract fun _ _ => rfl
  refine ((sound_run hF sound_quietPool ?_ hr).holds queue spec id hspec rfl).le
  refine hm.imp fun pool e he => ?_
  cases e with
  | step lease x =>
    exact fun r c next hid => ⟨takesNoLastLease_of_keepsLastLeases (he r c next hid), False.elim⟩
  | start => trivial
  | kill => trivial

/-- No retries, a lease of a second, and dead letters go to another queue. -/
def sampleSpec : QueueSpec :=
  { maxRetries := 0, visibilityTimeoutMs := 1000, deadLetterQueue := some "failed" }

/-- Two queues, the second for the dead letters of the first. -/
def sampleRegistry : Registry where
  spec := fun queue =>
    if queue = "jobs" then some sampleSpec
    else if queue = "failed" then some {}
    else none
  validateMessage := fun _ => .ok ()

/-- A message is sent. -/
def sampleSend : List (Event String Request Env) :=
  [.start "P" (.enqueue "jobs" [("m1", { body := "1" })]), .step "P" {}, .step "P" {}, .step "P" {}]

/-- A consumer claims at `nowMs`: clock, two sweeps, lease, read. -/
def sampleClaim (lease : String) (nowMs : ℕ) : List (Event String Request Env) :=
  .start lease (.consume "jobs") :: replicate 5 (.step lease { nowMs := nowMs })

/-- A consumer claims the message and dies; another claims it once the lease has run out. -/
def abandoned : List (Event String Request Env) :=
  sampleSend ++ sampleClaim "A" 0 ++ [.kill "A"] ++ sampleClaim "B" 5000

/-- A message without retries is handed out a second time after its first consumer died. -/
theorem abandoned_handed_twice :
    ∃ pool, run (machine sampleRegistry).step quietPool abandoned = some pool ∧
      sampleRegistry.spec "jobs" = some sampleSpec ∧
      sampleSpec.maxRetries + 1 < pool.store.handed "jobs" "m1" := by
  refine exists_of_view (·.store.handed "jobs" "m1") (v := 2) (by decide +kernel)
    fun pool _ hcount => ⟨rfl, ?_⟩
  rw [hcount]
  decide

/-- The Worker fails once, and the message is a dead letter. -/
def failedOnce : List (Event String Request Env) :=
  sampleSend ++ sampleClaim "A" 0 ++
    .step "A" { delivery := .error "boom" } :: replicate 4 (.step "A" { nowMs := 10 })

theorem handed_le_budget_failedOnce :
    ∃ pool, run (machine sampleRegistry).step quietPool failedOnce = some pool ∧
      pool.store.handed "jobs" "m1" ≤ sampleSpec.maxRetries + 1 := by
  have hm : Runs.Meets (machine sampleRegistry).step (LastAttemptsSettled sampleRegistry) quietPool
      failedOnce := by
    unfold LastAttemptsSettled
    decide +kernel
  exact exists_of_view (fun _ => ()) (v := ()) (by decide +kernel) fun pool hrun _ =>
    handed_le_budget sampleRegistry hm hrun
      (show sampleRegistry.spec "jobs" = some sampleSpec from rfl) "m1"

/-- In queues with a dead-letter queue, messages on their last attempt are neither claimed after
their lease has run out nor swept while they are leased. -/
def LastAttemptsKept (reg : Registry) (pool : QueuePool) (e : Event String Request Env) : Prop :=
  OnCommand (fun _ _ c _ s => takesNoLastLease reg (·.deadLetterQueue.isSome) c s ∧
    keepsLastMessages reg (·.deadLetterQueue.isSome) c s) pool e

/-- **Only the holder of a lease decides.**  In every run of consumers in which messages on their
last attempt are not taken from them, whatever a consumer does to settle a message changes
something only if the lease on the message is its own. -/
theorem settles_only_held (reg : Registry)
    (hm : Runs.Meets (machine reg).step (LastAttemptsKept reg) quietPool evs)
    (hr : run (machine reg).step quietPool evs = some pool) {lease : String} {c : Stmt}
    (hnext : pool.next lease = some c) {queue id holder : String}
    (hsettles : c.settles = some (queue, id, holder)) {x : Env}
    (heffect : (exec c x pool.store).1 ≠ pool.store) :
    holder = lease ∧ (pool.store.ledgers queue).held id lease := by
  have hF : Fits (machine reg) (Assumed reg (·.deadLetterQueue.isSome) True)
      (WithinBudget reg (·.deadLetterQueue.isSome)) Unused
      fun lease r => contract reg (·.deadLetterQueue.isSome) True lease r.queue :=
    fits_contract fun _ h => h
  have hsound := sound_run hF sound_quietPool (hm.imp fun pool e he => by
    cases e with
    | step lease x => exact fun r c next hid => ⟨(he r c next hid).1, fun _ => (he r c next hid).2⟩
    | start => trivial
    | kill => trivial) hr
  obtain ⟨r, k, hid⟩ := Pool.next_eq_some.1 hnext
  have hx : (contract reg (·.deadLetterQueue.isSome) True lease r.queue).assume c x pool.store := by
    cases c <;> first | exact ⟨rfl, fun _ => rfl⟩ | cases hsettles
  have hc := hsound.ensure lawful_contract hid hx
  have hown : holder = lease := hc.2.1 holder (by
    cases c <;> simp_all [Stmt.settles, Stmt.lease])
  exact ⟨hown, hown ▸ hc.2.2 trivial queue id holder hsettles heffect⟩

/-- A copy into a queue without the message changes that queue. -/
theorem exec_forward_ne {id target : String} {payload : Payload} (h : s.row target id = none) :
    (exec (.forward q id lease target payload) x s).1 ≠ s := by
  intro heq
  have hget : (s.ledgers target).messages.get id = none := h
  have hrow := congrArg (fun s => s.row target id) heq
  simp [exec, hget, h, Ledger.enqueueExisting, row_setLedger] at hrow

/-- The statement that copies the sample message. -/
def sampleForward : Stmt := .forward "jobs" "m1" "A" "failed" { body := "1", producedAtMs := 0 }

/-- A consumer whose Worker failed, about to copy the message. -/
def failing : List (Event String Request Env) :=
  sampleSend ++ sampleClaim "A" 0 ++ [.step "A" { delivery := .error "boom" }, .step "A" {}]

theorem settles_only_held_failing :
    ∃ pool, run (machine sampleRegistry).step quietPool failing = some pool ∧
      pool.next "A" = some sampleForward ∧ (pool.store.ledgers "jobs").held "m1" "A" := by
  obtain ⟨pool, hrun, hview⟩ : ∃ pool ∈ run (machine sampleRegistry).step quietPool failing,
      pool.next "A" = some sampleForward ∧ pool.store.row "failed" "m1" = none := by decide +kernel
  have hm : Runs.Meets (machine sampleRegistry).step (LastAttemptsKept sampleRegistry) quietPool
      failing := by
    unfold LastAttemptsKept
    decide +kernel
  exact ⟨pool, hrun, hview.1, (settles_only_held sampleRegistry hm hrun hview.1 (x := {}) rfl
    (exec_forward_ne hview.2)).2⟩

/-- A consumer whose Worker fails after the lease has run out, and another that has claimed and
acknowledged the message in between. -/
def forwardedLate : List (Event String Request Env) :=
  sampleSend ++ sampleClaim "A" 0 ++ sampleClaim "B" 5000 ++
    [.step "B" {}, .step "B" {}, .step "B" {}, .step "A" { delivery := .error "boom" },
      .step "A" {}]

/-- The message was consumed by another, and is now copied into the dead-letter queue. -/
theorem forwardedLate_settles_unheld :
    ∃ pool c, run (machine sampleRegistry).step quietPool forwardedLate = some pool ∧
      pool.next "A" = some c ∧ c.settles = some ("jobs", "m1", "A") ∧
      (exec c {} pool.store).1 ≠ pool.store ∧ ¬ (pool.store.ledgers "jobs").held "m1" "A" ∧
      (pool.store.ledgers "jobs").totalConsumed = 1 := by
  obtain ⟨pool, hrun, hnext, hnone, hheld⟩ :
      ∃ pool ∈ run (machine sampleRegistry).step quietPool forwardedLate,
        pool.next "A" = some sampleForward ∧ pool.store.row "failed" "m1" = none ∧
        ¬ (pool.store.ledgers "jobs").held "m1" "A" ∧
        (pool.store.ledgers "jobs").totalConsumed = 1 := by decide +kernel
  exact ⟨pool, _, hrun, hnext, rfl, exec_forward_ne hnone, hheld⟩

end Queue

end RandallFlare
