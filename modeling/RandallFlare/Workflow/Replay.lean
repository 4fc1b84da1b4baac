import RandallFlare.Workflow.Fence

/-!
# Replay

A workflow that was parked or lost its runner is run again from the start, and its calls are
answered from what the ledger holds.  The result of a step is a row of its own, which no later
statement changes.  A signal leaves only the mark that it was delivered: a replay that comes to the
same wait again looks for a signal without the mark.

* `StepDone`, `Delivered`: what the ledger holds of a step and of a signal, and which statements can
  add to it;
* `replayContract`: what a runner relies on: while it holds the lease, nothing is recorded or
  delivered for its instance but by itself;
* `AsksOnce`: the runs in which no replay asks for a signal of a name of which one was delivered;
* `replays_agree`: in such runs all replays hand a call the same value, and a runner that holds the
  lease neither runs a step nor waits for a signal that has been handed;
* `secondSignal_handed`: a replay is handed the next signal at a call that had one.
-/

namespace RandallFlare

namespace Workflow

open Programs Prog Ledger SortedMap Pool List

/-! ### What statements add -/

variable {c : Stmt} {x : Env} {s : Ledger} {id lease name sig payloadJson : String} {h : Handed}
  {pid : String}

/-- Only a claim makes an instance run under a lease. -/
theorem runsUnder_of_exec (h : (exec c x s).1.runsUnder id lease) : s.runsUnder id lease ∨
      ∃ nowMs maxRunning group limit, c = .claim id lease nowMs maxRunning group limit := by
  obtain ⟨i, hi, hruns⟩ := runsUnder_iff.1 h
  obtain ⟨j, hj, -, -, hturn⟩ := instance_exec hi
  have hback : i.status = j.status ∧ i.leaseToken = j.leaseToken → s.runsUnder id lease :=
    fun h => runsUnder_iff.2 ⟨j, hj, by simpa [Instance.runsUnder, h] using hruns⟩
  simp only [Instance.runsUnder, decide_eq_true_eq] at hruns
  cases hturn with
  | same _ heq => exact .inl (hback (by simp [heq]))
  | claimed _ hrun =>
    cases hruns.2.symm.trans hrun.2
    exact .inr ⟨_, _, _, _, rfl⟩
  | renewed hold hrun => exact .inl (hback ⟨hrun.1.trans hold.symm, hrun.2⟩)
  | parked hwait => simp [hwait] at hruns
  | ended _ _ hend => simp [hruns, Status.terminal] at hend
  | freed _ hfree => simp [hruns] at hfree

/-- Only a record under the lease makes a step done. -/
theorem stepDone_of_exec
    {resultJson : Option String} (h : StepDone (exec c x s).1 id name resultJson) :
    StepDone s id name resultJson ∨
      ∃ lease outcome, c = .recordStep id name lease outcome ∧ s.runsUnder id lease := by
  obtain ⟨row, hrow, hok, hres⟩ := h
  rcases step_exec c x s id name with hsame | ⟨lease, outcome, hc, hruns, -⟩ |
    ⟨_, _, new, -, -, -, hnew, hslept⟩ | ⟨old, hold, hnew⟩ | ⟨_, -, -, hnew⟩
  · exact .inl ⟨row, hsame.symm.trans hrow, hok, hres⟩
  · exact .inr ⟨lease, outcome, hc, hruns⟩
  · cases hrow.symm.trans hnew
    cases hok.symm.trans hslept
  · cases hrow.symm.trans hnew
    exact .inl ⟨old, hold, hok, hres⟩
  · cases hrow.symm.trans hnew

/-- The signal was delivered with this payload. -/
def Delivered (s : Ledger) (sig id name payloadJson : String) : Prop :=
  ∃ row, s.signals.get sig = some row ∧ row.instanceId = id ∧ row.name = name ∧
    row.payloadJson = payloadJson ∧ row.deliveredAtMs.isSome

/-- A statement keeps every signal, and the mark that it was delivered. -/
theorem signal_exec (c : Stmt) (x : Env) {row : SignalRow} (h : s.signals.get sig = some row) :
    ∃ row', (exec c x s).1.signals.get sig = some row' ∧
      row'.instanceId = row.instanceId ∧ row'.name = row.name ∧ row'.payloadJson = row.payloadJson ∧
      (row.deliveredAtMs.isSome → row'.deliveredAtMs.isSome) := by
  rcases Ledger.signal_exec c x s sig with hsame | ⟨_, _, old, -, -, hold, hnew⟩ |
    ⟨_, _, _, _, -, hnone, -⟩
  · exact ⟨row, hsame.trans h, rfl, rfl, rfl, fun hd => hd⟩
  · cases h.symm.trans hold
    exact ⟨_, hnew, rfl, rfl, rfl, fun _ => rfl⟩
  · cases h.symm.trans hnone

theorem delivered_exec (c : Stmt) (x : Env) (h : Delivered s sig id name payloadJson) :
    Delivered (exec c x s).1 sig id name payloadJson := by
  obtain ⟨row, hrow, rfl, rfl, rfl, hd⟩ := h
  obtain ⟨row', hrow', hid, hname, hpayload, hd'⟩ := signal_exec c x hrow
  exact ⟨row', hrow', hid, hname, hpayload, hd' hd⟩

/-- Only a delivery under a lease marks a signal. -/
theorem delivered_of_exec (h : Delivered (exec c x s).1 sig id name payloadJson) :
    Delivered s sig id name payloadJson ∨
      ∃ id' lease row, c = .deliverSignal sig id' lease ∧ s.runsUnder id' lease ∧
        s.signals.get sig = some row ∧ row.instanceId = id ∧ row.name = name := by
  obtain ⟨row, hrow, hid, hname, hpayload, hd⟩ := h
  rcases Ledger.signal_exec c x s sig with hsame | ⟨id', lease, old, hc, hruns, hold, hnew⟩ |
    ⟨_, _, _, _, -, -, hnew⟩
  · exact .inl ⟨row, hsame.symm.trans hrow, hid, hname, hpayload, hd⟩
  · cases hrow.symm.trans hnew
    exact .inr ⟨id', lease, old, hc, hruns, hold, hid, hname⟩
  · cases hrow.symm.trans hnew
    cases hd

/-- Only the runtime notes what it hands to the code of a workflow. -/
theorem mem_handed_of_exec (hh : h ∈ (exec c x s).1.handed) : h ∈ s.handed ∨ c = .hand h := by
  cases c
  case hand h' =>
    obtain rfl | hmem := mem_cons.1 hh
    · exact .inr rfl
    · exact .inl hmem
  all_goals exact .inl (by simpa [exec, expireLeases] using hh)

/-! ### The contract of a runner -/

/-- No signal of the name was delivered. -/
def Unsent (s : Ledger) (id name : String) : Prop :=
  ∀ sig payloadJson, ¬ Delivered s sig id name payloadJson

/-- Where a handed value comes from. -/
def HandedFrom (s : Ledger) (h : Handed) : Prop :=
  if h.signal then ∃ sig, Delivered s sig h.instanceId h.name h.valueJson
  else ∃ resultJson, StepDone s h.instanceId h.name resultJson ∧
    resultJson.getD "null" = h.valueJson

/-- What every handed value came from is still there, and no name had two signals delivered. -/
structure Faithful (s : Ledger) : Prop where
  handed : ∀ h ∈ s.handed, HandedFrom s h
  once : ∀ sig sig' id name v v', Delivered s sig id name v → Delivered s sig' id name v' →
    sig = sig'

/-- What others do to a runner: they undo nothing, and if it still holds a lease they have recorded
and delivered nothing for that instance. -/
structure Steady (pid : String) (s t : Ledger) : Prop where
  done : ∀ id name resultJson, StepDone s id name resultJson → StepDone t id name resultJson
  signal : ∀ sig row, s.signals.get sig = some row → ∃ row', t.signals.get sig = some row' ∧
    row'.instanceId = row.instanceId ∧ row'.name = row.name ∧ row'.payloadJson = row.payloadJson ∧
    (row.deliveredAtMs.isSome → row'.deliveredAtMs.isSome)
  lease : ∀ id, t.runsUnder id pid → s.runsUnder id pid
  undone : ∀ id name resultJson, t.runsUnder id pid → StepDone t id name resultJson →
    StepDone s id name resultJson
  unsent : ∀ id name, t.runsUnder id pid → Unsent s id name → Unsent t id name

/-- What a runner's statement satisfies: it names its own lease, runs no step that is done, waits
for no signal that was delivered and delivers no second one, and hands what the ledger holds. -/
def Replays (pid : String) (s : Ledger) : Stmt → Prop
  | .claim _ lease _ _ _ _ => lease = pid
  | .recordStep _ _ lease _ => lease = pid
  | .deliverSignal sig id lease => lease = pid ∧ ∀ row, s.signals.get sig = some row →
      row.instanceId = id ∧ (s.runsUnder id pid → Unsent s id row.name)
  | .execute id name => s.runsUnder id pid → ∀ resultJson, ¬ StepDone s id name resultJson
  | .park id _ none name => s.runsUnder id pid → Unsent s id name
  | .hand h => HandedFrom s h
  | _ => True

/-- No signal of the name asked for was delivered. -/
def Stmt.asksOnce (s : Ledger) : Stmt → Bool
  | .firstSignal id name => !s.signals.values.any fun row =>
      row.instanceId = id && row.name = name && row.deliveredAtMs.isSome
  | _ => true

def replayContract (pid : String) : Contract Ledger Env Stmt where
  rely := Steady pid
  assume c _ s := c.asksOnce s
  ensure c _ s := Replays pid s c

theorem lawful_replayContract (pid : String) : (replayContract pid).Lawful where
  refl _ := ⟨fun _ _ _ h => h, fun _ row h => ⟨row, h, rfl, rfl, rfl, fun hd => hd⟩, fun _ h => h,
    fun _ _ _ _ h => h, fun _ _ _ h => h⟩
  trans s t u hst htu := by
    refine ⟨fun id name r h => htu.done id name r (hst.done id name r h), fun sig row h => ?_,
      fun id h => hst.lease id (htu.lease id h),
      fun id name r hu h => hst.undone id name r (htu.lease id hu) (htu.undone id name r hu h),
      fun id name hu h => htu.unsent id name hu (hst.unsent id name (htu.lease id hu) h)⟩
    obtain ⟨row', h', hid, hname, hp, hd⟩ := hst.signal sig row h
    obtain ⟨row'', h'', hid', hname', hp', hd'⟩ := htu.signal sig row' h'
    exact ⟨row'', h'', hid'.trans hid, hname'.trans hname, hp'.trans hp, fun h => hd' (hd h)⟩

theorem Steady.delivered {t : Ledger} (h : Steady pid s t)
    (hd : Delivered s sig id name payloadJson) : Delivered t sig id name payloadJson := by
  obtain ⟨row, hrow, rfl, rfl, rfl, hmark⟩ := hd
  obtain ⟨row', hrow', hid, hname, hp, hmark'⟩ := h.signal sig row hrow
  exact ⟨row', hrow', hid, hname, hp, hmark' hmark⟩

theorem unsent_of_asksOnce (h : (Stmt.firstSignal id name).asksOnce s) : Unsent s id name := by
  rintro sig payloadJson ⟨row, hrow, hid, hname, -, hmark⟩
  have hnone : ∀ row ∈ s.signals.values,
      ¬ (row.instanceId = id ∧ row.name = name ∧ row.deliveredAtMs.isSome) := by
    simpa [Stmt.asksOnce] using h
  exact hnone row ((mem_values _).2 ⟨sig, hrow⟩) ⟨hid, hname, hmark⟩

/-! ### Runners keep the contract -/

section Runner

variable {pid id name : String} {s : Ledger}

/-- A program that keeps the contract of the runner `pid`. -/
abbrev Keeps (pid : String) {α : Type} (post : α → Ledger → Prop) (k : WorkflowProg α)
    (s : Ledger) : Prop :=
  Safe exec Faithful (replayContract pid) post k s

theorem Keeps.seq {α β : Type} {mid : α → Ledger → Prop} {post : β → Ledger → Prop}
    {k : WorkflowProg α} {f : α → WorkflowProg β} (hk : Keeps pid mid k s)
    (hf : ∀ a t, mid a t → Keeps pid post (f a) t) : Keeps pid post (k >>= f) s :=
  Safe.seq (lawful_replayContract pid) hk hf

theorem safe_of_all {α : Type} {p : WorkflowProg α}
    (hp : p.All fun c => ∀ t, Replays pid t c) : Keeps pid (fun _ _ => True) p s :=
  Safe.of_all (hp.mono fun _ hc _ t _ _ => hc t)

/-- A call that neither claims, records nor waits. -/
def Call.outside : Call → Bool
  | .claimOne .. | .stepRecord .. | .stepSleep .. | .stepSignal .. => false
  | _ => true

theorem all_replays (pid : String) {r : Call} (hr : r.outside) :
    (r.body pid).All fun c => ∀ t, Replays pid t c := by
  refine all_body pid r fun c hc t => ?_
  cases c
  case claim | recordStep | deliverSignal | execute | park | hand =>
    cases r <;> cases hr <;> cases hc
  all_goals trivial

theorem safe_validateStepRequest' (s : Ledger) :
    Keeps pid (fun _ _ => True) (validateStepRequest id pid name) s :=
  safe_of_all (all_validateStepRequest fun _ => trivial)

/-- What a lookup of a step has found. -/
def Looked (pid id name : String) (found : Except String Lookup) (s : Ledger) : Prop :=
  match found with
  | .ok (.cached json) => ∃ resultJson, StepDone s id name resultJson ∧
      resultJson.getD "null" = json
  | .ok .absent => s.runsUnder id pid → ∀ resultJson, ¬ StepDone s id name resultJson
  | _ => True

theorem looked_lookupOf {s t : Ledger} (hst : Steady pid s t) :
    Looked pid id name (.ok (lookupOf ((s.steps id).get name))) t := by
  have habsent : (∀ row, (s.steps id).get name = some row → row.status ≠ .ok) →
      t.runsUnder id pid → ∀ resultJson, ¬ StepDone t id name resultJson := by
    rintro hrow hlease resultJson hdone
    obtain ⟨row, hget, hok, -⟩ := hst.undone id name resultJson hlease hdone
    exact hrow row hget hok
  cases hget : (s.steps id).get name with
  | none => exact habsent (by simp [hget])
  | some row =>
    cases hstatus : row.status with
    | ok =>
      simp only [lookupOf, hstatus]
      exact ⟨row.resultJson, hst.done id name _ ⟨row, hget, hstatus, rfl⟩, rfl⟩
    | failed => simp only [lookupOf, hstatus, Looked]
    | slept =>
      simp only [lookupOf, hstatus]
      exact habsent (by simp [hget, hstatus])
    | pending =>
      simp only [lookupOf, hstatus]
      exact habsent (by simp [hget, hstatus])

theorem safe_stepLookup (s : Ledger) :
    Keeps pid (Looked pid id name) (stepLookup id pid name) s := by
  refine (safe_validateStepRequest' s).seq fun valid t _ => ?_
  cases valid with
  | error e => exact fun _ _ => trivial
  | ok u => exact fun t _ _ x _ => ⟨trivial, fun u htu => looked_lookupOf htu⟩

/-- A runner that has found no result runs the code of the step. -/
theorem safe_runAttempts (retries attempt : ℕ)
    (hs : s.runsUnder id pid → ∀ resultJson, ¬ StepDone s id name resultJson) :
    Keeps pid (fun _ _ => True) (runAttempts id name retries attempt) s := by
  have hstep : ∀ t, Steady pid s t → Replays pid t (.execute id name) :=
    fun t hst hlease resultJson hdone =>
      hs (hst.lease id hlease) resultJson (hst.undone id name resultJson hlease hdone)
  induction retries generalizing attempt s with
  | zero => exact fun t hst _ x _ => ⟨hstep t hst, fun _ _ => trivial⟩
  | succ retries ih =>
    intro t hst _ x _
    refine ⟨hstep t hst, ?_⟩
    simp only [exec, ret_bind]
    split
    · refine ih _ (hstep t hst) fun u htu => ?_
      exact hstep u ((lawful_replayContract pid).trans s t u hst htu)
    · exact fun _ _ => trivial

/-- A step that was recorded as done is done. -/
theorem safe_stepRecord (outcome : StepOutcome) (s : Ledger) : Keeps pid
      (fun stored t => stored = .ok () → outcome.status = .ok →
        StepDone t id name outcome.resultJson) (stepRecord id pid name outcome) s := by
  refine (safe_validateStepRequest' s).seq fun valid t _ => ?_
  cases valid with
  | error e => exact fun _ _ h => by cases h
  | ok u =>
    split_ifs
    · exact fun _ _ h => by cases h
    · exact fun _ _ h => by cases h
    · intro t₁ _ _ x₁ _
      refine ⟨rfl, ?_⟩
      simp only [exec, ret_bind, recordStep]
      by_cases hwrite : t₁.runsUnder id pid ∧ ((t₁.steps id).get name).all (·.status ≠ .ok)
      · simp only [if_pos hwrite, one_ne_zero, if_false]
        refine fun t₂ h₂ _ hok => h₂.done id name _
          ⟨t₁.recorded id name outcome.truncated x₁.nowMs, ?_, ?_⟩
        · rw [get_setStep, if_pos ⟨rfl, rfl⟩]
        · unfold recorded
          split <;> exact ⟨hok, rfl⟩
      · -- the row that is there must be the one asked for
        simp only [if_neg hwrite, if_true]
        intro t₂ _ _ x₂ _
        refine ⟨trivial, ?_⟩
        simp only [exec, ret_bind]
        split_ifs with hsame
        · refine fun t₃ h₃ _ hok => h₃.done id name _ ?_
          obtain ⟨row, hrow, hsame⟩ := (Option.any_eq_true _ _).1 hsame
          simp only [sameOutcome, decide_eq_true_eq] at hsame
          exact ⟨row, hrow, hsame.1.trans hok, hsame.2.1⟩
        · exact fun _ _ h => by cases h

theorem safe_recordEnd (ended : Execution × ℕ) (s : Ledger) :
    Keeps pid (fun _ _ => True) (recordEnd id pid name ended) s := by
  obtain ⟨execution, attempts⟩ := ended
  cases execution with
  | result json =>
    refine (safe_stepRecord _ s).seq fun stored t hstored => ?_
    cases stored with
    | error e => exact fun _ _ => trivial
    | ok u =>
      refine fun t₁ h₁ _ x₁ _ => ⟨⟨resultOf json, h₁.done id name _ (hstored rfl rfl), ?_⟩,
        fun _ _ => trivial⟩
      unfold resultOf
      split_ifs with hnull
      · exact hnull.symm
      · rfl
  | error message retryable =>
    refine (safe_stepRecord _ s).seq fun stored t _ => ?_
    cases stored <;> exact fun _ _ => trivial
  | unserializable => exact fun _ _ => trivial

theorem safe_runStep (retries : ℕ) (s : Ledger) :
    Keeps pid (fun _ _ => True) (runStep id pid name retries) s := by
  refine (safe_stepLookup s).seq fun found t hfound => ?_
  match found, hfound with
  | .error e, _ => exact fun _ _ => trivial
  | .ok (.cached json), hfound =>
    obtain ⟨resultJson, hdone, hjson⟩ := hfound
    exact fun t₁ h₁ _ x₁ _ => ⟨⟨resultJson, h₁.done id name _ hdone, hjson⟩, fun _ _ => trivial⟩
  | .ok (.alreadyFailed e), _ => exact fun _ _ => trivial
  | .ok .absent, hfound =>
    exact (safe_runAttempts retries 0 hfound).seq fun ended t _ => safe_recordEnd ended t

theorem firstSignal_eq_some {sig : String} {row : SignalRow}
    (h : s.firstSignal id name = some (sig, row)) :
    s.signals.get sig = some row ∧ row.instanceId = id ∧ row.name = name ∧
      row.deliveredAtMs = none := by
  have hmem : (sig, row) ∈ s.undelivered id name :=
    (mem_insertionSort _).1 (mem_of_mem_head? h)
  obtain ⟨hentry, hrow⟩ := mem_filter.1 hmem
  exact ⟨(get_eq_some_iff _).2 hentry, by simpa using hrow⟩

/-- What a wait for a signal has got. -/
def Got (id name : String) (signalled : Except String Signalled) (s : Ledger) : Prop :=
  ∀ json, signalled = .ok (.delivered json) → ∃ sig, Delivered s sig id name json

theorem safe_signalLoop (fuel : ℕ) (s : Ledger) :
    Keeps pid (Got id name) (signalLoop id pid name fuel) s := by
  induction fuel generalizing s with
  | zero => exact fun _ _ _ h => by cases h
  | succ fuel ih =>
    intro t _ _ x hask
    have hunsent : Unsent t id name := unsent_of_asksOnce hask
    refine ⟨trivial, ?_⟩
    simp only [exec, ret_bind]
    cases hfirst : t.firstSignal id name with
    | none =>
      intro t₁ h₁ _ x₁ _
      refine ⟨fun hlease => h₁.unsent id name hlease hunsent, ?_⟩
      simp only [ret_bind]
      split_ifs
      · exact fun _ _ _ x₂ _ => ⟨trivial, fun _ _ _ h => by cases h⟩
      · exact fun _ _ _ h => by cases h
    | some found =>
      obtain ⟨sig, row⟩ := found
      obtain ⟨hrow, hid, hname, -⟩ := firstSignal_eq_some hfirst
      intro t₁ h₁ _ x₁ _
      obtain ⟨row₁, hrow₁, hid₁, hname₁, hpayload₁, -⟩ := h₁.signal sig row hrow
      refine ⟨⟨rfl, fun row' hrow' => ?_⟩, ?_⟩
      · cases hrow₁.symm.trans hrow'
        refine ⟨hid₁.trans hid, fun hlease => ?_⟩
        rw [hname₁, hname]
        exact h₁.unsent id name hlease hunsent
      · simp only [ret_bind]
        split_ifs with hzero
        · refine (safe_validateStepRequest' _).seq fun valid t₂ _ => ?_
          cases valid with
          | error e => exact fun _ _ _ h => by cases h
          | ok u => exact ih t₂
        · intro t₂ h₂ json hjson
          cases hjson
          refine ⟨sig, h₂.delivered ⟨{ row₁ with deliveredAtMs := some x₁.nowMs }, ?_,
            hid₁.trans hid, hname₁.trans hname, hpayload₁, rfl⟩⟩
          simp only [exec, deliverSignal, hrow₁] at hzero ⊢
          split_ifs at hzero ⊢ with hg
          · simp
          · exact absurd rfl hzero

theorem safe_waitForSignal (fuel : ℕ) (s : Ledger) :
    Keeps pid (fun _ _ => True) (waitForSignal id pid name fuel) s := by
  have hsignal : Keeps pid (Got id name) (stepSignal id pid name fuel) s := by
    refine (safe_validateStepRequest' s).seq fun valid t _ => ?_
    cases valid with
    | error e => exact fun _ _ _ h => nomatch h
    | ok u => exact safe_signalLoop fuel t
  refine hsignal.seq fun signalled t hgot => ?_
  match signalled, hgot with
  | .error e, _ => exact fun _ _ => trivial
  | .ok .wait, _ => exact fun _ _ => trivial
  | .ok (.delivered json), hgot =>
    obtain ⟨sig, hsig⟩ := hgot json rfl
    exact fun t₁ h₁ _ x₁ _ => ⟨⟨sig, h₁.delivered hsig⟩, fun _ _ => trivial⟩

theorem safe_answer (fuel : ℕ) (c : StepCall) (s : Ledger) :
    Keeps pid (fun _ _ => True) (answer id pid fuel c) s := by
  cases c with
  | run name retries => exact safe_runStep retries s
  | sleep name durationMs =>
    refine safe_of_all ((all_stepSleep fun c hc => ?_).bind fun slept => ?_)
    · cases c
      case park _ _ untilMs _ => cases untilMs <;> first | exact fun _ => trivial | cases hc
      all_goals first | exact fun _ => trivial | cases hc
    · split <;> trivial
  | waitForSignal name => exact safe_waitForSignal fuel s

/-- A replay keeps the contract, whatever the workflow asks. -/
theorem safe_interpret (fuel : ℕ) (script : Script) (s : Ledger) :
    Keeps pid (fun _ _ => True) (interpret id pid fuel script) s := by
  induction script generalizing s with
  | ret output => exact fun _ _ => trivial
  | cmd c next ih => exact (safe_answer fuel c s).seq fun a t _ => ih a t

theorem safe_advance (script : String → Script) (maxRunning fuel : ℕ) (s : Ledger) :
    Keeps pid (fun _ _ => True) (advance pid script maxRunning fuel) s := by
  refine (safe_of_all (all_claimOne (fun _ => trivial) (fun _ _ => trivial)
    (fun _ _ => trivial) (fun _ _ _ _ _ => rfl) fun _ _ => trivial)).seq fun claimed t _ => ?_
  split
  · refine (safe_interpret fuel _ t).seq fun response t₁ _ => safe_of_all ?_
    cases response with
    | complete output => exact all_forget (all_finish fun _ => trivial)
    | failed e => exact all_forget (all_failTerminal fun _ _ => trivial)
    | parked =>
      refine ⟨fun _ => trivial, fun current => ?_⟩
      simp only [ret_bind]
      split_ifs
      · exact all_replays pid (r := .failSystem ..) rfl
      · trivial
  · exact fun _ _ => trivial

end Runner

/-! ### Runs -/

theorem runsUnder_unique {lease' : String} (h : s.runsUnder id lease)
    (h' : s.runsUnder id lease') : lease = lease' := by
  obtain ⟨i, hi, hr⟩ := runsUnder_iff.1 h
  obtain ⟨j, hj, hr'⟩ := runsUnder_iff.1 h'
  cases hi.symm.trans hj
  simp_all [Instance.runsUnder]

theorem handedFrom_exec (c : Stmt) (x : Env) (hh : HandedFrom s h) :
    HandedFrom (exec c x s).1 h := by
  unfold HandedFrom at hh ⊢
  split_ifs at hh ⊢
  · obtain ⟨sig, hd⟩ := hh
    exact ⟨sig, delivered_exec c x hd⟩
  · obtain ⟨resultJson, hdone, hjson⟩ := hh
    exact ⟨resultJson, stepDone_exec c x hdone, hjson⟩

theorem faithful_exec (hs : Faithful s) (hc : Replays pid s c) : Faithful (exec c x s).1 := by
  -- a signal marked just now is the first of its name
  have hnew : ∀ sig sig' id name v', (∃ id' lease row, c = .deliverSignal sig id' lease ∧
      s.runsUnder id' lease ∧ s.signals.get sig = some row ∧ row.instanceId = id ∧
      row.name = name) → Delivered s sig' id name v' → sig = sig' := by
    rintro sig sig' id name v' ⟨id', lease, row, rfl, hruns, hrow, rfl, rfl⟩ hd'
    obtain ⟨rfl, hrow'⟩ := hc
    obtain ⟨rfl, hunsent⟩ := hrow' row hrow
    exact absurd hd' (hunsent hruns sig' v')
  refine ⟨fun h hh => ?_, fun sig sig' id name v v' hd hd' => ?_⟩
  · obtain hmem | rfl := mem_handed_of_exec hh
    · exact handedFrom_exec c x (hs.handed h hmem)
    · exact handedFrom_exec _ x hc
  · obtain hold | hmark := delivered_of_exec hd
    · obtain hold' | hmark' := delivered_of_exec hd'
      · exact hs.once sig sig' id name v v' hold hold'
      · exact (hnew sig' sig id name v hmark' hold).symm
    · obtain hold' | ⟨_, _, _, hc', -⟩ := delivered_of_exec hd'
      · exact hnew sig sig' id name v' hmark hold'
      · obtain ⟨_, _, _, hc'', -⟩ := hmark
        cases hc''.symm.trans hc'
        rfl

/-- What one runner does, another may rely on. -/
theorem steady_exec {pid' : String} (hne : pid' ≠ pid)
    (hc : Replays pid s c) : Steady pid' s (exec c x s).1 := by
  have hlease : ∀ id, (exec c x s).1.runsUnder id pid' → s.runsUnder id pid' := by
    intro id h
    obtain h | ⟨nowMs, maxRunning, group, limit, rfl⟩ := runsUnder_of_exec h
    · exact h
    · exact absurd hc hne
  refine ⟨fun id name r h => stepDone_exec c x h, fun sig row h => signal_exec c x h, hlease,
    fun id name r h hdone => ?_, fun id name h hunsent sig v hd => ?_⟩
  · obtain hdone | ⟨lease, outcome, rfl, hruns⟩ := stepDone_of_exec hdone
    · exact hdone
    · cases hc
      exact absurd (runsUnder_unique (hlease id h) hruns) hne
  · obtain hd | ⟨id', lease, row, rfl, hruns, hrow, rfl, rfl⟩ := delivered_of_exec hd
    · exact hunsent sig v hd
    · obtain ⟨rfl, hrow'⟩ := hc
      obtain ⟨rfl, -⟩ := hrow' row hrow
      exact hne (runsUnder_unique (hlease _ h) hruns)

/-- No replay asks for a signal of a name of which one was delivered. -/
def AsksOnce : EnginePool → TaskEvent → Prop :=
  OnCommand fun _ _ c _ s => c.asksOnce s

instance (p : EnginePool) (e : TaskEvent) : Decidable (AsksOnce p e) :=
  OnCommand.decidable p e

theorem fits_replayContract (script : String → Script) :
    Fits (engine script) AsksOnce Faithful (fun _ _ => True) fun pid _ => replayContract pid where
  lawful pid _ := lawful_replayContract pid
  assumes p pid x r c k hok hpid := hok r c k hpid
  keeps pid r c x s hs _ hc := faithful_exec hs hc
  ignores _ _ _ _ _ _ _ _ _ := trivial
  tolerates p pid x r c k pid' r' c' k' hne _ _ _ _ hc := steady_exec hne hc
  starts p pid r _ _ _ := by
    cases r with
    | advance maxRunning fuel => exact safe_advance script maxRunning fuel p.store
    | renew id lease => exact safe_of_all (all_replays pid (r := .renew id lease) rfl)
    | failSystem maxRetries id lease error =>
      exact safe_of_all (all_replays pid (r := .failSystem maxRetries id lease error) rfl)
    | pause id => exact safe_of_all (all_replays pid (r := .pause id) rfl)
    | resume id => exact safe_of_all (all_replays pid (r := .resume id) rfl)
    | terminate id => exact safe_of_all (all_replays pid (r := .terminate id) rfl)
    | restart id => exact safe_of_all (all_replays pid (r := .restart id) rfl)
    | sendSignal id name payloadJson =>
      exact safe_of_all (all_replays pid (r := .sendSignal id name payloadJson) rfl)

/-- Nothing was handed or delivered yet. -/
structure Unplayed (s : Ledger) : Prop where
  handed : s.handed = []
  unsent : ∀ id name, Unsent s id name

def Handed.SameCall (h h' : Handed) : Prop :=
  h.instanceId = h'.instanceId ∧ h.signal = h'.signal ∧ h.name = h'.name

/-- Values handed to one call agree in a faithful ledger. -/
theorem Faithful.agree (hs : Faithful s) {h' : Handed} (hh : h ∈ s.handed)
    (hh' : h' ∈ s.handed) (hcall : h.SameCall h') : h.valueJson = h'.valueJson := by
  obtain ⟨hid, hsignal, hname⟩ := hcall
  have hfrom := hs.handed h hh
  have hfrom' := hs.handed h' hh'
  simp only [HandedFrom, hid, hsignal, hname] at hfrom hfrom'
  split_ifs at hfrom hfrom'
  · obtain ⟨sig, hd⟩ := hfrom
    obtain ⟨sig', hd'⟩ := hfrom'
    cases hs.once _ _ _ _ _ _ hd hd'
    obtain ⟨row, hrow, -, -, hpayload, -⟩ := hd
    obtain ⟨row', hrow', -, -, hpayload', -⟩ := hd'
    cases hrow.symm.trans hrow'
    exact hpayload.symm.trans hpayload'
  · obtain ⟨r, ⟨row, hrow, -, rfl⟩, hjson⟩ := hfrom
    obtain ⟨r', ⟨row', hrow', -, rfl⟩, hjson'⟩ := hfrom'
    cases hrow.symm.trans hrow'
    exact hjson.symm.trans hjson'

/-- **In every run in which no replay asks again for a signal that was delivered, all replays hand
one call the same value, and a runner that holds the lease neither runs a step nor waits for a
signal whose value was handed before.** -/
theorem replays_agree {script : String → Script} {s : Ledger} {es : List TaskEvent}
    {p : EnginePool} (hs : Unplayed s) (hm : Runs.Meets (engine script).step AsksOnce (idle s) es)
    (hp : Runs.run (engine script).step (idle s) es = some p) :
    (∀ h ∈ p.store.handed, ∀ h' ∈ p.store.handed, h.SameCall h' → h.valueJson = h'.valueJson) ∧
    (∀ pid id name, p.next pid = some (.execute id name) → p.store.runsUnder id pid →
      ∀ h ∈ p.store.handed, ¬ (h.instanceId = id ∧ h.signal = false ∧ h.name = name)) ∧
    ∀ pid id name, p.next pid = some (.park id pid none name) → p.store.runsUnder id pid →
      ∀ h ∈ p.store.handed, ¬ (h.instanceId = id ∧ h.signal ∧ h.name = name) := by
  have hfaithful : Faithful s :=
    ⟨by simp [hs.handed], fun sig _ id name v _ h => absurd h (hs.unsent id name sig v)⟩
  have hsound : p.Sound (engine script).exec Faithful (fun _ _ => True)
      fun pid _ => replayContract pid :=
    sound_run (fits_replayContract script)
      (Pool.Sound.idle (engine script).exec _ hfaithful fun _ => trivial) hm hp
  have hensure : ∀ {pid c}, p.next pid = some c → c.asksOnce p.store → Replays pid p.store c := by
    intro pid c hnext hasks
    obtain ⟨r, k, hpid⟩ := next_eq_some.1 hnext
    exact hsound.ensure (x := {}) (lawful_replayContract pid) hpid hasks
  refine ⟨fun h hh h' hh' => hsound.holds.agree hh hh', ?_, ?_⟩
  all_goals
    rintro pid _ _ hnext hlease h hh ⟨rfl, hsignal, rfl⟩
    have hfrom := hsound.holds.handed h hh
    simp only [HandedFrom, hsignal] at hfrom
  · obtain ⟨resultJson, hdone, -⟩ := hfrom
    exact hensure hnext rfl hlease resultJson hdone
  · obtain ⟨sig, hd⟩ := hfrom
    exact hensure hnext rfl hlease sig _ hd

/-- A queued instance with two signals of one name. -/
def paidTwice : Ledger where
  instances := empty.insert "order" {}
  steps := fun _ => empty
  signals := (empty.insert "first" (signalRow "order" "paid" "1" 0)).insert
    "second" (signalRow "order" "paid" "2" 1)
  handed := []

theorem unplayed_paidTwice : Unplayed paidTwice := by
  refine ⟨rfl, ?_⟩
  rintro id name sig payloadJson ⟨row, hrow, -, -, -, hmark⟩
  simp only [paidTwice, get_insert, get_empty] at hrow
  split_ifs at hrow <;> cases hrow <;> cases hmark

/-- Charge, then wait for the payment. -/
def chargeThenWait : Script :=
  .cmd (.run "charge" 0) fun _ => .cmd (.waitForSignal "paid") fun paid => .ret paid

/-- Statements of one process, one after the other. -/
def steps (pid : String) (n : ℕ) (x : Env) : List TaskEvent :=
  replicate n (.step pid x)

/-- A runner dies after it was handed the charge; another takes over when the lease has run out. -/
def chargedTwice : List TaskEvent :=
  .start "A" (.advance 0 1) :: steps "A" 11 { execution := .result "7" } ++
    [.kill "A", .start "B" (.advance 0 1)] ++
    steps "B" 12 { nowMs := leaseMs, execution := .result "8" }

theorem replays_agree_chargedTwice : Unplayed paidTwice ∧
      Runs.Meets (engine fun _ => chargeThenWait).step AsksOnce (idle paidTwice) chargedTwice ∧
      ∃ p, Runs.run (engine fun _ => chargeThenWait).step (idle paidTwice) chargedTwice =
        some p ∧ ∀ h ∈ p.store.handed, ∀ h' ∈ p.store.handed, h.SameCall h' →
          h.valueJson = h'.valueJson := by
  have hm : Runs.Meets (engine fun _ => chargeThenWait).step AsksOnce (idle paidTwice)
      chargedTwice := by decide +kernel
  exact ⟨unplayed_paidTwice, hm, Runs.exists_of_view (v := [⟨"order", true, "paid", "1"⟩,
    ⟨"order", false, "charge", "7"⟩, ⟨"order", false, "charge", "7"⟩]) (fun p => p.store.handed)
    (by decide +kernel) fun p hp _ => (replays_agree unplayed_paidTwice hm hp).1⟩

/-- Wait for the payment, then be done. -/
def waitOnly : Script := .cmd (.waitForSignal "paid") fun paid => .ret paid

/-- A runner dies after it was handed the payment; another takes over when the lease has run
out. -/
def waitedTwice : List TaskEvent :=
  .start "A" (.advance 0 1) :: steps "A" 9 {} ++ [.kill "A", .start "B" (.advance 0 1)] ++
    steps "B" 9 { nowMs := leaseMs }

/-- The second replay is handed the second signal at the call that had the first. -/
theorem secondSignal_handed : Unplayed paidTwice ∧
      ∃ p, Runs.run (engine fun _ => waitOnly).step (idle paidTwice) waitedTwice = some p ∧
        ∃ h ∈ p.store.handed, ∃ h' ∈ p.store.handed, h.SameCall h' ∧
          h.valueJson = "2" ∧ h'.valueJson = "1" := by
  refine ⟨unplayed_paidTwice, Runs.exists_of_view (fun p => p.store.handed)
    (v := [⟨"order", true, "paid", "2"⟩, ⟨"order", true, "paid", "1"⟩]) (by decide +kernel)
    fun p hp hhanded => ⟨⟨"order", true, "paid", "2"⟩, by simp [hhanded],
      ⟨"order", true, "paid", "1"⟩, by simp [hhanded], ⟨rfl, rfl, rfl⟩, rfl, rfl⟩⟩

end Workflow

end RandallFlare
