import RandallFlare.Flow.Plan

/-!
# What a driver does for its run

A driver may die, or lose its lease, between any two statements; a later one takes the run up from
its rows.  As long as the last row is not that of a failure, these are rows from which it goes on
as the first would have.

* `Resumable`: what holds of every run between statements;
* `flowContract`: what a driver relies on, and what each of its statements does for the run.
-/

namespace RandallFlare

namespace Flow

open Programs Prog Ledger Stmt List

/-- The graph and the input of a run. -/
def Ledger.plan (s : Ledger) (id : String) : Option (FlowGraph × Value) :=
  (s.runs.get id).map fun r => (r.graph, r.input)

variable {s : Ledger} {id : String} {guard : FlowRun → Bool} {f : FlowRun → FlowRun} {c : Stmt}
  {x : Env} {lease : String} {E : Engine} {pid : String}

theorem plan_exec (c : Stmt) (x : Env) {g : FlowGraph × Value}
    (h : s.plan id = some g) : (exec c x s).1.plan id = some g := by
  obtain ⟨q, hq, rfl⟩ := Option.map_eq_some_iff.1 h
  cases hr : (exec c x s).1.runs.get id with
  | none => cases hq.symm.trans (get_exec_eq_none hr)
  | some r =>
    obtain ⟨q', hq', hturn⟩ | ⟨hnone, -⟩ := run_exec hr
    · cases hq.symm.trans hq'
      cases hturn <;> simp [plan, hr, FlowRun.release]
    · cases hq.symm.trans hnone

theorem leased_of_exec (h : (exec c x s).1.leased id lease) :
    s.leased id lease ∨ ∃ nowMs, c = .claim id lease nowMs := by
  obtain ⟨r, hr, hs, hl⟩ := leased_iff.1 h
  obtain ⟨q, hq, hturn⟩ | ⟨-, _, _, _, _, -, rfl⟩ := run_exec hr
  · cases hturn with
    | same => exact .inl (leased_iff.2 ⟨r, hq, hs, hl⟩)
    | renewed => exact .inl (leased_iff.2 ⟨q, hq, hs, hl⟩)
    | claimed =>
      cases hl
      exact .inr ⟨_, rfl⟩
    | _ => cases hs
  · cases hs

/-! ### The contract of a driver -/

/-- What the rows of a run are in its status. -/
def RunOk (E : Engine) (r : FlowRun) (rows : List StepRow) : Prop :=
  (r.leaseToken.isSome → r.status = .running) ∧
    match r.status with
    | .queued => Fresh E r.graph r.input rows
    | .running => Partial E r.graph r.input rows
    | .complete => ∃ output, r.output = some output ∧
        Final E r.graph r.input rows (.complete output)
    | .failed => ∃ error, r.error = some error ∧ Final E r.graph r.input rows (.failed error)
    | .cancelled => True

/-- What holds of every run between statements. -/
structure Resumable (E : Engine) (s : Ledger) : Prop where
  run : ∀ id r, s.runs.get id = some r → RunOk E r (s.steps id)
  unknown : ∀ id, s.runs.get id = none → s.steps id = []

/-- What others do to a driver: while it holds a run they add nothing to its log. -/
structure Undisturbed (pid : String) (s t : Ledger) : Prop where
  plan : ∀ id g, s.plan id = some g → t.plan id = some g
  lease : ∀ id, t.leased id pid → s.leased id pid
  steps : ∀ id, t.leased id pid → t.steps id = s.steps id

/-- What a statement of a driver does for a run it holds: it writes what comes next, gives the run
back where it can be taken up, or ends it as its rows say. -/
def Follows (E : Engine) (pid : String) (s : Ledger) : Stmt → Prop
  | .claim _ lease _ => lease = pid
  | .insertStep id lease row => lease = pid ∧ (s.leased id pid → ∀ graph root,
      s.plan id = some (graph, root) → Extends E graph root (s.steps id) row)
  | .requeue id lease => lease = pid ∧ (s.leased id pid → ∀ graph root,
      s.plan id = some (graph, root) → Fresh E graph root (s.steps id))
  | .fail id lease error => lease = pid ∧ (s.leased id pid → ∀ graph root,
      s.plan id = some (graph, root) → Final E graph root (s.steps id) (.failed error))
  | .complete id lease output => lease = pid ∧ (s.leased id pid → ∀ graph root,
      s.plan id = some (graph, root) → Final E graph root (s.steps id) (.complete output))
  | _ => True

/-- No run is requeued whose last row is that of a failure. -/
def Stmt.recoversClean (s : Ledger) : Stmt → Bool
  | .recover nowMs => s.runs.entries.all fun p => !p.2.expired nowMs || endsWell (s.steps p.1)
  | _ => true

def flowContract (E : Engine) (pid : String) : Contract Ledger Env Stmt where
  rely := Undisturbed pid
  assume c _ s := c.recoversClean s
  ensure c _ s := Follows E pid s c

theorem lawful_flowContract (E : Engine) (pid : String) : (flowContract E pid).Lawful where
  refl _ := ⟨fun _ _ h => h, fun _ h => h, fun _ _ => rfl⟩
  trans _ _ _ hst htu := ⟨fun id g h => htu.plan id g (hst.plan id g h),
    fun id h => hst.lease id (htu.lease id h),
    fun id h => (htu.steps id h).trans (hst.steps id (htu.lease id h))⟩

/-- What one driver does, another may rely on. -/
theorem undisturbed_exec {pid' : String} (hne : pid' ≠ pid) (hc : Follows E pid s c) :
    Undisturbed pid' s (exec c x s).1 := by
  have hlease : ∀ id, (exec c x s).1.leased id pid' → s.leased id pid' := by
    intro id h
    obtain h | ⟨nowMs, rfl⟩ := leased_of_exec h
    · exact h
    · exact absurd hc hne
  refine ⟨fun id g h => plan_exec c x h, hlease, fun id h => ?_⟩
  obtain hsame | ⟨lease, row, rfl, hl, -⟩ := steps_exec c x s id
  · exact hsame
  · obtain ⟨rfl, -⟩ := hc
    exact absurd (leased_unique (hlease id h) hl) hne

theorem Resumable.leased (hs : Resumable E s)
    {r : FlowRun} (hr : s.runs.get id = some r) (hl : r.leaseToken = some lease) :
    s.leased id lease :=
  leased_iff.2 ⟨r, hr, (hs.run id r hr).1 (by simp [hl]), hl⟩

/-- A statement that follows its run keeps all runs resumable. -/
theorem resumable_exec (hs : Resumable E s) (hclean : c.recoversClean s) (hc : Follows E pid s c) :
    Resumable E (exec c x s).1 := by
  refine ⟨fun id r hr => ?_, fun id hnone => ?_⟩
  · obtain ⟨q, hq, hturn⟩ | ⟨hnone, _, _, _, _, hinsert, rfl⟩ := run_exec hr
    · have hok := hs.run id q hq
      have hplan : s.plan id = some (q.graph, q.input) := by simp [plan, hq]
      obtain hsame | ⟨lease, row, rfl, hl, hsteps⟩ := steps_exec c x s id
      · rw [hsame]
        cases hturn with
        | same | renewed => exact hok
        | cancelled => exact ⟨by simp [FlowRun.release], by simp [FlowRun.release]⟩
        | claimed lease nowMs hqueued =>
          have hfresh : Fresh E q.graph q.input (s.steps id) := by
            simpa [RunOk, hqueued] using hok.2
          exact ⟨fun _ => rfl, s.steps id, [], _, hfresh, rfl, (append_nil _).symm⟩
        | recovered nowMs hx =>
          -- the rows that are there can be taken up
          refine ⟨by simp [FlowRun.release], ?_⟩
          have hrunning : q.status = .running := by simp_all [FlowRun.expired]
          have hpart : Partial E q.graph q.input (s.steps id) := by
            simpa [RunOk, hrunning] using hok.2
          refine hpart.fresh ?_
          have hmem := (SortedMap.get_eq_some_iff _).1 hq
          have := all_eq_true.1 hclean _ hmem
          simpa [hx] using this
        | requeued lease _ hl =>
          obtain ⟨rfl, hfresh⟩ := hc
          exact ⟨by simp [FlowRun.release], hfresh (hs.leased hq hl) _ _ hplan⟩
        | failed lease error hl =>
          obtain ⟨rfl, hfinal⟩ := hc
          exact ⟨by simp [FlowRun.release], error, rfl, hfinal (hs.leased hq hl) _ _ hplan⟩
        | completed lease output hl =>
          obtain ⟨rfl, hfinal⟩ := hc
          exact ⟨by simp [FlowRun.release], output, rfl, hfinal (hs.leased hq hl) _ _ hplan⟩
      · cases hturn
        rw [hsteps]
        obtain ⟨r', hr', hrunning, -⟩ := leased_iff.1 hl
        cases hq.symm.trans hr'
        obtain ⟨rfl, hext⟩ := hc
        obtain ⟨rows₀, pre, post, hfresh, hwrites, hrows⟩ := hext hl _ _ hplan
        refine ⟨fun _ => hrunning, ?_⟩
        simp only [hrunning]
        exact ⟨rows₀, pre ++ [row], post, hfresh, by simp [hwrites], by simp [hrows]⟩
    · obtain hsame | ⟨_, _, hstep, -⟩ := steps_exec c x s id
      · rw [hsame, hs.unknown id hnone]
        exact ⟨by simp [newRun], .refl⟩
      · cases hinsert.symm.trans hstep
  · have hbefore := get_exec_eq_none hnone
    obtain hsame | ⟨lease, row, -, hl, -⟩ := steps_exec c x s id
    · rw [hsame]
      exact hs.unknown id hbefore
    · obtain ⟨r, hr, -⟩ := leased_iff.1 hl
      cases hr.symm.trans hbefore

/-! ### The log and what it says -/

theorem statesOf_append (rows : List StepRow) (row : StepRow) (p : StepRow → Bool) :
    statesOf (rows ++ [row]) p =
      if p row then (statesOf rows p).insert row.nodeId row.state else statesOf rows p := by
  unfold statesOf
  split_ifs with h <;> simp [filter_append, h]

theorem ne_of_get_statesOf {rows : List StepRow} {p : StepRow → Bool}
    (h : (statesOf rows p).get id = none) {row : StepRow} (hrow : row ∈ rows) (hp : p row) :
    row.nodeId ≠ id := by
  induction rows using reverseRecOn with
  | nil => cases hrow
  | append_singleton rows last ih =>
    rw [statesOf_append] at h
    rintro rfl
    obtain hmem | hmem := mem_append.1 hrow
    · refine ih ?_ hmem rfl
      split_ifs at h
      · rw [SortedMap.get_insert] at h
        split_ifs at h
        exact h
      · exact h
    · cases mem_singleton.1 hmem
      simp [hp] at h

/-! ### Drivers keep the contract -/

/-- The statements of a driver that has claimed a run. -/
def Stmt.within (id pid : String) : Stmt → Prop
  | .readSteps _ => True
  | .insertStep id' lease _ => id' = id ∧ lease = pid
  | .renew id' lease => id' = id ∧ lease = pid
  | .requeue id' lease => id' = id ∧ lease = pid
  | .fail id' lease _ => id' = id ∧ lease = pid
  | .complete id' lease _ => id' = id ∧ lease = pid
  | _ => False

section Driver

variable {E : Engine} {pid id : String} {graph : FlowGraph} {root : Value}

/-- A program that keeps the contract of the driver `pid`. -/
abbrev Keeps (E : Engine) (pid : String) {α : Type} (post : α → Ledger → Prop) (p : FlowProg α)
    (s : Ledger) : Prop :=
  Safe exec (Resumable E) (flowContract E pid) post p s

theorem Keeps.seq {α β : Type} {mid : α → Ledger → Prop} {post : β → Ledger → Prop}
    {p : FlowProg α} {f : α → FlowProg β} (hp : Keeps E pid mid p s)
    (hf : ∀ a t, mid a t → Keeps E pid post (f a) t) : Keeps E pid post (p >>= f) s :=
  Safe.seq (lawful_flowContract E pid) hp hf

theorem safe_lost {α : Type} {p : FlowProg α} {s : Ledger} (hp : p.All (within id pid))
    (hs : s.leased id pid = false) : Keeps E pid (fun _ t => t.leased id pid = false) p s := by
  have hlost : ∀ {s t : Ledger}, s.leased id pid = false → Undisturbed pid s t →
      t.leased id pid = false := fun {s t} hs hst =>
    Bool.eq_false_iff.2 fun h => by simp [hst.lease id h] at hs
  induction p generalizing s with
  | ret a => exact fun t hst => hlost hs hst
  | cmd c next ih =>
    intro t hst _ x _
    have ht := hlost hs hst
    refine ⟨?_, ih _ (hp.2 _) (Bool.eq_false_iff.2 fun h => ?_)⟩
    · have hc := hp.1
      cases c <;> simp only [within] at hc <;> simp_all [flowContract, Follows]
    · obtain h | ⟨nowMs, rfl⟩ := leased_of_exec h
      · simp [ht] at h
      · exact hp.1

theorem all_persistRow (refused : String) (row : StepRow) :
    (persistRow refused id pid row).All (within id pid) := by
  refine ⟨⟨rfl, rfl⟩, fun changed => ?_⟩
  simp only [ret_bind]
  split_ifs
  · exact ⟨⟨rfl, rfl⟩, fun _ => trivial⟩
  · trivial

theorem all_iterateBody (turn : States → Turn) (iteration fuel : ℕ) (states : States) :
    (iterateBody id pid turn iteration fuel states).All (within id pid) := by
  induction fuel generalizing states with
  | zero => trivial
  | succ fuel ih =>
    unfold iterateBody
    split
    · trivial
    · trivial
    · refine (all_persistRow _ _).bind fun persisted => ?_
      split <;> trivial
    · refine (all_persistRow _ _).bind fun persisted => ?_
      split
      · trivial
      · exact ih _

theorem all_runIterations (n : FlowNode) (context : ExecContext) (outer : States)
    (persisted : List StepRow) (items : List Value) (iteration : ℕ) (results : List Value) :
    (runIterations E id pid graph n context outer persisted items iteration results).All
      (within id pid) := by
  induction items generalizing iteration results with
  | nil => trivial
  | cons item items ih =>
    refine (all_iterateBody _ _ _ _).bind fun ended => ?_
    split
    · trivial
    · split
      · trivial
      · exact ih _ _

theorem all_settleTurn {states : States} {next : States → FlowProg (Except String Unit)}
    (hnext : ∀ states, (next states).All (within id pid)) (turn : Turn) :
    (settleTurn id pid states next turn).All (within id pid) := by
  cases turn with
  | idle => trivial
  | error message => trivial
  | write node input result =>
    refine (all_persistRow _ _).bind fun persisted => ?_
    split
    · trivial
    · exact hnext _
  | stop node input result message =>
    refine (all_persistRow _ _).bind fun persisted => ?_
    split
    · trivial
    · exact ⟨⟨rfl, rfl⟩, fun _ => trivial⟩

theorem all_advanceNodes (fuel : ℕ) (states : States) :
    (advanceNodes E id pid graph root fuel states).All (within id pid) := by
  induction fuel generalizing states with
  | zero => exact ⟨⟨rfl, rfl⟩, fun _ => trivial⟩
  | succ fuel ih =>
    unfold advanceNodes
    split
    · split_ifs
      · exact ⟨⟨rfl, rfl⟩, fun _ => trivial⟩
      · unfold completeClaim
        split_ifs
        · trivial
        · exact ⟨⟨rfl, rfl⟩, fun _ => trivial⟩
    · split_ifs
      · exact all_settleTurn ih _
      · refine Prog.All.bind ?_ fun executed => all_settleTurn ih _
        unfold executeLoop
        split
        · trivial
        · refine ⟨trivial, fun persisted => ?_⟩
          refine (all_runIterations _ _ _ _ _ _ _).bind fun ended => ?_
          split <;> trivial
      · exact all_settleTurn ih _

end Driver

end Flow

end RandallFlare
