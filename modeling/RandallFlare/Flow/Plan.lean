import Mathlib.Logic.Relation
import RandallFlare.Flow.Advance

/-!
# What the rows of a run say is next

The purpose of the step log: a run can be taken up from its rows.  What a driver that takes up a
run does first is a function of the graph, the input and the rows that are there.

* `loopTurn`, `nextWrites`: the rows that come next, and the verdict on the run if they end it;
* `Advances`, `Fresh`: the rows from which a run can be taken up, reached one after the other from
  the empty log;
* `Extends`, `Partial`, `Final`: a row that comes next, the rows between two such points, and the
  rows of a run that has ended;
* `Final.unique`: a run has one end.
-/

namespace RandallFlare

open List

namespace Flow

/-- How a run ends. -/
inductive Verdict
  | complete (output : Value)
  | failed (error : String)

/-- What comes next in a loop: a row, the row of a failure and its text, or the end of the loop. -/
inductive LoopTurn
  | row (row : StepRow)
  | stop (row : StepRow) (message : String)
  | ended (executed : Except String (List Value))

section Plan

variable (E : Engine) (graph : FlowGraph) (root : Value)

/-- What the rows say of an iteration of the loop `n`. -/
def iterationStates (n : FlowNode) (rows : List StepRow) (iteration : ℕ) : States :=
  statesOf rows (StepRow.isIn (loopBody n.id graph) iteration)

/-- What comes next in the loop `n`, from an iteration on. -/
def loopTurn (n : FlowNode) (context : ExecContext) (outer : States) (rows : List StepRow) :
    List Value → ℕ → List Value → LoopTurn
  | [], _, results => .ended (.ok results)
  | item :: items, iteration, results =>
    match bodyTurn E graph n context outer iteration item
      (iterationStates graph n rows iteration) with
    | .write node input result => .row (stepRow node iteration input result)
    | .stop node input result message => .stop (stepRow node iteration input result) message
    | .error message => .ended (.error message)
    | .idle =>
      match iterationOutput graph n iteration item (iterationStates graph n rows iteration) with
      | .error e => .ended (.error e)
      | .ok output => loopTurn n context outer rows items (iteration + 1) (results ++ [output])

/-- The rows that a turn outside of loops writes, and the verdict if it ends the run. -/
def turnWrites : Turn → List StepRow × Option Verdict
  | .write node input result => ([stepRow node 0 input result], none)
  | .stop node input result message => ([stepRow node 0 input result], some (.failed message))
  | _ => ([], none)

/-- What a node leaves that ended in this way. -/
def nodeWrites (n : FlowNode) (input : Value) (executed : Except String (Value × Option String)) :
    List StepRow × Option Verdict :=
  turnWrites (nodeTurn E n input executed)

/-- What a loop leaves: the next row of its body, or its own row once the body has ended. -/
def loopWrites (n : FlowNode) (input : Value) : LoopTurn → List StepRow × Option Verdict
  | .row row => ([row], none)
  | .stop row message =>
    (row :: (nodeWrites E n input (.error message)).1, (nodeWrites E n input (.error message)).2)
  | .ended executed =>
    nodeWrites E n input (executed.map fun results => (.arr results, some "done"))

/-- The rows that come next, and the verdict on the run if they end it. -/
def nextWrites (rows : List StepRow) : List StepRow × Option Verdict :=
  let states := statesOf rows StepRow.isTop
  match ready graph.nodes graph.edges states with
  | none =>
    if states.entries.length ≠ graph.nodes.length then ([], some (.failed stalled))
    else if maxNodeResultBytes < E.size (finalOutput graph states) then ([], none)
    else ([], some (.complete (finalOutput graph states)))
  | some r =>
    let context := runContext graph root states r
    if r.dead then turnWrites (.write r.node .null skippedResult)
    else if r.node.isLoop then
      match loopItems E r.node context with
      | .error e => nodeWrites E r.node context.input (.error e)
      | .ok items =>
        loopWrites E r.node context.input
          (loopTurn E graph r.node context states rows items 1 [])
    else nodeWrites E r.node context.input (E.execute r.node 0 context)

/-- The rows grow by those that come next, and the run goes on. -/
def Advances (rows rows' : List StepRow) : Prop :=
  (nextWrites E graph root rows).2 = none ∧ rows' = rows ++ (nextWrites E graph root rows).1

/-- A run can be taken up from the rows. -/
def Fresh (rows : List StepRow) : Prop := Relation.ReflTransGen (Advances E graph root) [] rows

/-- The row comes next. -/
def Extends (rows : List StepRow) (row : StepRow) : Prop :=
  ∃ rows₀ pre post, Fresh E graph root rows₀ ∧
    (nextWrites E graph root rows₀).1 = pre ++ row :: post ∧ rows = rows₀ ++ pre

/-- Some of the rows that come next are there. -/
def Partial (rows : List StepRow) : Prop :=
  ∃ rows₀ pre post, Fresh E graph root rows₀ ∧
    (nextWrites E graph root rows₀).1 = pre ++ post ∧ rows = rows₀ ++ pre

/-- The rows of a run that has ended. -/
def Final (rows : List StepRow) (v : Verdict) : Prop :=
  ∃ rows₀, Fresh E graph root rows₀ ∧ (nextWrites E graph root rows₀).2 = some v ∧
    rows = rows₀ ++ (nextWrites E graph root rows₀).1

/-- The last row is not that of a failure. -/
def endsWell (rows : List StepRow) : Bool := rows.getLast?.all (·.routeStatus ≠ .failed)

end Plan

section Shape

variable (E : Engine) (graph : FlowGraph) (root : Value)

/-- Rows in which only the failures end the run, and only the last row, or a failure in a loop that
goes on, is a failure. -/
inductive Orderly (loops : Prop) : List StepRow × Option Verdict → Prop
  | none (v : Option Verdict) : Orderly loops ([], v)
  | row {row : StepRow} (h : row.routeStatus ≠ .failed) : Orderly loops ([row], .none)
  | stop {row : StepRow} (v : Verdict) (h : row.routeStatus = .failed)
      (hv : ∃ e, v = .failed e) : Orderly loops ([row], some v)
  | caught {row row' : StepRow} (h : row.routeStatus = .failed) (hi : row.iteration ≠ 0)
      (h' : row'.routeStatus ≠ .failed) (hl : loops) : Orderly loops ([row, row'], .none)
  | stopped {row row' : StepRow} (v : Verdict) (h : row.routeStatus = .failed)
      (h' : row'.routeStatus = .failed) (hv : ∃ e, v = .failed e) :
      Orderly loops ([row, row'], some v)

section

variable (n : FlowNode)

theorem errorResult_routeStatus (message : String) :
    (n.errorResult message).routeStatus = .failed ↔ n.onError = .stop := by
  unfold FlowNode.errorResult
  split <;> simp_all [failedResult]

/-- A node that was run has the result of a failure exactly if it failed and stops its run. -/
theorem resultOf_routeStatus (executed : Except String (Value × Option String)) :
    (resultOf n executed).routeStatus = .failed ↔
    (∃ e, executed = .error e) ∧ n.onError = .stop := by
  cases executed with
  | ok result => simp [resultOf, successResult]
  | error e => simp [resultOf, errorResult_routeStatus]

/-- A node that was run writes one row, of a failure exactly if it ends the run. -/
theorem nodeWrites_cases (input : Value) (executed : Except String (Value × Option String)) :
    (∃ row, nodeWrites E n input executed = ([row], none) ∧ row.routeStatus ≠ .failed ∧
      (∀ e, executed = .error e → n.onError ≠ .stop)) ∨
    ∃ row e, nodeWrites E n input executed = ([row], some (.failed e)) ∧
      row.routeStatus = .failed := by
  unfold nodeWrites nodeTurn
  split
  · rename_i e hn
    exact .inr ⟨_, _, rfl, (resultOf_routeStatus n _).2 ⟨⟨e, rfl⟩, hn⟩⟩
  · rename_i hcase
    split_ifs
    · exact .inr ⟨_, _, rfl, rfl⟩
    · refine .inl ⟨_, rfl, fun h => ?_, fun e he hn => hcase e he hn⟩
      obtain ⟨⟨e, he⟩, hn⟩ := (resultOf_routeStatus n _).1 h
      exact hcase e he hn

/-- The node of a turn in the body of a loop is one of the body that had no fate. -/
theorem bodyTurn_cases (context : ExecContext) (outer : States) (iteration : ℕ)
    (item : Value) (states : States) :
    bodyTurn E graph n context outer iteration item states = .idle ∧
      ready (bodyGraph n.id graph).nodes (bodyGraph n.id graph).edges states = none ∨
    (∃ message, bodyTurn E graph n context outer iteration item states = .error message) ∨
    ∃ node input result, node ∈ (bodyGraph n.id graph).nodes ∧ states.get node.id = none ∧
      (bodyTurn E graph n context outer iteration item states = .write node input result ∧
          result.routeStatus ≠ .failed ∨
        ∃ message, bodyTurn E graph n context outer iteration item states =
            .stop node input result message ∧ result.routeStatus = .failed) := by
  unfold bodyTurn
  split
  · rename_i hnone
    exact .inl ⟨rfl, hnone⟩
  · rename_i r hr
    obtain ⟨hmem, hget⟩ := ready_eq_some hr
    right
    split_ifs with hdead
    · exact .inr ⟨_, _, _, hmem, hget, .inl ⟨rfl, by simp [skippedResult]⟩⟩
    · dsimp only
      unfold ranTurn
      split
      · rename_i e he hn
        exact .inr ⟨_, _, _, hmem, hget, .inr ⟨_, rfl, (resultOf_routeStatus _ _).2 ⟨⟨e, he⟩, hn⟩⟩⟩
      · rename_i hcase
        split_ifs
        · exact .inl ⟨_, rfl⟩
        · refine .inr ⟨_, _, _, hmem, hget, .inl ⟨rfl, fun h => ?_⟩⟩
          obtain ⟨⟨e, he⟩, hn⟩ := (resultOf_routeStatus _ _).1 h
          exact hcase e he hn

/-- The rows of a loop carry the number of their iteration. -/
theorem loopTurn_cases (context : ExecContext) (outer : States)
    (rows : List StepRow) (items : List Value) {iteration : ℕ} (hi : iteration ≠ 0)
    (results : List Value) :
    (∃ row, loopTurn E graph n context outer rows items iteration results = .row row ∧
      row.routeStatus ≠ .failed) ∨
    (∃ row message, loopTurn E graph n context outer rows items iteration results =
      .stop row message ∧ row.routeStatus = .failed ∧ row.iteration ≠ 0) ∨
    ∃ executed, loopTurn E graph n context outer rows items iteration results =
      .ended executed := by
  induction items generalizing iteration results with
  | nil => exact .inr (.inr ⟨_, rfl⟩)
  | cons item items ih =>
    rw [loopTurn]
    obtain ⟨h, -⟩ | ⟨message, h⟩ | ⟨node, input, result, -, -, ⟨h, hroute⟩ | ⟨message, h, hroute⟩⟩ :=
      bodyTurn_cases E graph n context outer iteration item
        (iterationStates graph n rows iteration)
    · simp only [h]
      split
      · exact .inr (.inr ⟨_, rfl⟩)
      · exact ih (Nat.succ_ne_zero iteration) _
    · simp only [h]
      exact .inr (.inr ⟨_, rfl⟩)
    · simp only [h]
      exact .inl ⟨_, rfl, hroute⟩
    · simp only [h]
      exact .inr (.inl ⟨_, _, rfl, hroute, hi⟩)

/-- A loop of the graph goes on where its body has failed. -/
def CatchesFailures (graph : FlowGraph) : Prop :=
  ∃ n ∈ graph.nodes, n.isLoop ∧ n.onError ≠ .stop

theorem orderly_nodeWrites (input : Value) (executed : Except String (Value × Option String)) :
    Orderly (CatchesFailures graph) (nodeWrites E n input executed) := by
  obtain ⟨row, h, hroute, -⟩ | ⟨row, e, h, hroute⟩ := nodeWrites_cases E n input executed
  · rw [h]
    exact .row hroute
  · rw [h]
    exact .stop _ hroute ⟨e, rfl⟩

end

theorem orderly_nextWrites (rows : List StepRow) :
    Orderly (CatchesFailures graph) (nextWrites E graph root rows) := by
  unfold nextWrites
  dsimp only
  split
  · split_ifs <;> exact .none _
  · rename_i r hr
    split_ifs with hdead hloop
    · exact .row (by simp [stepRow, skippedResult])
    · split
      · exact orderly_nodeWrites E graph _ _ _
      · rename_i items _
        obtain ⟨row, h, hroute⟩ | ⟨row, message, h, hroute, hi⟩ | ⟨executed, h⟩ :=
          loopTurn_cases E graph r.node
            (runContext graph root (statesOf rows StepRow.isTop) r) (statesOf rows StepRow.isTop)
            rows items one_ne_zero []
        · rw [h]
          exact .row hroute
        · rw [h]
          -- the loop has a row of its own for the failure in its body
          obtain ⟨row', h', hroute', hcatch⟩ | ⟨row', e, h', hroute'⟩ :=
            nodeWrites_cases E r.node
              (runContext graph root (statesOf rows StepRow.isTop) r).input (.error message)
          · simp only [loopWrites, h']
            exact .caught hroute hi hroute'
              ⟨r.node, (ready_eq_some hr).1, hloop, hcatch message rfl⟩
          · simp only [loopWrites, h']
            exact .stopped _ hroute hroute' ⟨e, rfl⟩
        · rw [h]
          exact orderly_nodeWrites E graph _ _ _
    · exact orderly_nodeWrites E graph _ _ _

variable {E graph root}

variable {rows rows' : List StepRow} {v : Verdict}

theorem Partial.fresh (h : Partial E graph root rows)
    (hend : endsWell rows) : Fresh E graph root rows := by
  obtain ⟨rows₀, pre, post, hfresh, hwrites, rfl⟩ := h
  have hnext : (nextWrites E graph root rows₀).2 = none → post = [] →
      Fresh E graph root (rows₀ ++ pre) := by
    rintro hnone rfl
    exact hfresh.tail ⟨hnone, by rw [hwrites, append_nil]⟩
  have hlast : ∀ row, pre.getLast? = some row → row.routeStatus ≠ .failed := by
    intro row hrow
    simpa [endsWell, getLast?_append, hrow] using hend
  have horderly := orderly_nextWrites E graph root rows₀
  generalize nextWrites E graph root rows₀ = w at hwrites hnext horderly
  cases horderly with
  | none v =>
    obtain ⟨rfl, rfl⟩ := append_eq_nil_iff.1 hwrites.symm
    simpa using hfresh
  | @row row hrow =>
    obtain ⟨rfl, -⟩ | ⟨rfl, rfl⟩ := append_eq_singleton_iff.1 hwrites.symm
    · simpa using hfresh
    · exact hnext rfl rfl
  | @stop row v hrow =>
    obtain ⟨rfl, -⟩ | ⟨rfl, rfl⟩ := append_eq_singleton_iff.1 hwrites.symm
    · simpa using hfresh
    · exact absurd hrow (hlast row rfl)
  | @caught row row' hrow hi hrow' =>
    match pre, hwrites with
    | [], _ => simpa using hfresh
    | [r], hwrites =>
      cases hwrites
      exact absurd hrow (hlast row rfl)
    | r :: r' :: pre, hwrites =>
      obtain ⟨-, -, -, rfl⟩ : row = r ∧ row' = r' ∧ pre = [] ∧ post = [] := by
        simpa using hwrites
      exact hnext rfl rfl
  | @stopped row row' v hrow hrow' =>
    match pre, hwrites with
    | [], _ => simpa using hfresh
    | [r], hwrites =>
      cases hwrites
      exact absurd hrow (hlast row rfl)
    | r :: r' :: pre, hwrites =>
      obtain ⟨-, rfl, rfl, -⟩ : row = r ∧ row' = r' ∧ pre = [] ∧ post = [] := by
        simpa using hwrites
      exact absurd hrow' (hlast row' rfl)

theorem Fresh.eq_of_final (hv : (nextWrites E graph root rows).2 = some v)
    (h : Relation.ReflTransGen (Advances E graph root) rows rows') : rows' = rows := by
  obtain rfl | ⟨rows'', hstep, -⟩ := Relation.ReflTransGen.cases_head h
  · rfl
  · cases hv.symm.trans hstep.1

theorem rightUnique_advances : Relator.RightUnique (Advances E graph root) := by
  rintro a b c ⟨-, rfl⟩ ⟨-, rfl⟩
  rfl

theorem Final.unique {v' : Verdict}
    (h : Final E graph root rows v) (h' : Final E graph root rows' v') : rows = rows' ∧ v = v' := by
  obtain ⟨rows₀, hfresh, hv, rfl⟩ := h
  obtain ⟨rows₀', hfresh', hv', rfl⟩ := h'
  have hsame : rows₀ = rows₀' := by
    obtain h | h := Relation.ReflTransGen.total_of_right_unique rightUnique_advances hfresh hfresh'
    · exact (Fresh.eq_of_final hv h).symm
    · exact Fresh.eq_of_final hv' h
  subst hsame
  exact ⟨rfl, Option.some.inj (hv.symm.trans hv')⟩

theorem part_of_advances
    (h : Relation.ReflTransGen (Advances E graph root) rows rows') : rows <+: rows' := by
  induction h with
  | refl => exact prefix_rfl
  | tail _ hstep ih =>
    obtain ⟨-, rfl⟩ := hstep
    exact ih.trans (prefix_append _ _)

/-- The rows of a run that has not ended are a part of those it ends with. -/
theorem Partial.part_of_final
    (h : Partial E graph root rows) (h' : Final E graph root rows' v) : rows <+: rows' := by
  obtain ⟨rows₀, pre, post, hfresh, hwrites, rfl⟩ := h
  obtain ⟨rows₀', hfresh', hv', rfl⟩ := h'
  have hpart : rows₀ ++ pre <+: rows₀ ++ (nextWrites E graph root rows₀).1 := by
    rw [hwrites, ← append_assoc]
    exact prefix_append _ _
  obtain h | h := Relation.ReflTransGen.total_of_right_unique rightUnique_advances hfresh hfresh'
  · obtain rfl | ⟨rows₁, hstep, hrest⟩ := Relation.ReflTransGen.cases_head h
    · exact hpart
    · obtain ⟨-, rfl⟩ := hstep
      exact hpart.trans ((part_of_advances hrest).trans (prefix_append _ _))
  · cases Fresh.eq_of_final hv' h
    exact hpart

/-- In rows from which a run can be taken up, every failure is one that a loop has caught. -/
theorem Fresh.caught (h : Fresh E graph root rows) {row : StepRow}
    (hrow : row ∈ rows) (hfailed : row.routeStatus = .failed) :
    row.iteration ≠ 0 ∧ CatchesFailures graph := by
  induction h with
  | refl => cases hrow
  | @tail rows rows' _ hstep ih =>
    obtain ⟨hnone, rfl⟩ := hstep
    obtain hmem | hmem := mem_append.1 hrow
    · exact ih hmem
    · have horderly := orderly_nextWrites E graph root rows
      generalize nextWrites E graph root rows = w at hnone hmem horderly
      cases horderly with
      | none v => cases hmem
      | row h =>
        cases mem_singleton.1 hmem
        exact absurd hfailed h
      | stop v h => cases hnone
      | caught h hi h' hl =>
        simp only [mem_cons, not_mem_nil, or_false] at hmem
        obtain rfl | rfl := hmem
        · exact ⟨hi, hl⟩
        · exact absurd hfailed h'
      | stopped v h h' => cases hnone

theorem Final.fresh_of_complete {output : Value}
    (h : Final E graph root rows (.complete output)) : Fresh E graph root rows := by
  obtain ⟨rows₀, hfresh, hv, rfl⟩ := h
  have horderly := orderly_nextWrites E graph root rows₀
  generalize nextWrites E graph root rows₀ = w at hv horderly
  cases horderly with
  | none v => simpa using hfresh
  | row h => cases hv
  | stop v h he =>
    obtain ⟨e, rfl⟩ := he
    cases hv
  | caught h hi h' hl => cases hv
  | stopped v h h' he =>
    obtain ⟨e, rfl⟩ := he
    cases hv

end Shape

end Flow

end RandallFlare
