import RandallFlare.Flow.Contract

/-!
# Taking up a run

A driver writes the rows that come next, and ends the run as its rows say.  One that dies after it
has written the row of a failure, and before it has said so on the run or on the loop the failure
was in, is not missed: the next takes the row for the fate of its node and goes on.

* `Played`, `Position`: how far a loop has come;
* `RecoversClean`: the drivers that requeue no run whose last row is that of a failure;
* `resumed_verdict`: in such runs a flow run has one end, whatever drivers died;
* `forgottenFailure_complete`: a run that is reported complete after its node has failed;
* `steps_prefix_of_run`: the log of a run only grows.
-/

namespace RandallFlare

namespace Flow

open Programs Prog StepRow Ledger Pool List Runs

section Driver

variable {E : Engine} {pid id : String} {graph : FlowGraph} {root : Value}

/-- The run is over `graph` with the input `root`, and its log is `rows` while the driver holds
it. -/
structure Holds (pid id : String) (graph : FlowGraph) (root : Value) (rows : List StepRow)
    (s : Ledger) : Prop where
  plan : s.plan id = some (graph, root)
  log : s.leased id pid → s.steps id = rows

variable {rows : List StepRow} {s t : Ledger} {row : StepRow} {turn : Turn}
  {done results rest : List Value}

theorem Holds.rely (h : Holds pid id graph root rows s)
    (hst : Undisturbed pid s t) : Holds pid id graph root rows t :=
  ⟨hst.plan _ _ h.plan, fun hl => (hst.steps id hl).trans (h.log (hst.lease id hl))⟩

theorem Holds.persistRow {refused : String} {α : Type} {post : α → Ledger → Prop}
    {f : Except String Unit → FlowProg α} (hs : Holds pid id graph root rows s)
    (hext : Extends E graph root rows row)
    (hnew : ∀ old ∈ rows, ¬ (old.nodeId = row.nodeId ∧ old.iteration = row.iteration))
    (hlost : ∀ e t, t.leased id pid = false → Keeps E pid post (f (.error e)) t)
    (hnext : ∀ t, Holds pid id graph root (rows ++ [row]) t → Keeps E pid post (f (.ok ())) t) :
    Keeps E pid post (persistRow refused id pid row >>= f) s := by
  intro t hst _ x _
  have ht := hs.rely hst
  refine ⟨⟨rfl, fun hl graph' root' hplan => ?_⟩, ?_⟩
  · cases ht.plan.symm.trans hplan
    rw [ht.log hl]
    exact hext
  · by_cases hl : t.leased id pid
    · have hins : exec (.insertStep id pid row) x t =
          ({ t with steps := Function.update t.steps id (t.steps id ++ [row]) }, 1) := by
        refine if_pos ⟨hl, ?_⟩
        rw [ht.log hl]
        simpa using hnew
      rw [hins]
      have hwritten : Holds pid id graph root (rows ++ [row])
          { t with steps := Function.update t.steps id (t.steps id ++ [row]) } :=
        ⟨ht.plan, fun _ => by simp [ht.log hl]⟩
      refine fun u hu _ y _ => ⟨trivial, hnext _ ?_⟩
      have hu' := hwritten.rely hu
      refine ⟨plan_exec (.renew id pid) y hu'.plan, fun h => ?_⟩
      obtain h | ⟨nowMs, h⟩ := leased_of_exec h
      · exact (congrFun (update_steps ..) id).trans (hu'.log h)
      · cases h
    · have hins : exec (.insertStep id pid row) x t = (t, 0) := if_neg fun h => hl h.1
      rw [hins]
      exact hlost _ t (Bool.eq_false_iff.2 hl)

/-! ### Loops -/

section Loop

variable (E graph root) (states : States) (r : Ready)

/-- The loop `r` is the node that comes next, over these items. -/
structure InLoop (items : List Value) : Prop where
  ready : ready graph.nodes graph.edges states = some r
  alive : r.dead = false
  loop : r.node.isLoop
  items : loopItems E r.node (runContext graph root states r) = .ok items

/-- The iterations over `done` have ended with `results`. -/
inductive Played (rows : List StepRow) : List Value → List Value → Prop
  | nil : Played rows [] []
  | snoc {done results : List Value} {item output : Value} (h : Played rows done results)
      (hidle : bodyTurn E graph r.node (runContext graph root states r) states (done.length + 1)
        item (iterationStates graph r.node rows (done.length + 1)) = .idle)
      (hout : iterationOutput graph r.node (done.length + 1) item
        (iterationStates graph r.node rows (done.length + 1)) = .ok output) :
      Played rows (done ++ [item]) (results ++ [output])

/-- The rows are those of a run that has come so far in the loop. -/
structure Position (rows : List StepRow) (done results : List Value) : Prop where
  fresh : Fresh E graph root rows
  top : statesOf rows isTop = states
  played : Played E graph root states r rows done results

/-- The run is lost, or what is left of the rows that come next is what the turn writes. -/
def Turned (pid id : String) (turn : Turn) (s : Ledger) : Prop :=
  s.leased id pid = false ∨ ∃ rows pre, Fresh E graph root rows ∧
    Holds pid id graph root (rows ++ pre) s ∧ statesOf (rows ++ pre) isTop = states ∧
    nextWrites E graph root rows = (pre ++ (turnWrites turn).1, (turnWrites turn).2)

end Loop

variable {states : States} {r : Ready} {items : List Value}

theorem Turned.rely (h : Turned E graph root states pid id turn s)
    (hst : Undisturbed pid s t) : Turned E graph root states pid id turn t := by
  obtain h | ⟨rows, pre, hfresh, hs, hrest⟩ := h
  · exact .inl (Bool.eq_false_iff.2 fun ht => by simp [hst.lease id ht] at h)
  · exact .inr ⟨rows, pre, hfresh, hs.rely hst, hrest⟩

theorem loopTurn_of_played
    (h : Played E graph root states r rows done results) (rest : List Value) :
    loopTurn E graph r.node (runContext graph root states r) states rows (done ++ rest) 1 [] =
      loopTurn E graph r.node (runContext graph root states r) states rows rest
        (done.length + 1) results := by
  induction h generalizing rest with
  | nil => rfl
  | @snoc done results item output _ hidle hout ih =>
    rw [append_assoc, ih, singleton_append, loopTurn, hidle, hout]
    simp

theorem Played.congr {rows' : List StepRow} (h : Played E graph root states r rows done results)
    (hsame : ∀ i ≤ done.length,
      iterationStates graph r.node rows' i = iterationStates graph r.node rows i) :
    Played E graph root states r rows' done results := by
  induction h with
  | nil => exact .nil
  | snoc _ hidle hout ih =>
    simp only [length_append, length_singleton] at hsame
    rw [← hsame _ le_rfl] at hidle hout
    exact .snoc (ih fun i hi => hsame i (by omega)) hidle hout

section

variable (h : Position E graph root states r rows done results)

include h

theorem Position.nextWrites_eq (hloop : InLoop E graph root states r items)
    (hitems : items = done ++ rest) :
    nextWrites E graph root rows = loopWrites E r.node (runContext graph root states r).input
      (loopTurn E graph r.node (runContext graph root states r) states rows rest
        (done.length + 1) results) := by
  unfold nextWrites
  simp only [h.top, hloop.ready, hloop.alive, hloop.loop, hloop.items, hitems,
    loopTurn_of_played h.played]
  simp

theorem Position.turned_of_ended (hloop : InLoop E graph root states r items)
    {executed : Except String (List Value)}
    (hitems : items = done ++ rest) (hs : Holds pid id graph root rows s)
    (hturn : loopTurn E graph r.node (runContext graph root states r) states rows rest
      (done.length + 1) results = .ended executed) :
    Turned E graph root states pid id (nodeTurn E r.node (runContext graph root states r).input
      (executed.map fun results => (.arr results, some "done"))) s := by
  have hnext := h.nextWrites_eq hloop hitems
  rw [hturn] at hnext
  refine .inr ⟨rows, [], h.fresh, ?_, ?_, hnext⟩
  · rwa [append_nil]
  · rw [append_nil, h.top]

omit h in
theorem iterationStates_append_of_ne (n : FlowNode) {i : ℕ} (h : row.iteration ≠ i) :
    iterationStates graph n (rows ++ [row]) i = iterationStates graph n rows i := by
  simp [iterationStates, statesOf_append, isIn, h]

/-- A loop that has come so far has come so far with one more row of the next iteration. -/
theorem Position.append
    (hnext : nextWrites E graph root rows = ([row], none)) (hi : row.iteration = done.length + 1) :
    Position E graph root states r (rows ++ [row]) done results where
  fresh := h.fresh.tail ⟨by rw [hnext], by rw [hnext]⟩
  top := by
    rw [statesOf_append, if_neg (by simp [isTop, hi]), h.top]
  played := h.played.congr fun i hle => iterationStates_append_of_ne r.node (by omega)

end

theorem length_unfated_lt {nodes : List FlowNode} {inner : States} {n : FlowNode}
    (hn : n ∈ nodes) (hget : inner.get n.id = none) (state : StepState) :
    (nodes.filter fun b => ((inner.insert n.id state).get b.id).isNone).length <
      (nodes.filter fun b => (inner.get b.id).isNone).length := by
  have hsame : (nodes.filter fun b => ((inner.insert n.id state).get b.id).isNone) =
      (nodes.filter fun b => (inner.get b.id).isNone).filter fun b => b.id ≠ n.id := by
    rw [filter_filter]
    refine filter_congr fun b _ => ?_
    by_cases hb : b.id = n.id <;> simp [SortedMap.get_insert, hb]
  rw [hsame, length_filter_lt_length_iff_exists]
  exact ⟨n, mem_filter.2 ⟨hn, by simp [hget]⟩, by simp⟩

/-- Where an iteration has ended: its nodes have their fates, and those of the later ones are as
they were. -/
structure Iterated (E : Engine) (pid id : String) (graph : FlowGraph) (root : Value)
    (states : States) (r : Ready) (rows : List StepRow) (done results : List Value) (item : Value)
    (inner : States) (rows' : List StepRow) (s : Ledger) : Prop where
  holds : Holds pid id graph root rows' s
  position : Position E graph root states r rows' done results
  fates : inner = iterationStates graph r.node rows' (done.length + 1)
  idle : bodyTurn E graph r.node (runContext graph root states r) states (done.length + 1) item
    inner = .idle
  later : ∀ i, done.length + 1 < i →
    iterationStates graph r.node rows' i = iterationStates graph r.node rows i

/-- An iteration writes what comes next, up to its end or to an error that the loop ends with. -/
theorem safe_iterateBody (hloop : InLoop E graph root states r items) {item : Value}
    (hitems : items = done ++ item :: rest) (fuel : ℕ)
    (hpos : Position E graph root states r rows done results)
    (hfuel : ((bodyGraph r.node.id graph).nodes.filter fun b =>
      ((iterationStates graph r.node rows (done.length + 1)).get b.id).isNone).length ≤ fuel)
    (hs : Holds pid id graph root rows s) : Keeps E pid (fun ended t => match ended with
        | .ok inner => ∃ rows',
          Iterated E pid id graph root states r rows done results item inner rows' t
        | .error e => Turned E graph root states pid id
          (nodeTurn E r.node (runContext graph root states r).input (.error e)) t)
      (iterateBody id pid
        (bodyTurn E graph r.node (runContext graph root states r) states (done.length + 1) item)
        (done.length + 1) fuel (iterationStates graph r.node rows (done.length + 1))) s := by
  have hnext := hpos.nextWrites_eq hloop hitems
  induction fuel generalizing rows s with
  | zero =>
    -- no node is left to run
    have hidle : bodyTurn E graph r.node (runContext graph root states r) states (done.length + 1)
        item (iterationStates graph r.node rows (done.length + 1)) = .idle := by
      unfold bodyTurn
      rw [ready_eq_none fun b hb => ?_]
      rw [Nat.le_zero, length_eq_zero_iff, filter_eq_nil_iff] at hfuel
      simpa [Option.isSome_iff_ne_none] using hfuel b hb
    exact fun t hst => ⟨rows, hs.rely hst, hpos, rfl, hidle, fun _ _ => rfl⟩
  | succ fuel ih =>
    rw [loopTurn] at hnext
    rw [iterateBody]
    obtain ⟨h, -⟩ | ⟨message, h⟩ | ⟨node, input, result, hmem, hget, hturn⟩ :=
      bodyTurn_cases E graph r.node (runContext graph root states r) states (done.length + 1) item
        (iterationStates graph r.node rows (done.length + 1))
    · simp only [h]
      exact fun t hst => ⟨rows, hs.rely hst, hpos, rfl, h, fun _ _ => rfl⟩
    · have hturn : loopTurn E graph r.node (runContext graph root states r) states rows
          (item :: rest) (done.length + 1) results = .ended (.error message) := by
        simp only [loopTurn, h]
      simp only [h]
      exact fun t hst => hpos.turned_of_ended hloop hitems (hs.rely hst) hturn
    · have hbody : node.id ∈ loopBody r.node.id graph := by
        simpa using (mem_filter.1 hmem).2
      have hnew : ∀ old ∈ rows, ¬ (old.nodeId = node.id ∧ old.iteration = done.length + 1) := by
        rintro old hold ⟨hid, hi⟩
        exact ne_of_get_statesOf hget hold (by simp [isIn, hid, hi, hbody]) hid
      have hlost : ∀ e t, t.leased id pid = false → ∀ u, Undisturbed pid t u →
          Turned E graph root states pid id
            (nodeTurn E r.node (runContext graph root states r).input (.error e)) u :=
        fun e t ht u hu => Turned.rely (.inl ht) hu
      obtain ⟨h, -⟩ | ⟨message, h, -⟩ := hturn
      · simp only [h] at hnext ⊢
        have hpos' := hpos.append hnext rfl
        have hinner : iterationStates graph r.node
            (rows ++ [stepRow node (done.length + 1) input result]) (done.length + 1) =
            (iterationStates graph r.node rows (done.length + 1)).insert node.id result.state := by
          rw [iterationStates, statesOf_append, if_pos (by simp [isIn, stepRow, hbody])]
          rfl
        refine hs.persistRow ⟨rows, [], [], hpos.fresh, by rw [hnext]; rfl,
          (append_nil rows).symm⟩ hnew hlost fun t ht => ?_
        have hlt := length_unfated_lt hmem hget result.state
        rw [← hinner] at hlt
        rw [← hinner]
        refine (ih hpos' (by omega) ht (hpos'.nextWrites_eq hloop hitems)).mono
          fun ended u hu => ?_
        cases ended with
        | error e => exact hu
        | ok inner =>
          obtain ⟨rows', hit⟩ := hu
          refine ⟨rows', { hit with later := fun i hi => ?_ }⟩
          rw [hit.later i hi]
          exact iterationStates_append_of_ne r.node (Nat.ne_of_lt hi)
      · simp only [h] at hnext ⊢
        refine hs.persistRow ⟨rows, [], _, hpos.fresh, by rw [hnext]; rfl,
          (append_nil rows).symm⟩ hnew hlost fun t ht u hu => Turned.rely (.inr
            ⟨rows, [_], hpos.fresh, ht, ?_, hnext⟩) hu
        rw [statesOf_append, if_neg (by simp [isTop, stepRow]), hpos.top]

/-- A loop writes what comes next, and ends as its rows say. -/
theorem safe_runIterations (hloop : InLoop E graph root states r items) {persisted : List StepRow}
    (hitems : items = done ++ rest) (hpos : Position E graph root states r rows done results)
    (hlater : ∀ i, done.length < i →
      iterationStates graph r.node persisted i = iterationStates graph r.node rows i)
    (hs : Holds pid id graph root rows s) : Keeps E pid
      (fun ended t => Turned E graph root states pid id
        (nodeTurn E r.node (runContext graph root states r).input
          (ended.map fun results => (.arr results, some "done"))) t)
      (runIterations E id pid graph r.node (runContext graph root states r) states persisted rest
        (done.length + 1) results) s := by
  induction rest generalizing done results rows s with
  | nil => exact fun t hst => hpos.turned_of_ended hloop hitems (hs.rely hst) rfl
  | cons item rest ih =>
    change Safe _ _ _ _ (Prog.bind (iterateBody _ _ _ _ _
      (iterationStates graph r.node persisted (done.length + 1))) _) s
    rw [hlater _ (Nat.lt_succ_self _)]
    refine (safe_iterateBody hloop hitems _ hpos (length_filter_le _ _) hs).seq
      fun ended t ht => ?_
    cases ended with
    | error e => exact fun u hu => ht.rely hu
    | ok inner =>
      obtain ⟨rows', hit⟩ := ht
      obtain rfl := hit.fates
      cases hout : iterationOutput graph r.node (done.length + 1) item
        (iterationStates graph r.node rows' (done.length + 1)) with
      | error e =>
        simp only [hout]
        refine fun u hu => hit.position.turned_of_ended hloop hitems (hit.holds.rely hu) ?_
        simp only [loopTurn, hit.idle, hout]
      | ok output =>
        simp only [hout]
        have hlength : done.length + 1 = (done ++ [item]).length := by simp
        rw [hlength]
        have hitems' : items = (done ++ [item]) ++ rest := by simp [hitems]
        refine ih hitems'
          { hit.position with played := hit.position.played.snoc hit.idle hout } (fun i hi => ?_)
          hit.holds
        rw [← hlength] at hi
        rw [hit.later i hi, hlater i (by omega)]

theorem safe_executeLoop
    (hr : ready graph.nodes graph.edges states = some r) (halive : r.dead = false)
    (hloop : r.node.isLoop) (hfresh : Fresh E graph root rows)
    (htop : statesOf rows isTop = states) (hs : Holds pid id graph root rows s) :
    Keeps E pid (fun executed => Turned E graph root states pid id
        (nodeTurn E r.node (runContext graph root states r).input executed))
      (executeLoop E id pid graph r.node (runContext graph root states r) states) s := by
  unfold executeLoop
  cases hitems : loopItems E r.node (runContext graph root states r) with
  | error e =>
    refine fun t hst => .inr ⟨rows, [], hfresh, ?_, ?_, ?_⟩
    · rw [append_nil]
      exact hs.rely hst
    · rw [append_nil, htop]
    · unfold nextWrites
      simp only [htop, hr, halive, hloop, hitems]
      rfl
  | ok items =>
    intro t hst _ x _
    refine ⟨trivial, ?_⟩
    have ht := hs.rely hst
    by_cases hl : t.leased id pid
    · simp only [exec, ret_bind, ht.log hl]
      refine (safe_runIterations ⟨hr, halive, hloop, hitems⟩ rfl ⟨hfresh, htop, .nil⟩
        (fun _ _ => rfl) ht).seq fun ended u hu => ?_
      cases ended <;> exact fun v hv => hu.rely hv
    · -- the driver has lost the run, and what it read does not matter
      refine (safe_lost ?_ (Bool.eq_false_iff.2 hl)).mono fun _ _ h => .inl h
      refine (all_runIterations _ _ _ _ _ _ _).bind fun ended => ?_
      cases ended <;> trivial

/-! ### Whole rounds -/

theorem nodeTurn_cases (E : Engine) (n : FlowNode) (input : Value)
    (executed : Except String (Value × Option String)) :
    ∃ result, nodeTurn E n input executed = .write n input result ∨
      ∃ message, nodeTurn E n input executed = .stop n input result message := by
  unfold nodeTurn
  split
  · exact ⟨_, .inr ⟨_, rfl⟩⟩
  · split_ifs
    · exact ⟨_, .inr ⟨_, rfl⟩⟩
    · exact ⟨_, .inl rfl⟩

/-- The row of a turn is written, and what follows is safe or the run is ended as its rows say. -/
theorem safe_settleTurn {input : Value} {result : ExecResult}
    {next : States → FlowProg (Except String Unit)}
    (hr : ready graph.nodes graph.edges states = some r)
    (hturn : turn = .write r.node input result ∨ ∃ message, turn = .stop r.node input result message)
    (hs : Turned E graph root states pid id turn s)
    (hall : ∀ states, (next states).All (Stmt.within id pid))
    (hnext : ∀ rows t, Fresh E graph root rows → Holds pid id graph root rows t →
      Keeps E pid (fun _ _ => True) (next (statesOf rows isTop)) t) :
    Keeps E pid (fun _ _ => True) (settleTurn id pid states next turn) s := by
  obtain hlost | ⟨rows, pre, hfresh, hs, htop, hwrites⟩ := hs
  · exact (safe_lost (all_settleTurn hall turn) hlost).mono fun _ _ _ => trivial
  · have hget := (ready_eq_some hr).2
    have hnew : ∀ old ∈ rows ++ pre, ¬ (old.nodeId = r.node.id ∧ old.iteration = 0) := by
      rintro old hold ⟨hid, hi⟩
      rw [← htop] at hget
      exact ne_of_get_statesOf hget hold (by simp [isTop, hi]) hid
    have hext : Extends E graph root (rows ++ pre) (stepRow r.node 0 input result) := by
      refine ⟨rows, pre, [], hfresh, ?_, rfl⟩
      obtain rfl | ⟨message, rfl⟩ := hturn <;> rw [hwrites] <;> rfl
    obtain rfl | ⟨message, rfl⟩ := hturn
    · refine hs.persistRow hext hnew (fun _ _ _ _ _ => trivial) fun t ht => ?_
      have hstates : statesOf (rows ++ pre ++ [stepRow r.node 0 input result]) isTop =
          states.insert r.node.id result.state := by
        rw [statesOf_append, if_pos (by simp [isTop, stepRow]), htop]
        rfl
      rw [← hstates]
      refine hnext _ t (hfresh.tail ⟨by rw [hwrites]; rfl, ?_⟩) ht
      rw [hwrites, append_assoc]
      rfl
    · refine hs.persistRow hext hnew (fun _ _ _ _ _ => trivial) fun t ht u hu _ x _ =>
        ⟨⟨rfl, fun hl graph' root' hplan => ?_⟩, fun _ _ => trivial⟩
      cases (ht.rely hu).plan.symm.trans hplan
      rw [(ht.rely hu).log hl]
      exact ⟨rows, hfresh, by rw [hwrites]; rfl, by rw [hwrites, append_assoc]; rfl⟩

/-- Where the rows end the run and no more come, the run may be ended so. -/
theorem Holds.final {v : Verdict}
    (hs : Holds pid id graph root rows s) (hfresh : Fresh E graph root rows)
    (hv : nextWrites E graph root rows = ([], some v)) (hst : Undisturbed pid s t)
    (hl : t.leased id pid) (graph' : FlowGraph) (root' : Value)
    (hplan : t.plan id = some (graph', root')) : Final E graph' root' (t.steps id) v := by
  cases (hs.rely hst).plan.symm.trans hplan
  rw [(hs.rely hst).log hl]
  exact ⟨rows, hfresh, by rw [hv], by rw [hv, append_nil]⟩

/-- A driver writes the rows that come next, for so many nodes as its lease may run. -/
theorem safe_advanceNodes (fuel : ℕ)
    (hfresh : Fresh E graph root rows) (hs : Holds pid id graph root rows s) :
    Keeps E pid (fun _ _ => True)
      (advanceNodes E id pid graph root fuel (statesOf rows isTop)) s := by
  induction fuel generalizing rows s with
  | zero =>
    refine fun t hst _ x _ => ⟨⟨rfl, fun hl graph' root' hplan => ?_⟩, fun _ _ => trivial⟩
    cases (hs.rely hst).plan.symm.trans hplan
    rw [(hs.rely hst).log hl]
    exact hfresh
  | succ fuel ih =>
    rw [advanceNodes]
    cases hr : ready graph.nodes graph.edges (statesOf rows isTop) with
    | none =>
      split_ifs with hlength
      · refine fun t hst _ x _ => ⟨⟨rfl, hs.final hfresh ?_ hst⟩, fun _ _ => trivial⟩
        simp only [nextWrites, hr, if_pos hlength]
      · unfold completeClaim
        split_ifs with hsize
        · exact fun _ _ => trivial
        · refine fun t hst _ x _ => ⟨⟨rfl, hs.final hfresh ?_ hst⟩, fun _ _ => trivial⟩
          simp only [nextWrites, hr, if_neg hlength, if_neg hsize]
    | some r =>
      have hnext : ∀ rows t, Fresh E graph root rows → Holds pid id graph root rows t →
          Keeps E pid (fun _ _ => True)
            (advanceNodes E id pid graph root fuel (statesOf rows isTop)) t :=
        fun rows t hfresh ht => ih hfresh ht
      have hnow : ∀ turn, nextWrites E graph root rows = turnWrites turn →
          Turned E graph root (statesOf rows isTop) pid id turn s := by
        refine fun turn hwrites => .inr ⟨rows, [], hfresh, ?_, ?_, hwrites⟩
        · rwa [append_nil]
        · rw [append_nil]
      dsimp only
      split_ifs with hdead hloop
      · refine safe_settleTurn hr (.inl rfl) (hnow _ ?_) (all_advanceNodes fuel) hnext
        simp only [nextWrites, hr, if_pos hdead]
      · refine (safe_executeLoop hr (Bool.eq_false_iff.2 hdead) hloop hfresh rfl hs).seq
          fun executed t ht => ?_
        obtain ⟨result, hturn⟩ := nodeTurn_cases E r.node _ executed
        exact safe_settleTurn hr hturn ht (all_advanceNodes fuel) hnext
      · obtain ⟨result, hturn⟩ := nodeTurn_cases E r.node
          (runContext graph root (statesOf rows isTop) r).input
          (E.execute r.node 0 (runContext graph root (statesOf rows isTop) r))
        refine safe_settleTurn hr hturn (hnow _ ?_) (all_advanceNodes fuel) hnext
        simp only [nextWrites, hr, if_neg hdead, if_neg hloop]
        rfl

/-- The run can be taken up by the driver that holds it. -/
structure Taken (E : Engine) (pid id : String) (graph : FlowGraph) (root : Value) (s : Ledger) :
    Prop where
  plan : s.plan id = some (graph, root)
  fresh : s.leased id pid → Fresh E graph root (s.steps id)

theorem Taken.rely (h : Taken E pid id graph root s) (hst : Undisturbed pid s t) :
    Taken E pid id graph root t where
  plan := hst.plan _ _ h.plan
  fresh hl := by
    rw [hst.steps id hl]
    exact h.fresh (hst.lease id hl)

/-- A run that was claimed was queued, and so can be taken up. -/
theorem taken_claim {nowMs : ℕ} {x : Env} (hs : Resumable E s)
    (h : (exec (.claim id pid nowMs) x s).2 = 1) :
    ∃ graph root, Taken E pid id graph root (exec (.claim id pid nowMs) x s).1 := by
  cases hr : s.runs.get id with
  | none =>
    simp only [exec, update, hr] at h
    cases h
  | some r =>
    have hplan : s.plan id = some (r.graph, r.input) := by simp [plan, hr]
    refine ⟨r.graph, r.input, plan_exec _ x hplan, fun _ => ?_⟩
    have hqueued : r.status = .queued := by
      simp only [exec, update, hr] at h
      split_ifs at h with hg
      simpa using (Bool.and_eq_true_iff.1 hg).1
    have hok := (hs.run id r hr).2
    simp only [hqueued] at hok
    simpa [exec] using hok

theorem safe_claimRun : Keeps E pid (fun claimed t => ∀ id run, claimed = .ok (some (id, run)) →
        Taken E pid id run.graph run.input t) (claimRun E pid) s := by
  refine fun t _ _ x _ => ⟨trivial, fun u _ _ y _ => ⟨trivial, ?_⟩⟩
  simp only [exec, ret_bind]
  split
  · rintro v - id run ⟨⟩
  · rename_i id _
    refine fun v hv hinv z _ => ⟨rfl, ?_⟩
    simp only [ret_bind]
    split_ifs with hchanged
    · obtain ⟨graph, root, htaken⟩ := taken_claim hinv hchanged
      refine fun w hw _ _ _ => ⟨trivial, ?_⟩
      have hw' := htaken.rely hw
      simp only [exec, ret_bind]
      split
      · rintro w' - id run ⟨⟩
      · rename_i run hrun
        split_ifs
        · rintro w' hw'' id' run' ⟨⟩
          have hplan : w.plan id = some (run.graph, run.input) := by
            simp [plan, (Option.filter_eq_some_iff.1 hrun).1]
          cases hw'.plan.symm.trans hplan
          exact hw'.rely hw''
        · rintro w' - id run ⟨⟩
    · rintro w - id run ⟨⟩

theorem safe_drive : Keeps E pid (fun _ _ => True) (drive E pid) s := by
  refine fun t _ _ x _ => ⟨trivial, fun u _ _ y _ => ⟨trivial, ?_⟩⟩
  refine safe_claimRun.seq fun claimed v hv => ?_
  split
  · rename_i id run
    refine fun w hw _ z _ => ⟨trivial, ?_⟩
    have htaken := (hv id run rfl).rely hw
    have hsafe : Keeps E pid (fun _ _ => True)
        (advanceNodes E id pid run.graph run.input maxNodesPerAdvance
          (statesOf (w.steps id) isTop)) w := by
      by_cases hl : w.leased id pid
      · exact safe_advanceNodes _ (htaken.fresh hl) ⟨htaken.plan, fun _ => rfl⟩
      · exact (safe_lost (all_advanceNodes _ _) (Bool.eq_false_iff.2 hl)).mono fun _ _ _ => trivial
    exact hsafe.seq fun _ _ _ _ _ => trivial
  · exact fun _ _ => trivial

end Driver

/-! ### Whole runs -/

/-- No driver requeues a run whose last row is that of a failure. -/
def RecoversClean : FlowPool → FlowEvent → Prop :=
  OnCommand fun _ _ c _ s => c.recoversClean s

instance (p : FlowPool) (e : FlowEvent) : Decidable (RecoversClean p e) :=
  OnCommand.decidable p e

theorem fits_flowContract (E : Engine) :
    Fits (drivers E) RecoversClean (Resumable E) (fun _ _ => True)
      fun pid _ => flowContract E pid where
  lawful pid _ := lawful_flowContract E pid
  assumes p id x r c next hok h := hok r c next h
  keeps _ _ _ _ _ hs hclean hc := resumable_exec hs hclean hc
  ignores _ _ _ _ _ _ _ _ _ := trivial
  tolerates _ _ _ _ _ _ _ _ _ _ hne _ _ _ _ hc := undisturbed_exec hne hc
  starts p id r _ _ _ := by
    cases r with
    | create graph input maxRuns =>
      exact Safe.of_all ⟨fun _ _ _ _ => trivial, fun _ => ⟨fun _ _ _ _ => trivial, fun _ => trivial⟩⟩
    | cancel id => exact Safe.of_all ⟨fun _ _ _ _ => trivial, fun _ => trivial⟩
    | drive => exact safe_drive

theorem resumable_empty (E : Engine) : Resumable E .empty where
  run id r h := by simp [empty] at h
  unknown _ _ := rfl

variable {E : Engine} {r : FlowRun} {rows : List StepRow}

theorem resumable_run {es : List FlowEvent} {p : FlowPool}
    (hes : Runs.Meets (drivers E).step RecoversClean (idle .empty) es)
    (h : run (drivers E).step (idle .empty) es = some p) : Resumable E p.store :=
  (sound_run (fits_flowContract E) (Pool.Sound.idle exec _ (resumable_empty E)
    fun _ => trivial) hes h).holds

/-- How a run has ended: with an output, or with the text of an error. -/
def FlowRun.verdict (r : FlowRun) : Option Verdict :=
  match r.status with
  | .complete => r.output.map .complete
  | .failed => r.error.map .failed
  | _ => none

theorem RunOk.final {v : Verdict}
    (h : RunOk E r rows) (hv : r.verdict = some v) : Final E r.graph r.input rows v := by
  obtain ⟨-, h⟩ := h
  unfold FlowRun.verdict at hv
  split at hv
  · rename_i hstatus
    simp only [hstatus] at h
    obtain ⟨output, ho, hfinal⟩ := h
    rw [ho] at hv
    cases hv
    exact hfinal
  · rename_i hstatus
    simp only [hstatus] at h
    obtain ⟨error, he, hfinal⟩ := h
    rw [he] at hv
    cases hv
    exact hfinal
  · cases hv

theorem RunOk.part (h : RunOk E r rows) (hactive : r.active) : Partial E r.graph r.input rows := by
  obtain ⟨-, h⟩ := h
  obtain hstatus | hstatus : r.status = .queued ∨ r.status = .running := by
    simpa [FlowRun.active] using hactive
  · simp only [hstatus] at h
    exact ⟨rows, [], _, h, rfl, (append_nil rows).symm⟩
  · simpa only [hstatus] using h

/-- **If no driver requeues a run whose last row is that of a failure, two runs over one graph with
one input, whatever drivers died on them, end in the same verdict with the same rows; one that has
not ended has a part of these rows; and a run that is complete has no failure but those that a loop
has caught.** -/
theorem resumed_verdict {E : Engine} {es es' : List FlowEvent} {p p' : FlowPool} {id id' : String}
    {r r' : FlowRun} {v : Verdict}
    (hes : Runs.Meets (drivers E).step RecoversClean (idle .empty) es)
    (hes' : Runs.Meets (drivers E).step RecoversClean (idle .empty) es')
    (hp : run (drivers E).step (idle .empty) es = some p)
    (hp' : run (drivers E).step (idle .empty) es' = some p')
    (hr : p.store.runs.get id = some r) (hr' : p'.store.runs.get id' = some r')
    (hgraph : r'.graph = r.graph) (hinput : r'.input = r.input) (hv : r.verdict = some v) :
    (∀ v', r'.verdict = some v' → v' = v ∧ p'.store.steps id' = p.store.steps id) ∧
      (r'.active → p'.store.steps id' <+: p.store.steps id) ∧
      ∀ output, v = .complete output → ∀ row ∈ p.store.steps id, row.routeStatus = .failed →
        row.iteration ≠ 0 ∧ CatchesFailures r.graph := by
  have hfinal := ((resumable_run hes hp).run id r hr).final hv
  have hok' := (resumable_run hes' hp').run id' r' hr'
  refine ⟨fun v' hv' => ?_, fun hactive => ?_, ?_⟩
  · have hfinal' := hok'.final hv'
    rw [hgraph, hinput] at hfinal'
    obtain ⟨hrows, hsame⟩ := hfinal'.unique hfinal
    exact ⟨hsame, hrows⟩
  · have hpart := hok'.part hactive
    rw [hgraph, hinput] at hpart
    exact hpart.part_of_final hfinal
  · rintro output rfl row hrow hfailed
    exact hfinal.fresh_of_complete.caught hrow hfailed

/-- A host that does not answer. -/
def brokenHost : Engine where
  execute n _ _ := if n.id = "fetch" then .error "unreachable" else .ok (.null, none)
  evalExpression _ _ := .ok .null
  size _ := 0
  accepts _ := true

/-- A trigger, and a request that stops the run if it fails. -/
def fetchGraph : FlowGraph where
  nodes := [⟨"start", "trigger", "", .stop, []⟩, ⟨"fetch", "http", "", .stop, []⟩]
  edges := [⟨"start", "fetch", none⟩]

/-- A run is started. -/
def fetchCreated : List FlowEvent :=
  [.start "run" (.create fetchGraph .null 0), .step "run" ⟨0⟩, .step "run" ⟨0⟩]

/-- A driver takes so many statements. -/
def drives (pid : String) (nowMs statements : ℕ) : List FlowEvent :=
  .start pid .drive :: replicate statements (.step pid ⟨nowMs⟩)

/-- The driver dies after so many statements, and another comes when its lease has run out. -/
def drivesAgain (statements statements' : ℕ) : List FlowEvent :=
  drives "first" 1 statements ++ .kill "first" :: drives "second" 1000000 statements'

/-- A driver dies after the row of the trigger; the next fails the run as the first would have. -/
theorem resumed_verdict_secondDriver : ∃ p p' r r', run (drivers brokenHost).step (idle .empty)
        (fetchCreated ++ drives "first" 1 12) = some p ∧ run (drivers brokenHost).step (idle .empty)
        (fetchCreated ++ drivesAgain 9 10) = some p' ∧
      p.store.runs.get "run" = some r ∧ p'.store.runs.get "run" = some r' ∧
      r.verdict = some (.failed "unreachable") ∧ r'.verdict = some (.failed "unreachable") ∧
      p'.store.steps "run" = p.store.steps "run" := by
  have hview : ∀ evs ∈ [fetchCreated ++ drives "first" 1 12, fetchCreated ++ drivesAgain 9 10],
      ∃ p ∈ run (drivers brokenHost).step (idle .empty) evs, ∃ r ∈ p.store.runs.get "run",
        r.graph = fetchGraph ∧ r.input = .null ∧ r.verdict = some (.failed "unreachable") := by
    simp only [forall_mem_cons, not_mem_nil, false_implies, implies_true, and_true]
    exact ⟨⟨_, rfl, _, rfl, rfl, rfl, rfl⟩, _, rfl, _, rfl, rfl, rfl, rfl⟩
  obtain ⟨p, hp, r, hr, hgraph, hinput, hv⟩ := hview _ mem_cons_self
  obtain ⟨p', hp', r', hr', hgraph', hinput', hv'⟩ := hview _ (mem_cons_of_mem _ mem_cons_self)
  refine ⟨p, p', r, r', hp, hp', hr, hr', hv, hv', ?_⟩
  exact ((resumed_verdict (by decide +kernel) (by decide +kernel) hp hp' hr hr'
    (hgraph'.trans hgraph.symm) (hinput'.trans hinput.symm) hv).1 _ hv').2

/-- The status of the run and how its steps are routed. -/
def fetchView (p : FlowPool) : Option RunStatus × List (String × RouteStatus) :=
  ((p.store.runs.get "run").map (·.status),
    (p.store.steps "run").map fun row => (row.nodeId, row.routeStatus))

/-- A driver dies after the row of the request that has failed; the next finds a fate for every
node, and the run is complete, where the first would have failed it. -/
theorem forgottenFailure_complete : (run (drivers brokenHost).step (idle .empty)
      (fetchCreated ++ drives "first" 1 12)).map fetchView =
        some (some .failed, [("start", .success), ("fetch", .failed)]) ∧
    (run (drivers brokenHost).step (idle .empty) (fetchCreated ++ drivesAgain 11 8)).map fetchView =
        some (some .complete, [("start", .success), ("fetch", .failed)]) := by
  constructor <;> decide +kernel

/-- **The log of a run only grows**, whoever drives it and wherever a driver dies. -/
theorem steps_prefix_of_run {E : Engine} {es : List FlowEvent} {p q : FlowPool}
    (hq : run (drivers E).step p es = some q) (id : String) :
    p.store.steps id <+: q.store.steps id := by
  refine run_invariant (P := fun t : FlowPool => p.store.steps id <+: t.store.steps id)
    (fun t e u ht _ hstep => ht.trans ?_) (prefix_refl _) (meets_true p es) hq
  obtain ⟨_, _, -, -, rfl⟩ | ⟨_, x, _, c, _, -, -, rfl⟩ | ⟨_, _, _, -, -, rfl⟩ :=
    Machine.step_cases hstep
  · exact prefix_refl _
  · obtain hsame | ⟨_, row, -, -, hmore⟩ := Ledger.steps_exec c x t.store id
    · exact (congrArg (t.store.steps id <+: ·) hsame).mpr (prefix_refl _)
    · exact (congrArg (t.store.steps id <+: ·) hmore).mpr (prefix_append _ _)
  · exact prefix_refl _

/-- The driver dies and another takes the run over. -/
def takenOver : List FlowEvent := .kill "first" :: drives "second" 1000000 10

theorem steps_prefix_of_run_takenOver : ∃ p, run (drivers brokenHost).step (idle .empty)
      (fetchCreated ++ drives "first" 1 9) = some p ∧ (p.store.steps "run").length = 1 ∧
    ∃ q, run (drivers brokenHost).step p takenOver = some q ∧ (q.store.steps "run").length = 2 ∧
      p.store.steps "run" <+: q.store.steps "run" :=
  exists_of_view (fun p => ((p.store.steps "run").length,
    (run (drivers brokenHost).step p takenOver).map fun q => (q.store.steps "run").length))
    (v := (1, some 2)) (by decide +kernel) fun p _ hv => by
      obtain ⟨q, hq, hlength⟩ := Option.map_eq_some_iff.1 (congrArg Prod.snd hv)
      exact ⟨congrArg Prod.fst hv, q, hq, hlength, steps_prefix_of_run hq "run"⟩

end Flow

end RandallFlare
