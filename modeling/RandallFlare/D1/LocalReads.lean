import RandallFlare.D1.Sql
import RandallFlare.Lib.Runs

/-!
# Reads a leader answers itself

A leader answers what SQLite calls read-only on the connection that also applies the log.  SQLite
calls transaction control and connection settings read-only too, and a member that runs those leaves
the connection in a state the other members do not share.

* `localReads_untouched`: as long as what a leader answers itself are queries, it applies the log
  like a member that never saw them;
* `openTransactionRun`: after a client's `BEGIN` the leader can apply nothing any more.
-/

namespace RandallFlare

open Conn Session Runs List

/-- What happens on the connection of a leader. -/
inductive SqlTask (L : Type)
  | apply (entry : Entry) (l : ℕ → L)
  | exec (st : Statement) (l : L)
  | batch (sts : List Statement) (l : ℕ → L)

/-- The task applies an entry of the log. -/
def SqlTask.isApply {L : Type} : SqlTask L → Bool
  | .apply _ _ => true
  | _ => false

section

variable {T S L R : Type} (E : Engine T S L R) (decode : Bytes → Option Cmd) (c : Conn T S)

/-- The connection after a task; what is proposed touches it only when it is applied. -/
def Conn.perform : SqlTask L → Option (Conn T S)
  | .apply entry l => some (c.apply E decode l entry).1
  | .exec st l => some (c.exec E l st 0).1
  | .batch sts l => some (c.batch E l sts 0).1

/-- If all these statements count as reads, they are queries. -/
def Conn.QueriesOnly (sts : List Statement) : Prop :=
  (∀ st ∈ sts, c.isRead E st.sql = .ok true) →
    ∀ st ∈ sts, ∀ p, E.prepare c.config c.contents st.sql = .ok p → p.kind = .query

instance decidableForallOk {ε A : Type} (x : Except ε A) (P : A → Prop) [DecidablePred P] :
    Decidable (∀ a, x = .ok a → P a) :=
  match x with
  | .error _ => isTrue fun _ h => by cases h
  | .ok a => decidable_of_iff (P a) ⟨fun h _ hb => by cases hb; exact h, fun h => h a rfl⟩

instance (sts : List Statement) : Decidable (c.QueriesOnly E sts) :=
  inferInstanceAs (Decidable (_ → _))

/-- What the task answers without proposing it are queries. -/
def Conn.PlainReads : SqlTask L → Prop
  | .apply _ _ => True
  | .exec st _ => c.QueriesOnly E [st]
  | .batch sts _ => c.QueriesOnly E sts

instance (task : SqlTask L) : Decidable (c.PlainReads E task) := by
  cases task <;> unfold Conn.PlainReads <;> infer_instance

variable {E decode c}

variable {l : L} {st : Statement} {sts : List Statement}

theorem runPrepared_of_query {p : Prepared}
    (hp : E.prepare c.config c.contents st.sql = .ok p) (hk : p.kind = .query) :
    (c.runPrepared E l st p).1 = c := by
  unfold runPrepared
  split_ifs
  · rfl
  · rw [hk]
    dsimp only
    split
    · rfl
    · rename_i out hout
      rw [E.query_keeps hp hk hout]

theorem runStatement_of_query
    (h : ∀ p, E.prepare c.config c.contents st.sql = .ok p → p.kind = .query) :
    (c.runStatement E l st).1 = c := by
  unfold runStatement
  split
  · rfl
  · rename_i p hp
    exact runPrepared_of_query hp (h p hp)

theorem runStatements_of_queries
    (h : ∀ st ∈ sts, ∀ p, E.prepare c.config c.contents st.sql = .ok p → p.kind = .query)
    (l : ℕ → L) : (c.runStatements E l sts).1 = c := by
  induction sts generalizing l with
  | nil => rfl
  | cons st sts ih =>
    have hfirst := runStatement_of_query (E := E) (l := l 0) (h st mem_cons_self)
    unfold runStatements
    dsimp only
    split
    · exact hfirst
    · rw [hfirst]
      exact ih (fun st' hst' => h st' (mem_cons_of_mem _ hst')) _

theorem exec_of_queriesOnly (h : c.QueriesOnly E [st]) (l : L) (tag : ℕ) :
    (c.exec E l st tag).1 = c := by
  unfold exec
  split
  · rfl
  · rename_i hread
    have hq := h (by simpa using hread) st (mem_singleton_self st)
    unfold runQuery
    split
    · rfl
    · rename_i p hp
      exact runPrepared_of_query hp (hq p hp)
  · rfl

theorem isRead_of_mapM {kinds : List Bool}
    (hm : (sts.mapM fun st => c.isRead E st.sql) = .ok kinds) (hall : kinds.all id) :
    ∀ st ∈ sts, c.isRead E st.sql = .ok true := by
  induction sts generalizing kinds with
  | nil => exact fun st hst => by cases hst
  | cons st sts ih =>
    rw [mapM_cons] at hm
    cases hst : c.isRead E st.sql with
    | error e => rw [hst] at hm; cases hm
    | ok b =>
      cases hrest : sts.mapM fun st => c.isRead E st.sql with
      | error e => rw [hst, hrest] at hm; cases hm
      | ok bs =>
        rw [hst, hrest] at hm
        cases hm
        obtain ⟨rfl, hbs⟩ : b = true ∧ bs.all id := by simpa using hall
        intro st' hst'
        rcases mem_cons.1 hst' with rfl | hst'
        · exact hst
        · exact ih hrest hbs st' hst'

theorem batch_of_queriesOnly (h : c.QueriesOnly E sts) (l : ℕ → L)
    (tag : ℕ) : (c.batch E l sts tag).1 = c := by
  unfold batch
  split_ifs
  · rfl
  split
  · rfl
  split
  · rfl
  rename_i kinds hkinds
  split_ifs with hall
  · have hq := h (isRead_of_mapM hkinds hall)
    exact transact_of_keeps _ _ _ _ fun saved =>
      runStatements_of_queries (c := { c with saved := saved }) hq l
  · rfl

theorem perform_of_plainReads {task : SqlTask L} (h : c.PlainReads E task)
    (htask : task.isApply = false) : c.perform E decode task = some c := by
  cases task with
  | apply entry l => cases htask
  | exec st l => exact congrArg some (exec_of_queriesOnly h l 0)
  | batch sts l => exact congrArg some (batch_of_queriesOnly h l 0)

theorem run_of_plainReads {tasks : List (SqlTask L)}
    (h : Runs.Meets (perform E decode) (Conn.PlainReads E) c tasks) :
    run (perform E decode) c tasks = run (perform E decode) c (tasks.filter SqlTask.isApply) := by
  induction tasks generalizing c with
  | nil => rfl
  | cons task tasks ih =>
    cases htask : task.isApply with
    | false =>
      have hkeep : c.perform E decode task = some c := perform_of_plainReads h.head htask
      rw [filter_cons_of_neg (by simp [htask]), run_cons, hkeep]
      exact ih (h.tail hkeep)
    | true =>
      rw [filter_cons_of_pos htask, run_cons, run_cons]
      cases hstep : c.perform E decode task with
      | none => rfl
      | some c' => exact ih (h.tail hstep)

end

/-- **Leader-local reads leave replication untouched**, as long as they are queries: the leader's
database is that of a member that only applied the entries. -/
theorem localReads_untouched {T S L R : Type} {E : Engine T S L R} {decode : Bytes → Option Cmd}
    {file : Contents T} {tasks : List (SqlTask L)}
    (h : Runs.Meets (perform E decode) (Conn.PlainReads E) (opened E file) tasks) :
    (run (perform E decode) (opened E file) tasks).map contents =
      (run (perform E decode) (opened E file) (tasks.filter SqlTask.isApply)).map contents := by
  rw [run_of_plainReads h]

/-- Reads and writes of one table. -/
def queryRun : List (SqlTask ℕ) :=
  [.exec ⟨"SELECT n FROM t", []⟩ 0, .apply ⟨1, 1, [5]⟩ id,
    .batch [⟨"SELECT n FROM t", []⟩, ⟨"SELECT n FROM t", []⟩] id, .apply ⟨1, 2, [6]⟩ id]

theorem localReads_queryRun :
    (run (perform numberEngine numberDecode) (opened numberEngine ⟨[], none⟩)
        queryRun).map contents = some ⟨[5, 6], some 2⟩ ∧
      (run (perform numberEngine numberDecode) (opened numberEngine ⟨[], none⟩)
        queryRun).map contents =
      (run (perform numberEngine numberDecode) (opened numberEngine ⟨[], none⟩)
        (queryRun.filter SqlTask.isApply)).map contents :=
  ⟨by decide +kernel, localReads_untouched (by decide +kernel)⟩

/-- A client's `BEGIN`, then an entry of the log. -/
def openTransactionRun : List (SqlTask ℕ) :=
  [.exec ⟨"BEGIN", []⟩ 0, .apply ⟨1, 1, [5]⟩ id]

/-- The leader cannot begin its own transaction and drops the entry; the others apply it. -/
theorem openTransactionRun_diverges :
    (run (perform numberEngine numberDecode) (opened numberEngine ⟨[], none⟩)
        openTransactionRun).map contents = some ⟨[], some 0⟩ ∧
      (run (perform numberEngine numberDecode) (opened numberEngine ⟨[], none⟩)
        (openTransactionRun.filter SqlTask.isApply)).map contents = some ⟨[5], some 1⟩ := by
  decide +kernel

end RandallFlare
