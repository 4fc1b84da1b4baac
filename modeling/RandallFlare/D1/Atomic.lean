import RandallFlare.D1.Replay

/-!
# Applying an entry: all or nothing

`Driver::apply` runs the statements of an entry inside a transaction of its own, moves the marker
`_rf_applied` and commits.  The statements are arbitrary text, so one of them may end that
transaction itself: what ran before is then kept without the marker, and what runs after is kept
at once.

* `Conn.AllOrNothing`: nothing is durable before the marker moves, and in the end everything or
  nothing is;
* `Confined`: no statement that may change something stands before a commit or outside of a
  transaction, and the marker row stays;
* `Account`: a member that is stopped and restarted anywhere, and which entries took effect.

The row of the marker may be gone, its table may not: without the table the source's own `UPDATE`
fails like any other statement.
-/

namespace RandallFlare

open Session Conn List Option

section

variable {T S L R : Type}

variable (E : Engine T S L R) (decode : Bytes → Option Cmd)

/-- The connection after the first `k` statements of a command, inside the transaction of `apply`,
and their results. -/
def Conn.midway (c : Conn T S) (l : ℕ → L) (cmd : Cmd) (k : ℕ) :
    Conn T S × Except D1Error (List (StatementResult R)) :=
  runStatements E { c with saved := [(none, c.contents)] } l (cmd.body.take k)

/-- Applying the entry moves the database to the state after all its statements, with the marker at
the entry, or leaves it alone; and nothing is kept before that. -/
structure Conn.AllOrNothing (c : Conn T S) (l : ℕ → L) (e : Entry) : Prop where
  midway : c.saved = [] → ∀ cmd, decode e.cmd = some cmd →
    ∀ k, (c.midway E l cmd k).1.durable = c.contents
  outcome : (c.apply E decode l e).1.contents = c.contents ∨
    ∃ cmd results, decode e.cmd = some cmd ∧
      (c.midway E l cmd cmd.body.length).2 = .ok results ∧
      (c.apply E decode l e).1.contents =
        ⟨(c.midway E l cmd cmd.body.length).1.contents.tables, some e.seq⟩

/-! ### Confined statements -/

/-- However it is compiled, the statement is of such a kind. -/
def Engine.OfKind (P : StatementKind → Prop) (st : Statement) : Prop :=
  ∀ s c p, E.prepare s c st.sql = .ok p → P p.kind

/-- The statement does not end a transaction and does not take the marker row away. -/
structure Tame (st : Statement) : Prop where
  kind : E.OfKind (fun k => k ≠ .commit ∧ k ≠ .rollback) st
  marker : ∀ l s c out, E.evaluate l s c st.sql (st.params.map bindParam) = .ok out →
    c.marker ≠ none → out.1.marker ≠ none

/-- Where the statements of an entry are. -/
inductive BatchPhase
  /-- A transaction that goes back to before the entry is open, and nothing has changed. -/
  | fresh
  /-- Such a transaction is open. -/
  | changed
  /-- Nothing has changed. -/
  | quiet
  deriving DecidableEq

/-- A statement that may change something runs only in a transaction that goes back to before the
entry, and no commit follows it there. -/
inductive Confined : BatchPhase → List Statement → Prop
  | nil {phase : BatchPhase} : Confined phase []
  | tame {phase : BatchPhase} {st : Statement} {sts : List Statement} (hphase : phase ≠ .quiet)
      (hst : Tame E st) (h : Confined .changed sts) : Confined phase (st :: sts)
  | rollback {phase : BatchPhase} {st : Statement} {sts : List Statement} (hphase : phase ≠ .quiet)
      (hst : E.OfKind (· = .rollback) st) (h : Confined .quiet sts) : Confined phase (st :: sts)
  | idle {phase : BatchPhase} {st : Statement} {sts : List Statement} (hphase : phase ≠ .changed)
      (hst : E.OfKind (· ≠ .change) st) (h : Confined .quiet sts) : Confined phase (st :: sts)
  | begin {phase : BatchPhase} {st : Statement} {sts : List Statement} (hphase : phase ≠ .changed)
      (hst : E.OfKind (· = .begin) st) (h : Confined .fresh sts) : Confined phase (st :: sts)

/-- The entry's statements are confined to the transaction of `apply`. -/
def Entry.Confined (e : Entry) : Prop :=
  ∀ cmd, decode e.cmd = some cmd → RandallFlare.Confined E .fresh cmd.body

variable {E decode} {c : Conn T S} {start : Contents T} {phase : BatchPhase} {sts : List Statement}

theorem Confined.take (h : Confined E phase sts) (k : ℕ) : Confined E phase (sts.take k) := by
  induction h generalizing k with
  | nil => simpa using .nil
  | tame hphase hst h ih =>
    cases k with
    | zero => exact .nil
    | succ k => exact .tame hphase hst (ih k)
  | rollback hphase hst h ih =>
    cases k with
    | zero => exact .nil
    | succ k => exact .rollback hphase hst (ih k)
  | idle hphase hst h ih =>
    cases k with
    | zero => exact .nil
    | succ k => exact .idle hphase hst (ih k)
  | begin hphase hst h ih =>
    cases k with
    | zero => exact .nil
    | succ k => exact .begin hphase hst (ih k)

/-- What a phase says of the connection, for an entry that found `start`. -/
def BatchPhase.Holds (start : Contents T) (c : Conn T S) : BatchPhase → Prop
  | .fresh => c.Within start ∧ c.Everywhere (· = start)
  | .changed => c.Within start ∧ c.Everywhere (·.marker ≠ none)
  | .quiet => c.Everywhere (· = start)

theorem BatchPhase.Holds.within (h : phase.Holds start c) (hphase : phase ≠ .quiet) :
    c.Within start := by
  cases phase with
  | fresh | changed => exact h.1
  | quiet => exact absurd rfl hphase

theorem BatchPhase.Holds.same (h : phase.Holds start c) (hphase : phase ≠ .changed) :
    c.Everywhere (· = start) := by
  cases phase with
  | fresh => exact h.2
  | changed => exact absurd rfl hphase
  | quiet => exact h

theorem BatchPhase.Holds.marked (h : phase.Holds start c) (hphase : phase ≠ .quiet)
    (hstart : start.marker ≠ none) : c.Everywhere (·.marker ≠ none) := by
  cases phase with
  | fresh =>
    refine h.2.imp ?_
    rintro _ rfl
    exact hstart
  | changed => exact h.2
  | quiet => exact absurd rfl hphase

/-- Nothing is kept, and the marker row is there or nothing has changed. -/
def Conn.Intact (start : Contents T) (c : Conn T S) : Prop :=
  c.durable = start ∧ (c.contents.marker ≠ none ∨ c.contents = start)

theorem BatchPhase.Holds.intact (h : phase.Holds start c) : c.Intact start := by
  cases phase with
  | fresh => exact ⟨durable_of_getLast h.1, .inr h.2.1⟩
  | changed => exact ⟨durable_of_getLast h.1, .inl h.2.1⟩
  | quiet =>
    have hsame : c.Everywhere (· = start) := h
    exact ⟨hsame.abandon.1, .inr hsame.1⟩

/-! ### What a statement does -/

variable {st : Statement} {l : ℕ → L} {cmd : Cmd} {k : ℕ} {e : Entry} {m : Conn T S} {x : L}

theorem Conn.controlled_cases {P : Conn T S → Prop} {text : String} {out : Option (Conn T S)}
    (hc : P c) (h : ∀ c', out = some c' → P c') : P (c.controlled (R := R) text out).1 := by
  cases out with
  | none => exact hc
  | some c' => exact h c' rfl

theorem Conn.runStatement_cases {P : Conn T S → Prop} (hc : P c)
    (h : ∀ p, E.prepare c.config c.contents st.sql = .ok p → ¬ p.parameters < st.params.length →
      P (c.runPrepared E x st p).1) : P (c.runStatement E x st).1 := by
  unfold runStatement
  cases hprep : E.prepare c.config c.contents st.sql with
  | error text => exact hc
  | ok p =>
    by_cases hp : p.parameters < st.params.length
    · simp only [runPrepared, if_pos hp]
      exact hc
    · exact h p hprep hp

/-- What holds everywhere still does, if it does of the contents after a query or a change. -/
theorem Conn.everywhere_runStatement {P : Contents T → Prop} (h : c.Everywhere P)
    (hP : ∀ p out, E.prepare c.config c.contents st.sql = .ok p →
      p.kind = .query ∨ p.kind = .change →
      E.evaluate x c.config c.contents st.sql (st.params.map bindParam) = .ok out → P out.1) :
    (c.runStatement E x st).1.Everywhere P := by
  refine runStatement_cases h fun p hprep hp => ?_
  have hout := fun out => hP p out hprep
  rw [runPrepared, if_neg hp]
  cases hk : p.kind with
  | query | change =>
    dsimp only
    cases heval : E.evaluate x c.config c.contents st.sql (st.params.map bindParam) with
    | error text => exact h
    | ok out => exact ⟨hout out (by simp [hk]) heval, h.2⟩
  | begin => exact controlled_cases h fun c' => h.begin
  | commit => exact controlled_cases h fun c' => h.commit
  | rollback => exact controlled_cases h fun c' => h.rollback
  | savepoint name => exact h.savepoint
  | release name => exact controlled_cases h fun c' => h.release
  | rollbackTo name => exact controlled_cases h fun c' => h.rollbackTo
  | setting => exact h

/-- Only a commit or a rollback ends the transaction. -/
theorem Conn.within_runStatement (h : c.Within start)
    (hst : E.OfKind (fun k => k ≠ .commit ∧ k ≠ .rollback) st) :
    (c.runStatement E x st).1.Within start := by
  refine runStatement_cases h fun p hprep hp => ?_
  obtain ⟨hcommit, hrollback⟩ := hst _ _ _ hprep
  rw [runPrepared, if_neg hp]
  cases hk : p.kind with
  | query | change =>
    dsimp only
    cases E.evaluate x c.config c.contents st.sql (st.params.map bindParam) <;> exact h
  | begin =>
    refine controlled_cases h fun c' hc' => ?_
    rw [begin_of_ne_nil h.ne_nil] at hc'
    cases hc'
  | commit => exact absurd hk hcommit
  | rollback => exact absurd hk hrollback
  | savepoint name => exact h.savepoint
  | release name => exact controlled_cases h fun c' => h.release
  | rollbackTo name => exact controlled_cases h fun c' => h.rollbackTo
  | setting => exact h

/-- A statement that controls transactions does so, or it fails and nothing happens. -/
theorem Conn.runStatement_controlled {text : String} {out : Option (Conn T S)}
    (h : ∀ p, E.prepare c.config c.contents st.sql = .ok p → p.parameters ≥ st.params.length →
      c.runPrepared E x st p = c.controlled text out) :
    ((c.runStatement E x st).1 = c ∧ ∃ err, (c.runStatement E x st).2 = .error err) ∨
      out = some (c.runStatement E x st).1 := by
  unfold runStatement
  cases hprep : E.prepare c.config c.contents st.sql with
  | error text => exact .inl ⟨rfl, _, rfl⟩
  | ok p =>
    by_cases hp : p.parameters < st.params.length
    · simp only [runPrepared, if_pos hp]
      exact .inl ⟨trivial, _, rfl⟩
    · simp only [h p hprep (not_lt.1 hp)]
      cases out with
      | none => exact .inl ⟨rfl, _, rfl⟩
      | some c' => exact .inr rfl

theorem Conn.runPrepared_of_kind {p : Prepared} (hp : p.parameters ≥ st.params.length) :
    (p.kind = .rollback → c.runPrepared E x st p =
        c.controlled "cannot rollback - no transaction is active" c.rollback) ∧
      (p.kind = .begin → c.runPrepared E x st p =
        c.controlled "cannot start a transaction within a transaction" c.begin) := by
  unfold runPrepared
  rw [if_neg (not_lt.2 hp)]
  constructor
  all_goals
    intro hk
    rw [hk]

/-- **A confined statement** leads to the next phase, or it fails and nothing happens. -/
theorem Confined.step (h : Confined E phase (st :: sts)) (hstart : start.marker ≠ none)
    (hc : phase.Holds start c) (x : L) :
    ((c.runStatement E x st).1 = c ∧ ∃ err, (c.runStatement E x st).2 = .error err) ∨
      ∃ next, Confined E next sts ∧ next.Holds start (c.runStatement E x st).1 := by
  cases h with
  | tame hphase hst h =>
    have hmark := hc.marked hphase hstart
    refine .inr ⟨.changed, h, within_runStatement (hc.within hphase) hst.kind, ?_⟩
    exact everywhere_runStatement hmark fun p out _ _ hout => hst.marker _ _ _ _ hout hmark.1
  | rollback hphase hst h =>
    refine (runStatement_controlled fun p hp hle =>
      (runPrepared_of_kind hle).1 (hst _ _ _ hp)).imp_right fun hs => ?_
    exact ⟨.quiet, h, (hc.within hphase).rollback hs⟩
  | idle hphase hst h =>
    refine .inr ⟨.quiet, h, everywhere_runStatement (hc.same hphase) ?_⟩
    intro p out hp hk hout
    rw [E.query_keeps hp (hk.resolve_right (hst _ _ _ hp)) hout]
    exact (hc.same hphase).1
  | begin hphase hst h =>
    refine (runStatement_controlled fun p hp hle =>
      (runPrepared_of_kind hle).2 (hst _ _ _ hp)).imp_right fun hs => ?_
    have hsame := hc.same hphase
    refine ⟨.fresh, h, ?_, hsame.begin hs⟩
    unfold Session.begin at hs
    split_ifs at hs
    rw [← some.inj hs, Within, hsame.1]
    rfl

/-- **Confined statements make nothing durable**, wherever they end. -/
theorem Confined.run (h : Confined E phase sts) (hstart : start.marker ≠ none)
    (hc : phase.Holds start c) (l : ℕ → L) : (c.runStatements E l sts).1.Intact start := by
  induction sts generalizing phase c l with
  | nil => exact hc.intact
  | cons st sts ih =>
    have hstep := h.step hstart hc (l 0)
    unfold Conn.runStatements
    dsimp only
    cases hres : (c.runStatement E (l 0) st).2 with
    | error err =>
      rcases hstep with ⟨hsame, -⟩ | ⟨next, -, hnext⟩
      · dsimp only
        rw [hsame]
        exact hc.intact
      · exact hnext.intact
    | ok res =>
      rcases hstep with ⟨-, err, herr⟩ | ⟨next, hsts, hnext⟩
      · rw [hres] at herr
        cases herr
      · exact ih hsts hnext _

theorem Entry.Confined.midway (h : e.Confined E decode) (hmark : c.contents.marker ≠ none)
    (hdec : decode e.cmd = some cmd) (k : ℕ) : (c.midway E l cmd k).1.Intact c.contents := by
  refine ((h cmd hdec).take k).run hmark ?_ l
  exact ⟨rfl, rfl, by simp⟩

/-! ### What applying an entry leaves -/

/-- The connection with the marker row, if it is there, at `seq`. -/
def Conn.marking (c : Conn T S) (seq : ℕ) : Conn T S :=
  { c with contents := { c.contents with marker := c.contents.marker.map fun _ => seq } }

/-- Applying an entry, when no transaction is open: the transaction is given up when a statement
fails or the marker cannot be written, and committed if that is possible otherwise. -/
theorem Conn.apply_cases (l : ℕ → L) (hs : c.saved = []) (hdec : decode e.cmd = some cmd) :
    (c.apply E decode l e).1 = (c.midway E l cmd cmd.body.length).1.abandon ∨
      ∃ results, (c.midway E l cmd cmd.body.length).2 = .ok results ∧ (c.apply E decode l e).1 =
        (((c.midway E l cmd cmd.body.length).1.marking e.seq).commit E.consistent).getD
          ((c.midway E l cmd cmd.body.length).1.marking e.seq).abandon := by
  unfold apply midway
  rw [hdec, take_length]
  unfold inTransaction transact
  rw [begin_of_nil hs]
  dsimp only [applyBody]
  cases hres : (runStatements E { c with saved := [(none, c.contents)] } l cmd.body).2 with
  | error err => exact .inl rfl
  | ok results =>
    dsimp only [mark]
    split_ifs with hw
    · refine .inr ⟨results, rfl, ?_⟩
      unfold marking
      cases commit E.consistent _ <;> rfl
    · exact .inl rfl

theorem Conn.saved_apply (l : ℕ → L) (hs : c.saved = []) : (c.apply E decode l e).1.saved = [] := by
  cases hdec : decode e.cmd with
  | none =>
    unfold apply
    rw [hdec]
    exact hs
  | some cmd =>
    rcases apply_cases (E := E) l hs hdec with h | ⟨-, -, h⟩
    · rw [h]
      exact abandon_saved _
    · rw [h]
      cases hc : ((c.midway E l cmd cmd.body.length).1.marking e.seq).commit E.consistent with
      | none => exact abandon_saved _
      | some c' => exact saved_commit hc

theorem Conn.apply_idle (l : ℕ → L) (h : c.saved ≠ [] ∨ decode e.cmd = none) :
    (c.apply E decode l e).1 = c := by
  unfold apply
  cases hdec : decode e.cmd with
  | none => rfl
  | some cmd =>
    have hs : c.saved ≠ [] := h.resolve_right (by simp [hdec])
    simp [inTransaction, transact, begin_of_ne_nil hs]

/-- Committing with the marker moved, or giving up: the contents in the end. -/
theorem Conn.contents_commit_marking (m : Conn T S) (seq : ℕ) :
    (((m.marking seq).commit E.consistent).getD (m.marking seq).abandon).contents =
      if m.saved = [] ∨ E.consistent (m.marking seq).contents then (m.marking seq).contents
      else m.durable := by
  by_cases hs : m.saved = []
  · have hcommit : (m.marking seq).commit E.consistent = none := by
      simp [commit, marking, hs]
    rw [if_pos (.inl hs), hcommit, getD_none]
    exact durable_of_nil hs
  · by_cases hok : E.consistent (m.marking seq).contents
    · have hcommit : (m.marking seq).commit E.consistent =
          some { m.marking seq with saved := [] } := by
        rw [commit, if_neg]
        rintro (h | h)
        · exact hs (isEmpty_iff.1 h)
        · exact h hok
      rw [if_pos (.inr hok), hcommit, getD_some]
    · have hcommit : (m.marking seq).commit E.consistent = none := by
        simp [commit, hok]
      rw [if_neg (not_or.2 ⟨hs, hok⟩), hcommit, getD_none]
      exact durable_congr rfl hs

theorem Conn.marking_of_none (h : m.contents.marker = none) (seq : ℕ) : m.marking seq = m := by
  obtain ⟨⟨tables, marker⟩, saved, config⟩ := m
  obtain rfl : marker = none := h
  rfl

theorem Conn.marking_contents (h : m.contents.marker ≠ none) (seq : ℕ) :
    (m.marking seq).contents = ⟨m.contents.tables, some seq⟩ := by
  obtain ⟨k, hk⟩ := ne_none_iff_exists'.1 h
  simp [marking, hk]

/-- What an entry leaves, when its statements make nothing durable. -/
theorem Conn.Intact.outcome {res : Except D1Error (List (StatementResult R))} (hs : c.saved = [])
    (hdec : decode e.cmd = some cmd) (hm : c.midway E l cmd cmd.body.length = (m, res))
    (h : m.Intact c.contents) : (c.apply E decode l e).1.contents = c.contents ∨
      ∃ results, res = .ok results ∧
        (c.apply E decode l e).1.contents = ⟨m.contents.tables, some e.seq⟩ := by
  have hcases := apply_cases (E := E) l hs hdec
  rw [hm] at hcases
  rcases hcases with heq | ⟨results, hres, heq⟩
  · left
    rw [heq]
    exact h.1
  · rw [heq, contents_commit_marking]
    split_ifs
    · by_cases hmark : m.contents.marker = none
      · left
        rw [marking_of_none hmark]
        exact h.2.resolve_left fun hne => hne hmark
      · exact .inr ⟨results, hres, marking_contents hmark e.seq⟩
    · exact .inl h.1

/-- **Applying an entry whose statements are confined is all or nothing.** -/
theorem Entry.Confined.allOrNothing (h : e.Confined E decode) (hmark : c.contents.marker ≠ none)
    (l : ℕ → L) : c.AllOrNothing E decode l e := by
  refine ⟨fun _ cmd hdec k => (h.midway hmark hdec k).1, ?_⟩
  by_cases hidle : c.saved ≠ [] ∨ decode e.cmd = none
  · left
    rw [apply_idle l hidle]
  · push Not at hidle
    obtain ⟨hs, hne⟩ := hidle
    obtain ⟨cmd, hdec⟩ := ne_none_iff_exists'.1 hne
    refine ((h.midway hmark hdec _).outcome hs hdec rfl).imp_right ?_
    rintro ⟨results, hres, hnew⟩
    exact ⟨cmd, results, hdec, hres, hnew⟩

/-! ### Stops and restarts -/

/-- What happens to a member that may be stopped anywhere. -/
inductive Turn (L : Type)
  /-- It applies the next entry. -/
  | apply (l : ℕ → L)
  /-- It is stopped behind the first `k` statements of the next entry and restarts, its log being
  compacted up to `baseSeq`. -/
  | stop (l : ℕ → L) (k baseSeq : ℕ)
  /-- It is stopped between moving the marker and the commit, and restarts. -/
  | stopMarked (l : ℕ → L) (baseSeq : ℕ)
  /-- It restarts between two entries. -/
  | restart (baseSeq : ℕ)

/-- A member, and the numbers of the entries that changed its database, in order. -/
structure Account (T S : Type) where
  member : Member T S
  took : List ℕ

variable (E decode)

/-- The database file when the process stops behind the first `k` statements of an entry. -/
def Conn.stopped (c : Conn T S) (l : ℕ → L) (e : Entry) (k : ℕ) : Contents T :=
  match decode e.cmd with
  | some cmd => if c.saved.isEmpty then (c.midway E l cmd k).1.durable else c.durable
  | none => c.durable

/-- The database file when the process stops between moving the marker and the commit, if it gets
there. -/
def Conn.stoppedMarked (c : Conn T S) (l : ℕ → L) (e : Entry) : Contents T :=
  match decode e.cmd with
  | some cmd =>
      let out := c.midway E l cmd cmd.body.length
      if c.saved.isEmpty then
        if out.2.isOk ∧ E.writable out.1.config then (out.1.marking e.seq).durable
        else out.1.durable
      else c.durable
  | none => c.durable

/-- Another entry took effect, if the contents changed. -/
def Account.note [DecidableEq T] (took : List ℕ) (before after : Contents T) (seq : ℕ) : List ℕ :=
  if after = before then took else took ++ [seq]

/-- The member restarts on `file`, in the middle of entry `seq`. -/
def Account.reopened [DecidableEq T] (a : Account T S) (file : Contents T) (seq baseSeq : ℕ) :
    Account T S :=
  ⟨⟨opened E file, max ((opened E file).contents.marker.getD 0) baseSeq⟩,
    note a.took a.member.conn.contents file seq⟩

variable (log : List Entry)

def Account.step [DecidableEq T] (a : Account T S) : Turn L → Option (Account T S)
  | .apply l => log[a.member.applied]?.map fun e =>
      let conn := (a.member.conn.apply E decode l e).1
      ⟨⟨conn, a.member.applied + 1⟩, note a.took a.member.conn.contents conn.contents e.seq⟩
  | .stop l k baseSeq =>
      if baseSeq ≤ a.member.applied then
        log[a.member.applied]?.map fun e =>
          a.reopened E (a.member.conn.stopped E decode l e k) e.seq baseSeq
      else none
  | .stopMarked l baseSeq =>
      if baseSeq ≤ a.member.applied then
        log[a.member.applied]?.map fun e =>
          a.reopened E (a.member.conn.stoppedMarked E decode l e) e.seq baseSeq
      else none
  | .restart baseSeq => (a.member.step E decode log (.restart baseSeq)).map fun m => ⟨m, a.took⟩

variable {E decode log}

/-- No transaction is open, and the entries that took effect are numbered in order, up to the
marker. -/
structure Account.Orderly (a : Account T S) : Prop where
  saved : a.member.conn.saved = []
  marker : ∃ k ≤ a.member.applied, a.member.conn.contents.marker = some k ∧ ∀ n ∈ a.took, n ≤ k
  sorted : a.took.Pairwise (· < ·)

variable {a b : Account T S}

theorem Account.Orderly.next [DecidableEq T] (h : a.Orderly) {conn : Conn T S}
    {after : Contents T} {seq applied : ℕ} (hseq : seq = a.member.applied + 1)
    (hafter : after = a.member.conn.contents ∨ after.marker = some seq) (hsaved : conn.saved = [])
    (hconn : ∀ k, after.marker = some k → conn.contents.marker = some k ∧ k ≤ applied) :
    Account.Orderly ⟨⟨conn, applied⟩, Account.note a.took a.member.conn.contents after seq⟩ := by
  obtain ⟨k, hk, hmark, htook⟩ := h.marker
  unfold Account.note
  split_ifs with hsame
  · obtain ⟨hm, hle⟩ := hconn k (by rw [hsame, hmark])
    exact ⟨hsaved, ⟨k, hle, hm, htook⟩, h.sorted⟩
  · obtain ⟨hm, hle⟩ := hconn seq (hafter.resolve_left hsame)
    refine ⟨hsaved, ⟨seq, hle, hm, fun n hn => ?_⟩, ?_⟩
    · rcases mem_append.1 hn with hn | hn
      · have := htook n hn
        omega
      · exact (mem_singleton.1 hn).le
    · refine pairwise_append.2 ⟨h.sorted, pairwise_singleton _ _, fun n hn n' hn' => ?_⟩
      rw [mem_singleton.1 hn']
      have := htook n hn
      omega

theorem Conn.opened_marker {file : Contents T} (h : file.marker = some k) (baseSeq : ℕ) :
    (opened E file).contents.marker = some k ∧
      k ≤ max ((opened E file).contents.marker.getD 0) baseSeq := by
  simp [opened, h]

theorem Entry.Confined.stopped (h : e.Confined E decode) (hmark : c.contents.marker ≠ none)
    (hs : c.saved = []) (k : ℕ) : c.stopped E decode l e k = c.contents := by
  unfold Conn.stopped
  split
  · rename_i cmd hdec
    rw [if_pos (isEmpty_iff.2 hs)]
    exact (h.midway hmark hdec k).1
  · exact durable_of_nil hs

theorem Entry.Confined.stoppedMarked (h : e.Confined E decode) (hmark : c.contents.marker ≠ none)
    (hs : c.saved = []) : c.stoppedMarked E decode l e = c.contents ∨
      (c.stoppedMarked E decode l e).marker = some e.seq := by
  unfold Conn.stoppedMarked
  split
  · rename_i cmd hdec
    rw [if_pos (isEmpty_iff.2 hs)]
    have hdur := (h.midway (l := l) hmark hdec cmd.body.length).1
    split_ifs
    · by_cases hnil : (c.midway E l cmd cmd.body.length).1.saved = []
      · -- no transaction is open, so the marker is kept at once
        rw [durable_of_nil (by exact hnil)]
        by_cases hmark : (c.midway E l cmd cmd.body.length).1.contents.marker = none
        · left
          rw [marking_of_none hmark, ← durable_of_nil hnil, hdur]
        · right
          rw [marking_contents hmark]
      · left
        rw [← hdur]
        exact durable_congr rfl hnil
    · exact .inl hdur
  · exact .inl (durable_of_nil hs)

/-- **One turn**: an entry takes effect only if its number is past the marker. -/
theorem Account.Orderly.step [DecidableEq T] (hnum : Numbered log)
    (hlog : ∀ e ∈ log, e.Confined E decode) (h : a.Orderly) {x : Turn L}
    (hstep : a.step E decode log x = some b) : b.Orderly := by
  have hmarked : a.member.conn.contents.marker ≠ none := by
    obtain ⟨k, -, hk, -⟩ := h.marker
    simp [hk]
  have hreopen : ∀ {file : Entry → Contents T} {baseSeq : ℕ},
      (if baseSeq ≤ a.member.applied then log[a.member.applied]?.map fun e =>
        a.reopened E (file e) e.seq baseSeq else none) = some b →
      (∀ e ∈ log, file e = a.member.conn.contents ∨ (file e).marker = some e.seq) → b.Orderly := by
    intro file baseSeq hstop hfile
    split_ifs at hstop with hb
    obtain ⟨e, he, rfl⟩ := map_eq_some_iff.1 hstop
    exact h.next (hnum _ _ he) (hfile e (mem_of_getElem? he)) rfl fun k hk => opened_marker hk _
  cases x with
  | apply l =>
    obtain ⟨e, he, rfl⟩ := map_eq_some_iff.1 hstep
    have hout := ((hlog e (mem_of_getElem? he)).allOrNothing hmarked l).outcome
    have hmoved : (a.member.conn.apply E decode l e).1.contents = a.member.conn.contents ∨
        (a.member.conn.apply E decode l e).1.contents.marker = some e.seq := by
      refine hout.imp_right ?_
      rintro ⟨cmd, results, -, -, hnew⟩
      rw [hnew]
    refine h.next (hnum _ e he) hmoved (saved_apply l h.saved) fun k hk => ⟨hk, ?_⟩
    obtain ⟨k', hk', hmark, -⟩ := h.marker
    rcases hmoved with hsame | hnew
    · rw [hsame, hmark] at hk
      cases hk
      omega
    · rw [hnew] at hk
      cases hk
      exact (hnum _ e he).le
  | stop l j baseSeq =>
    exact hreopen hstep fun e he => .inl ((hlog e he).stopped hmarked h.saved j)
  | stopMarked l baseSeq =>
    exact hreopen hstep fun e he => (hlog e he).stoppedMarked hmarked h.saved
  | restart baseSeq =>
    obtain ⟨m, hm, rfl⟩ := map_eq_some_iff.1 hstep
    simp only [Member.step] at hm
    split_ifs at hm with hb
    cases hm
    obtain ⟨k, -, hmark, htook⟩ := h.marker
    have hfile : a.member.conn.abandon.contents.marker = some k := by
      rw [← hmark]
      exact congrArg (·.marker) (durable_of_nil h.saved)
    obtain ⟨hm, hle⟩ := opened_marker (E := E) hfile baseSeq
    exact ⟨rfl, ⟨k, hle, hm, htook⟩, h.sorted⟩

/-- **Entries take effect at most once**, over any stops and restarts. -/
theorem Account.sorted_took [DecidableEq T] (hnum : Numbered log)
    (hlog : ∀ e ∈ log, e.Confined E decode) {xs : List (Turn L)}
    (hrun : Runs.run (Account.step E decode log) ⟨Member.new E, []⟩ xs = some a) :
    a.took.Pairwise (· < ·) := by
  have hnew : Account.Orderly (⟨Member.new E, []⟩ : Account T S) :=
    ⟨rfl, ⟨0, le_rfl, rfl, fun n hn => (by cases hn)⟩, Pairwise.nil⟩
  exact (Runs.run_invariant (fun _ _ _ h _ hs => h.step hnum hlog hs) hnew
    (Runs.meets_true _ xs) hrun).sorted

end

theorem confined_insertLog : ∀ e ∈ insertLog, e.Confined numberEngine numberDecode := by
  have hinsert : ∀ n, Tame numberEngine ⟨"INSERT INTO t VALUES (?)", [.number (some n) none]⟩ :=
    fun n =>
      { kind := fun s c p hp => by
          cases hp
          decide
        marker := fun l s c out hout => by
          cases s with
          | true => cases hout
          | false =>
            cases hout
            exact id }
  intro e he cmd hcmd
  simp only [insertLog, mem_cons, not_mem_nil, or_false] at he
  rcases he with rfl | rfl | rfl
  · cases hcmd
    exact .tame (by decide) (hinsert _) .nil
  · cases hcmd
  · cases hcmd
    exact .tame (by decide) (hinsert _) .nil

/-- The same small database, with `COMMIT`. -/
def commitEngine : Engine (List ℕ) Bool ℕ ℕ :=
  { numberEngine with
    prepare := fun readonly c sql =>
      if sql = "COMMIT" then .ok ⟨.commit, 0, 0⟩ else numberEngine.prepare readonly c sql
    query_keeps := fun {l s c sql vs p out} hp hk hout => by
      by_cases hsql : sql = "COMMIT"
      · rw [if_pos hsql] at hp
        cases hp
        cases hk
      · rw [if_neg hsql] at hp
        exact numberEngine.query_keeps hp hk hout }

/-- An insert, a commit and a statement that fails. -/
def committingBatch : List Statement :=
  [⟨"INSERT INTO t VALUES (?)", [.number (some 5) none]⟩, ⟨"COMMIT", []⟩, ⟨"COMMIT", []⟩]

end RandallFlare
