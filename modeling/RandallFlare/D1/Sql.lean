import RandallFlare.Lib.Session
import RandallFlare.Quorum.Raft

/-!
# SQL statements on a driver's connection

What a driver of `rf/src/d1.rs` does with its one SQLite connection: `exec` and `batch` on a leader,
and `apply` on every member.  SQLite itself is a parameter, an `Engine`: how it classifies a
statement, what a statement yields on given contents, and the documented law that a query changes
nothing.  Transaction control is spelled out by `Session`, since the driver's own transactions run on
the same connection as the client's statements.

A statement may depend on things local to a member (its clock, its random source); `L` stands for
them.
-/

namespace RandallFlare

/-- A JSON parameter, as far as binding looks at it. -/
inductive Json
  | null
  | bool (b : Bool)
  /-- A number, as a 64-bit integer if it is one, and as the bits of a double. -/
  | number (asI64 : Option ℤ) (asF64 : Option UInt64)
  | string (s : String)
  /-- An array or an object, as text. -/
  | other (text : String)
  deriving DecidableEq

/-- A value bound to a parameter. -/
inductive SqlValue
  | null
  | int (n : ℤ)
  | real (bits : UInt64)
  | text (s : String)
  deriving DecidableEq

def bindParam : Json → SqlValue
  | .null => .null
  | .bool b => .int (if b then 1 else 0)
  | .number (some n) _ => .int n
  | .number none f => .real (f.getD 0)
  | .string s => .text s
  | .other text => .text text

/-- One SQL statement with its parameters. -/
structure Statement where
  sql : String
  params : List Json
  deriving DecidableEq

/-- A committed command: a batch, or if that is empty the one statement. -/
structure Cmd where
  sql : String
  params : List Json
  statements : List Statement
  tag : ℕ
  deriving DecidableEq

/-- Why a request failed. -/
inductive D1Error
  /-- Reported by SQLite. -/
  | sqlite (text : String)
  /-- `cmd decode` -/
  | cmdDecode
  /-- `D1 query returned more than 10,000 rows` -/
  | tooManyRows
  /-- `D1 atomic batch must contain 1..100 statements` -/
  | batchSize
  /-- `invalid D1 batch statement`, followed by its first 80 characters. -/
  | batchStatement (head : String)
  deriving DecidableEq

/-! ### SQLite -/

/-- The database file: the client's tables, and the row of `_rf_applied`, if it is there. -/
structure Contents (T : Type) where
  tables : T
  marker : Option ℕ
  deriving DecidableEq

/-- What a compiled statement does. -/
inductive StatementKind
  | query
  | change
  | begin
  | commit
  | rollback
  | savepoint (name : String)
  | release (name : String)
  | rollbackTo (name : String)
  /-- A `PRAGMA` or an `ATTACH` that changes settings of the connection. -/
  | setting
  deriving DecidableEq

/-- A compiled statement. -/
structure Prepared where
  kind : StatementKind
  parameters : ℕ
  columns : ℕ
  deriving DecidableEq

/-- SQLite's flag: the statement itself does not write to the database file. -/
def Prepared.readonly (p : Prepared) : Bool := p.kind ≠ .change

/-- SQLite, on tables `T`, with settings `S`, local inputs `L` and result rows `R`. -/
structure Engine (T S L R : Type) where
  prepare : S → Contents T → String → Except String Prepared
  /-- Contents, rows and number of changed rows after a query or a change. -/
  evaluate : L → S → Contents T → String → List SqlValue →
    Except String (Contents T × List R × ℕ)
  configure : String → S → S
  /-- No deferred constraint is violated. -/
  consistent : Contents T → Bool
  /-- The settings allow writes. -/
  writable : S → Bool
  /-- The tables of a new database, and the settings of a new connection. -/
  emptyTables : T
  defaults : S
  writable_defaults : writable defaults
  query_keeps : ∀ {l s c sql vs p out}, prepare s c sql = .ok p → p.kind = .query →
    evaluate l s c sql vs = .ok out → out.1 = c

/-- A driver's connection. -/
abbrev Conn (T S : Type) := Session (Contents T) S

section

variable {T S L R : Type} (E : Engine T S L R)

/-- `Driver::open`: a new connection, and the marker row if there is none. -/
def Conn.opened (file : Contents T) : Conn T S :=
  ⟨{ file with marker := some (file.marker.getD 0) }, [], E.defaults⟩

/-- The connection after transaction control that may fail. -/
def Conn.controlled (c : Conn T S) (text : String) (out : Option (Conn T S)) :
    Conn T S × Except D1Error (List R × ℕ) :=
  match out with
  | some c' => (c', .ok ([], 0))
  | none => (c, .error (.sqlite text))

/-- Run a compiled statement to its end. -/
def Conn.runPrepared (c : Conn T S) (l : L) (st : Statement) (p : Prepared) :
    Conn T S × Except D1Error (List R × ℕ) :=
  if p.parameters < st.params.length then (c, .error (.sqlite "column index out of range"))
  else
    match p.kind with
    | .query | .change =>
        match E.evaluate l c.config c.contents st.sql (st.params.map bindParam) with
        | .error text => (c, .error (.sqlite text))
        | .ok out => ({ c with contents := out.1 }, .ok out.2)
    | .begin => c.controlled "cannot start a transaction within a transaction" c.begin
    | .commit => c.controlled "cannot commit" (c.commit E.consistent)
    | .rollback => c.controlled "cannot rollback - no transaction is active" c.rollback
    | .savepoint name => (c.savepoint name, .ok ([], 0))
    | .release name => c.controlled "no such savepoint" (c.release E.consistent name)
    | .rollbackTo name => c.controlled "no such savepoint" (c.rollbackTo name)
    | .setting => ({ c with config := E.configure st.sql c.config }, .ok ([], 0))

/-- `read_prepared_rows`: at most 10,000 rows. -/
def readRows (rows : List R) : Except D1Error (List R) :=
  if 10000 < rows.length then .error .tooManyRows else .ok rows

structure StatementResult (R : Type) where
  rows : Option (List R)
  rowsAffected : Option ℕ
  deriving DecidableEq

structure ExecResult (R : Type) where
  rows : Option (List R)
  rowsAffected : Option ℕ
  batch : Option (List (StatementResult R))
  deriving DecidableEq

def Conn.isRead (c : Conn T S) (sql : String) : Except D1Error Bool :=
  match E.prepare c.config c.contents sql with
  | .error text => .error (.sqlite text)
  | .ok p => .ok p.readonly

def Conn.runQuery (c : Conn T S) (l : L) (st : Statement) :
    Conn T S × Except D1Error (ExecResult R) :=
  match E.prepare c.config c.contents st.sql with
  | .error text => (c, .error (.sqlite text))
  | .ok p =>
      let out := c.runPrepared E l st p
      (out.1, do
        let rows ← readRows (← out.2).1
        return ⟨some rows, none, none⟩)

/-- One round of `run_statements`. -/
def Conn.runStatement (c : Conn T S) (l : L) (st : Statement) :
    Conn T S × Except D1Error (StatementResult R) :=
  match E.prepare c.config c.contents st.sql with
  | .error text => (c, .error (.sqlite text))
  | .ok p =>
      let out := c.runPrepared E l st p
      (out.1, do
        let res ← out.2
        if p.readonly ∨ 0 < p.columns then return ⟨some (← readRows res.1), none⟩
        else return ⟨none, some res.2⟩)

/-- `run_statements`: stop at the first that fails; `l` gives each its local inputs. -/
def Conn.runStatements (c : Conn T S) (l : ℕ → L) :
    List Statement → Conn T S × Except D1Error (List (StatementResult R))
  | [] => (c, .ok [])
  | st :: sts =>
      let first := c.runStatement E (l 0) st
      match first.2 with
      | .error e => (first.1, .error e)
      | .ok res =>
          let rest := first.1.runStatements (fun i => l (i + 1)) sts
          (rest.1, rest.2.map (res :: ·))

/-- A transaction of the driver's own. -/
def Conn.inTransaction {A : Type} (c : Conn T S)
    (body : Conn T S → Conn T S × Except D1Error A) : Conn T S × Except D1Error A :=
  c.transact E.consistent (.sqlite "cannot start a transaction within a transaction")
    (.sqlite "cannot commit") body

/-- `UPDATE _rf_applied SET seq = ?1 WHERE id = 0` -/
def Conn.mark (c : Conn T S) (seq : ℕ) : Conn T S × Except D1Error Unit :=
  if E.writable c.config then
    ({ c with contents := { c.contents with marker := c.contents.marker.map fun _ => seq } }, .ok ())
  else (c, .error (.sqlite "attempt to write a readonly database"))

/-- The statements of a command, and whether it is a batch. -/
def Cmd.body (cmd : Cmd) : List Statement :=
  if cmd.statements.isEmpty then [⟨cmd.sql, cmd.params⟩] else cmd.statements

/-- What `apply` does inside its transaction. -/
def Conn.applyBody (l : ℕ → L) (seq : ℕ) (cmd : Cmd) (c : Conn T S) :
    Conn T S × Except D1Error (Bool × List (StatementResult R)) :=
  let out := c.runStatements E l cmd.body
  match out.2 with
  | .error e => (out.1, .error e)
  | .ok results =>
      let marked := out.1.mark E seq
      (marked.1, marked.2.map fun _ => (!cmd.statements.isEmpty, results))

/-- `Driver::apply`, with `decode` for the coding of commands. -/
def Conn.apply (decode : Bytes → Option Cmd) (c : Conn T S) (l : ℕ → L) (entry : Entry) :
    Conn T S × Except D1Error (Bool × List (StatementResult R)) :=
  match decode entry.cmd with
  | none => (c, .error .cmdDecode)
  | some cmd => c.inTransaction E (Conn.applyBody E l entry.seq cmd)

/-! ### Requests to a leader -/

/-- A leader answers a request itself or proposes it. -/
inductive Handling (R : Type)
  | answer (result : Except D1Error (ExecResult R))
  | propose (cmd : Cmd)

/-- `Driver::exec` on a leader. -/
def Conn.exec (c : Conn T S) (l : L) (st : Statement) (tag : ℕ) : Conn T S × Handling R :=
  match c.isRead E st.sql with
  | .error e => (c, .answer (.error e))
  | .ok true =>
      let out := c.runQuery E l st
      (out.1, .answer out.2)
  | .ok false => (c, .propose ⟨st.sql, st.params, [], tag⟩)

/-- Unicode white space, as `str::trim` removes it. -/
def isWhitespace (ch : Char) : Bool :=
  let n := ch.toNat
  (9 ≤ n ∧ n ≤ 13) ∨ (0x2000 ≤ n ∧ n ≤ 0x200A) ∨
    n ∈ [0x20, 0x85, 0xA0, 0x1680, 0x2028, 0x2029, 0x202F, 0x205F, 0x3000]

/-- A statement no batch may contain. -/
def Statement.invalid (st : Statement) : Bool :=
  st.sql.toList.all isWhitespace ∨ 1024 * 1024 < st.sql.utf8ByteSize ∨ 1000 < st.params.length

/-- `Driver::batch` on a leader. -/
def Conn.batch (c : Conn T S) (l : ℕ → L) (sts : List Statement) (tag : ℕ) :
    Conn T S × Handling R :=
  if sts.isEmpty ∨ 100 < sts.length then (c, .answer (.error .batchSize))
  else
    match sts.find? Statement.invalid with
    | some st => (c, .answer (.error (.batchStatement (String.ofList (st.sql.toList.take 80)))))
    | none =>
        match sts.mapM fun st => c.isRead E st.sql with
        | .error e => (c, .answer (.error e))
        | .ok kinds =>
            if kinds.all id then
              let out := c.inTransaction E fun c => c.runStatements E l sts
              (out.1, .answer (out.2.map fun results => ⟨none, some 0, some results⟩))
            else (c, .propose ⟨"", [], sts, tag⟩)

end

/-! ### A small database -/

/-- One table of numbers: it can be listed and appended to, with a parameter or with a random
number, the local input.  The setting forbids writes. -/
def numberEngine : Engine (List ℕ) Bool ℕ ℕ where
  prepare _ _ sql :=
    if sql = "SELECT n FROM t" then .ok ⟨.query, 0, 1⟩
    else if sql = "INSERT INTO t VALUES (?)" then .ok ⟨.change, 1, 0⟩
    else if sql = "INSERT INTO t VALUES (random())" then .ok ⟨.change, 0, 0⟩
    else if sql = "BEGIN" then .ok ⟨.begin, 0, 0⟩
    else if sql = "PRAGMA query_only = 1" then .ok ⟨.setting, 0, 0⟩
    else .error "syntax error"
  evaluate l readonly c sql vs :=
    if sql = "SELECT n FROM t" then .ok (c, c.tables, 0)
    else if readonly then .error "attempt to write a readonly database"
    else if sql = "INSERT INTO t VALUES (?)" then
      .ok ({ c with
        tables := c.tables ++ vs.map fun v => match v with | .int n => n.toNat | _ => 0 }, [], 1)
    else .ok ({ c with tables := c.tables ++ [l] }, [], 1)
  configure _ _ := true
  consistent _ := true
  writable readonly := !readonly
  emptyTables := []
  defaults := false
  writable_defaults := rfl
  query_keeps {l s c sql vs p out} hp hk hout := by
    by_cases hsql : sql = "SELECT n FROM t"
    · rw [if_pos hsql] at hout
      cases hout
      rfl
    · rw [if_neg hsql] at hp
      split_ifs at hp <;> cases hp <;> cases hk

/-- A byte stands for the number to insert, zero for a random one. -/
def numberDecode : Bytes → Option Cmd
  | [] => none
  | b :: _ =>
      some (if b = 0 then ⟨"INSERT INTO t VALUES (random())", [], [], 0⟩
        else ⟨"INSERT INTO t VALUES (?)", [.number (some b.toNat) none], [], 0⟩)

end RandallFlare
