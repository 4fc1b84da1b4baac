import RandallFlare.D1.Sql
import RandallFlare.Quorum.Views
import RandallFlare.Lib.Runs

/-!
# Replaying the log

Entries carry SQL text that every member evaluates on its own.  Whether two members end up with the
same tables therefore depends on the statements: `replicas_agree` is for statements that depend on
nothing but the database, control no transaction and leave the marker `_rf_applied` alone, and
`randomEntry_diverges` shows two members that disagree on a random number.

A member may restart at any time.  It then goes on from the marker, or from the point its log is
compacted to, whichever is later; the entries in between, which it applies again, are those that
failed, and they fail again.
-/

namespace RandallFlare

open Runs Conn List

/-- A member: its connection and how far it has applied the log. -/
structure Member (T S : Type) where
  conn : Conn T S
  applied : ℕ

inductive MemberStep (L : Type)
  /-- It applies the next entry. -/
  | apply (l : ℕ → L)
  /-- It restarts, its log being compacted up to `baseSeq`. -/
  | restart (baseSeq : ℕ)

section

variable {T S L R : Type} (E : Engine T S L R) (decode : Bytes → Option Cmd) (log : List Entry)

def Member.new : Member T S := ⟨opened E ⟨E.emptyTables, none⟩, 0⟩

def Member.step (m : Member T S) : MemberStep L → Option (Member T S)
  | .apply l => log[m.applied]?.map fun e => ⟨(m.conn.apply E decode l e).1, m.applied + 1⟩
  | .restart baseSeq =>
      if baseSeq ≤ m.applied then
        let conn := opened E m.conn.abandon.contents
        some ⟨conn, max (conn.contents.marker.getD 0) baseSeq⟩
      else none

/-- What the statement does depends on the database alone; it controls no transaction, changes no
setting and does not touch the marker. -/
structure Stable (st : Statement) : Prop where
  kind : ∀ c p, E.prepare E.defaults c st.sql = .ok p → p.kind = .query ∨ p.kind = .change
  evaluate : ∀ l l' c, E.evaluate l E.defaults c st.sql (st.params.map bindParam) =
    E.evaluate l' E.defaults c st.sql (st.params.map bindParam)
  marker : ∀ l c out, E.evaluate l E.defaults c st.sql (st.params.map bindParam) = .ok out →
    out.1.marker = c.marker

/-- All statements of the log are stable. -/
def StableLog : Prop :=
  ∀ e ∈ log, ∀ cmd, decode e.cmd = some cmd → ∀ st ∈ cmd.body, Stable E st

/-- The connection after the first `n` entries, without restarts and with fixed local inputs. -/
def replay [Inhabited L] : ℕ → Conn T S
  | 0 => opened E ⟨E.emptyTables, none⟩
  | n + 1 =>
      match log[n]? with
      | some e => ((replay n).apply E decode (fun _ => default) e).1
      | none => replay n

/-! ### Stable statements -/

variable {E decode log} {c c' : Conn T S}

/-- The connections differ in their tables only. -/
structure SameSession (c c' : Conn T S) : Prop where
  saved : c'.saved = c.saved
  config : c'.config = c.config
  marker : c'.contents.marker = c.contents.marker

section

variable (hc : c.config = E.defaults) {st : Statement}

include hc

theorem runPrepared_stable {p : Prepared}
    (hst : Stable E st) (hk : p.kind = .query ∨ p.kind = .change) (l l' : L) :
    c.runPrepared E l st p = c.runPrepared E l' st p ∧
      SameSession c (c.runPrepared E l st p).1 := by
  unfold runPrepared
  rw [hc, hst.evaluate l l']
  refine ⟨rfl, ?_⟩
  split_ifs
  · exact ⟨rfl, rfl, rfl⟩
  · rcases hk with hk | hk
    all_goals
      rw [hk]
      dsimp only
      split
      · exact ⟨rfl, rfl, rfl⟩
      · rename_i out hout
        exact ⟨rfl, hc.symm, hst.marker _ _ _ hout⟩

theorem runStatement_stable (hst : Stable E st)
    (l l' : L) : c.runStatement E l st = c.runStatement E l' st ∧
      SameSession c (c.runStatement E l st).1 := by
  unfold runStatement
  split
  · exact ⟨rfl, rfl, rfl, rfl⟩
  · rename_i p hp
    obtain ⟨heq, hsame⟩ := runPrepared_stable hc hst (hst.kind _ p (hc ▸ hp)) l l'
    refine ⟨?_, hsame⟩
    rw [heq]

theorem runStatements_stable {sts : List Statement} (hst : ∀ st ∈ sts, Stable E st) (l l' : ℕ → L) :
    c.runStatements E l sts = c.runStatements E l' sts ∧
      SameSession c (c.runStatements E l sts).1 := by
  induction sts generalizing c l l' with
  | nil => exact ⟨rfl, rfl, rfl, rfl⟩
  | cons st sts ih =>
    obtain ⟨heq, hsame⟩ := runStatement_stable hc (hst st mem_cons_self) (l 0) (l' 0)
    obtain ⟨heq', hsame'⟩ := ih (c := (c.runStatement E (l 0) st).1) (hsame.config.trans hc)
      (fun st' hst' => hst st' (mem_cons_of_mem _ hst')) (fun i => l (i + 1))
      (fun i => l' (i + 1))
    unfold runStatements
    dsimp only
    rw [← heq]
    split
    · exact ⟨rfl, hsame⟩
    · rw [← heq']
      exact ⟨rfl, hsame'.saved.trans hsame.saved, hsame'.config.trans hsame.config,
        hsame'.marker.trans hsame.marker⟩

theorem applyBody_stable {cmd : Cmd} (hst : ∀ st ∈ cmd.body, Stable E st) (seq : ℕ) (l l' : ℕ → L) :
    c.applyBody E l seq cmd = c.applyBody E l' seq cmd ∧
      (c.applyBody E l seq cmd).1.saved = c.saved ∧ (c.applyBody E l seq cmd).1.config = c.config ∧
      ∀ r, (c.applyBody E l seq cmd).2 = .ok r →
        (c.applyBody E l seq cmd).1.contents.marker = c.contents.marker.map fun _ => seq := by
  obtain ⟨heq, hsame⟩ := runStatements_stable hc hst l l'
  unfold applyBody
  rw [← heq]
  refine ⟨rfl, ?_⟩
  dsimp only
  split
  · exact ⟨hsame.saved, hsame.config, fun r hr => by cases hr⟩
  · have hw : E.writable (c.runStatements E l cmd.body).1.config := by
      rw [hsame.config, hc]
      exact E.writable_defaults
    simp only [mark, if_pos hw]
    exact ⟨hsame.saved, hsame.config, fun r _ => by rw [hsame.marker]⟩

/-- **Applying an entry of stable statements**: the result does not depend on local inputs, and it is
the old database or one whose marker has moved to the entry. -/
theorem apply_stable {e : Entry} (hs : c.saved = [])
    (hst : ∀ cmd, decode e.cmd = some cmd → ∀ st ∈ cmd.body, Stable E st) (l l' : ℕ → L) :
    (c.apply E decode l e).1 = (c.apply E decode l' e).1 ∧ ((c.apply E decode l e).1 = c ∨
        (c.apply E decode l e).1.saved = [] ∧ (c.apply E decode l e).1.config = E.defaults ∧
          (c.apply E decode l e).1.contents.marker = c.contents.marker.map fun _ => e.seq) := by
  unfold apply
  cases hdec : decode e.cmd with
  | none => exact ⟨rfl, .inl rfl⟩
  | some cmd =>
    have hbody := fun saved => applyBody_stable (c := { c with saved := saved }) hc
      (hst cmd hdec) e.seq l l'
    dsimp only [inTransaction]
    rw [Session.transact_congr fun saved => (hbody saved).1]
    refine ⟨rfl, ?_⟩
    rw [← Session.transact_congr fun saved => (hbody saved).1]
    obtain ⟨-, hsaved, hconfig, hmarker⟩ := hbody [(none, c.contents)]
    rcases Session.transact_cases E.consistent
      (.sqlite "cannot start a transaction within a transaction") (.sqlite "cannot commit")
      (applyBody E l e.seq cmd) hs hsaved with ⟨err, heq⟩ | ⟨r, hr, -, heq⟩
    · left
      rw [heq]
      obtain ⟨contents, saved, config⟩ := c
      obtain rfl : saved = [] := hs
      simp only [hconfig]
    · right
      rw [heq]
      exact ⟨rfl, hconfig.trans hc, hmarker r hr⟩

end

/-! ### Members -/

/-- The member is where the log takes it: the entries after its marker changed nothing. -/
structure Replayed [Inhabited L] (E : Engine T S L R) (decode : Bytes → Option Cmd)
    (log : List Entry) (m : Member T S) : Prop where
  saved : m.conn.saved = []
  config : m.conn.config = E.defaults
  marker : ∃ k ≤ m.applied, m.conn.contents.marker = some k ∧
    ∀ j, k ≤ j → j ≤ m.applied → replay E decode log j = m.conn

variable [Inhabited L] {m m' : Member T S}

section

variable (h : Replayed E decode log m)

include h

theorem Replayed.conn_eq : m.conn = replay E decode log m.applied := by
  obtain ⟨k, hk, -, hall⟩ := h.marker
  exact (hall m.applied hk le_rfl).symm

theorem Replayed.apply (hnum : Numbered log) (hst : StableLog E decode log) {e : Entry}
    (he : log[m.applied]? = some e) (l : ℕ → L) :
    Replayed E decode log ⟨(m.conn.apply E decode l e).1, m.applied + 1⟩ := by
  obtain ⟨heq, hcases⟩ := apply_stable h.config h.saved
    (hst e (mem_of_getElem? he)) l (fun _ => default)
  have hnext : replay E decode log (m.applied + 1) = (m.conn.apply E decode l e).1 := by
    rw [replay, he, ← h.conn_eq, heq]
  obtain ⟨k, hk, hmark, hall⟩ := h.marker
  rcases hcases with hsame | ⟨hsaved, hconfig, hmarker⟩
  · -- the entry failed and the marker stays behind
    rw [hsame] at hnext ⊢
    refine ⟨h.saved, h.config, k, by simp only; omega, hmark, fun j hkj hj => ?_⟩
    rcases Nat.le_succ_iff.1 hj with hj | rfl
    · exact hall j hkj hj
    · exact hnext
  · refine ⟨hsaved, hconfig, m.applied + 1, le_rfl, ?_, fun j hkj hj => ?_⟩
    · rw [hmarker, hmark, hnum m.applied e he]
      rfl
    · rw [le_antisymm hj hkj]
      exact hnext

theorem Replayed.restart {baseSeq : ℕ} (hb : baseSeq ≤ m.applied) :
    Replayed E decode log ⟨opened E m.conn.abandon.contents,
      max ((opened E m.conn.abandon.contents).contents.marker.getD 0) baseSeq⟩ := by
  obtain ⟨k, hk, hmark, hall⟩ := h.marker
  have hopened : opened E m.conn.abandon.contents = m.conn := by
    obtain ⟨⟨⟨tables, marker⟩, saved, config⟩, applied⟩ := m
    obtain rfl : saved = [] := h.saved
    obtain rfl : config = E.defaults := h.config
    obtain rfl : marker = some k := hmark
    rfl
  rw [hopened, hmark]
  refine ⟨h.saved, h.config, k, le_max_left _ _, hmark, fun j hkj hj => hall j hkj ?_⟩
  exact hj.trans (max_le hk hb)

/-- **Every step keeps a member where the log takes it.** -/
theorem Replayed.step (hnum : Numbered log) (hst : StableLog E decode log) {x : MemberStep L}
    (hstep : m.step E decode log x = some m') : Replayed E decode log m' := by
  cases x with
  | apply l =>
    obtain ⟨e, he, rfl⟩ := Option.map_eq_some_iff.1 hstep
    exact h.apply hnum hst he l
  | restart baseSeq =>
    simp only [Member.step] at hstep
    split_ifs at hstep with hb
    cases hstep
    exact h.restart hb

end

theorem replayed_new : Replayed E decode log (Member.new E) where
  saved := rfl
  config := rfl
  marker := ⟨0, le_rfl, rfl, fun j _ hj => by rw [Nat.le_zero.1 hj]; rfl⟩

end

/-- **The database is a function of the log**, for logs of stable statements: two members that have
applied it equally far hold the same contents, whatever their local inputs and restarts. -/
theorem replicas_agree {T S L R : Type} [Inhabited L] {E : Engine T S L R}
    {decode : Bytes → Option Cmd} {log : List Entry} (hnum : Numbered log)
    (hst : StableLog E decode log) {xs ys : List (MemberStep L)} {a b : Member T S}
    (ha : run (Member.step E decode log) (Member.new E) xs = some a)
    (hb : run (Member.step E decode log) (Member.new E) ys = some b)
    (hab : a.applied = b.applied) : a.conn.contents = b.conn.contents := by
  have hrun : ∀ {zs : List (MemberStep L)} {m : Member T S},
      run (Member.step E decode log) (Member.new E) zs = some m →
      Replayed E decode log m := fun {zs m} hm =>
    run_invariant (fun _ _ _ h _ hstep => h.step hnum hst hstep) replayed_new
      (meets_true _ zs) hm
  rw [(hrun ha).conn_eq, (hrun hb).conn_eq, hab]

/-- Two inserts, and between them an entry that is no command. -/
def insertLog : List Entry := [⟨1, 1, [5]⟩, ⟨1, 2, []⟩, ⟨1, 3, [6]⟩]

theorem stableLog_insertLog : StableLog numberEngine numberDecode insertLog := by
  have hinsert : ∀ n, Stable numberEngine ⟨"INSERT INTO t VALUES (?)", [.number (some n) none]⟩ :=
    fun n =>
      { kind := fun c p hp => by
          cases hp
          exact .inr rfl
        evaluate := fun l l' c => rfl
        marker := fun l c out hout => by
          cases hout
          rfl }
  intro e he cmd hcmd st hst
  simp only [insertLog, mem_cons, not_mem_nil, or_false] at he
  rcases he with rfl | rfl | rfl
  · cases hcmd
    rw [mem_singleton.1 hst]
    exact hinsert _
  · cases hcmd
  · cases hcmd
    rw [mem_singleton.1 hst]
    exact hinsert _

theorem seq_insertLog (i : ℕ) (e : Entry) (h : insertLog[i]? = some e) : e.seq = i + 1 := by
  match i with
  | 0 => cases h; rfl
  | 1 => cases h; rfl
  | 2 => cases h; rfl
  | n + 3 => simp [insertLog] at h

/-- One member goes straight through, the other restarts twice on the way. -/
theorem replicas_agree_insertLog :
    ∃ a b, run (Member.step numberEngine numberDecode insertLog) (Member.new numberEngine)
        [.apply (fun _ => 1), .apply (fun _ => 1), .apply (fun _ => 1)] = some a ∧
      run (Member.step numberEngine numberDecode insertLog) (Member.new numberEngine)
        [.apply (fun _ => 2), .apply (fun _ => 2), .restart 0, .apply (fun _ => 3),
          .apply (fun _ => 3), .restart 2] = some b ∧
      a.conn.contents = ⟨[5, 6], some 3⟩ ∧ a.conn.contents = b.conn.contents := by
  obtain ⟨a, hra, happ, hcon⟩ : ∃ m ∈ run (Member.step numberEngine numberDecode insertLog)
      (Member.new numberEngine) [.apply (fun _ => 1), .apply (fun _ => 1), .apply (fun _ => 1)],
      m.applied = 3 ∧ m.conn.contents = ⟨[5, 6], some 3⟩ := by decide +kernel
  obtain ⟨b, hrb, hcb⟩ : ∃ m ∈ run (Member.step numberEngine numberDecode insertLog)
      (Member.new numberEngine) [.apply (fun _ => 2), .apply (fun _ => 2), .restart 0,
        .apply (fun _ => 3), .apply (fun _ => 3), .restart 2], m.applied = 3 := by decide +kernel
  exact ⟨a, b, hra, hrb, hcon,
    replicas_agree seq_insertLog stableLog_insertLog hra hrb (happ.trans hcb.symm)⟩

/-- Two members apply an entry that inserts a random number, and hold different tables. -/
theorem randomEntry_diverges :
    (run (Member.step numberEngine numberDecode [⟨1, 1, [0]⟩]) (Member.new numberEngine)
        [.apply fun _ => 7]).map (fun m => (m.applied, m.conn.contents.tables)) = some (1, [7]) ∧
      (run (Member.step numberEngine numberDecode [⟨1, 1, [0]⟩]) (Member.new numberEngine)
        [.apply fun _ => 8]).map (fun m => (m.applied, m.conn.contents.tables)) = some (1, [8]) := by
  decide +kernel

end RandallFlare
