import Mathlib.Tactic

/-!
# Transactions of one database connection

A session is what one connection sees of a database, the states its open transaction and savepoints
would go back to, and settings of the connection that no transaction covers.  `transact` runs a body
inside a transaction the way a guard object does: it begins, runs, commits, and on any failure rolls
back whatever is then open.  `durable` is what the database itself holds: the contents from before
the open transaction, or those the session sees when none is open.
-/

/-- A connection: the contents it sees, the contents its open transaction (`none`) and savepoints
go back to, innermost first, and its settings. -/
structure Session (C S : Type*) where
  contents : C
  saved : List (Option String × C)
  config : S

namespace Session

open List

variable {C S : Type*}

/-- Open a transaction; there must be none. -/
def begin (s : Session C S) : Option (Session C S) :=
  if s.saved.isEmpty then some { s with saved := [(none, s.contents)] } else none

/-- Keep the changes of the open transaction, if the contents may be kept. -/
def commit (ok : C → Bool) (s : Session C S) : Option (Session C S) :=
  if s.saved.isEmpty ∨ ¬ ok s.contents then none else some { s with saved := [] }

/-- Undo the open transaction. -/
def rollback (s : Session C S) : Option (Session C S) :=
  s.saved.getLast?.map fun p => { s with contents := p.2, saved := [] }

/-- Set a savepoint; outside a transaction it opens one. -/
def savepoint (name : String) (s : Session C S) : Session C S :=
  { s with saved := (some name, s.contents) :: s.saved }

/-- Forget a savepoint and all later ones; forgetting the outermost commits. -/
def release (ok : C → Bool) (name : String) (s : Session C S) : Option (Session C S) :=
  match s.saved.dropWhile fun p => p.1 ≠ some name with
  | [] => none
  | [_] => s.commit ok
  | _ :: rest => some { s with saved := rest }

/-- Go back to a savepoint, which stays. -/
def rollbackTo (name : String) (s : Session C S) : Option (Session C S) :=
  match s.saved.dropWhile fun p => p.1 ≠ some name with
  | [] => none
  | p :: rest => some { s with contents := p.2, saved := p :: rest }

/-- Undo the open transaction, if there is one. -/
def abandon (s : Session C S) : Session C S := s.rollback.getD s

/-- What the database holds if the connection is lost now. -/
def durable (s : Session C S) : C := s.abandon.contents

section

variable {s s' : Session C S} {ok : C → Bool} {name : String}

theorem durable_of_nil (h : s.saved = []) : s.durable = s.contents := by
  simp [durable, abandon, rollback, h]

theorem durable_of_getLast {outer : Option String × C} (h : s.saved.getLast? = some outer) :
    s.durable = outer.2 := by
  simp [durable, abandon, rollback, h]

/-- Only the outermost saved contents count. -/
theorem durable_congr (h : s'.saved.getLast? = s.saved.getLast?) (hne : s.saved ≠ []) :
    s'.durable = s.durable := by
  have hs := getLast?_eq_some_getLast hne
  rw [durable_of_getLast hs, durable_of_getLast (h.trans hs)]

theorem abandon_saved (s : Session C S) : s.abandon.saved = [] := by
  unfold abandon rollback
  cases h : s.saved.getLast? with
  | none => exact getLast?_eq_none_iff.1 h
  | some p => rfl

theorem begin_of_nil (h : s.saved = []) :
    s.begin = some { s with saved := [(none, s.contents)] } := by
  simp [begin, h]

theorem begin_of_ne_nil (h : s.saved ≠ []) : s.begin = none := by
  simp [begin, h]

theorem saved_commit (h : s.commit ok = some s') : s'.saved = [] := by
  unfold commit at h
  split_ifs at h
  cases h
  rfl

theorem getLast?_of_suffix {xs ys : List (Option String × C)} (h : xs <:+ ys) (hne : xs ≠ []) :
    xs.getLast? = ys.getLast? := by
  obtain ⟨t, rfl⟩ := h
  rw [getLast?_append_of_ne_nil t hne]

/-- Whatever the session sees or may go back to satisfies `P`. -/
def Everywhere (P : C → Prop) (s : Session C S) : Prop := P s.contents ∧ ∀ p ∈ s.saved, P p.2

namespace Everywhere

variable {P : C → Prop}

theorem imp {Q : C → Prop} (h : s.Everywhere P) (hPQ : ∀ c, P c → Q c) : s.Everywhere Q :=
  ⟨hPQ _ h.1, fun p hp => hPQ _ (h.2 p hp)⟩

theorem abandon (h : s.Everywhere P) : s.abandon.Everywhere P := by
  refine ⟨?_, by simp [s.abandon_saved]⟩
  unfold Session.abandon Session.rollback
  cases hlast : s.saved.getLast? with
  | none => exact h.1
  | some p => exact h.2 p (mem_of_getLast? hlast)

theorem begin (h : s.Everywhere P) (hs : s.begin = some s') : s'.Everywhere P := by
  unfold Session.begin at hs
  split_ifs at hs
  cases hs
  exact ⟨h.1, by simpa using h.1⟩

theorem commit (h : s.Everywhere P) (hs : s.commit ok = some s') : s'.Everywhere P := by
  unfold Session.commit at hs
  split_ifs at hs
  cases hs
  exact ⟨h.1, by simp⟩

theorem rollback (h : s.Everywhere P) (hs : s.rollback = some s') : s'.Everywhere P := by
  have hs' : s' = s.abandon := by simp [Session.abandon, hs]
  exact hs' ▸ h.abandon

theorem savepoint (h : s.Everywhere P) : (s.savepoint name).Everywhere P :=
  ⟨h.1, forall_mem_cons.2 h⟩

theorem release (h : s.Everywhere P) (hs : s.release ok name = some s') : s'.Everywhere P := by
  have hsub := (dropWhile_suffix (l := s.saved) fun p => decide (p.1 ≠ some name)).subset
  unfold Session.release at hs
  split at hs
  next => cases hs
  next => exact h.commit hs
  next p rest _ heq =>
    cases hs
    exact ⟨h.1, fun q hq => h.2 q (hsub (heq ▸ mem_cons_of_mem p hq))⟩

theorem rollbackTo (h : s.Everywhere P) (hs : s.rollbackTo name = some s') :
    s'.Everywhere P := by
  have hsub := (dropWhile_suffix (l := s.saved) fun p => decide (p.1 ≠ some name)).subset
  unfold Session.rollbackTo at hs
  split at hs
  next => cases hs
  next p rest heq =>
    cases hs
    exact ⟨h.2 p (hsub (heq ▸ mem_cons_self)), fun q hq => h.2 q (hsub (heq ▸ hq))⟩

end Everywhere

/-- A transaction that goes back to `start` is open. -/
def Within (start : C) (s : Session C S) : Prop := s.saved.getLast? = some (none, start)

namespace Within

variable {start : C}

theorem ne_nil (h : s.Within start) : s.saved ≠ [] := by
  rintro hnil
  simp [Within, hnil] at h

theorem rollback (h : s.Within start) (hs : s.rollback = some s') : s'.Everywhere (· = start) := by
  unfold Session.rollback at hs
  rw [h] at hs
  cases hs
  exact ⟨rfl, by simp⟩

theorem savepoint (h : s.Within start) : (s.savepoint name).Within start :=
  (getLast?_cons_of_ne_nil h.ne_nil).trans h

/-- The transaction has no name, so it is not what is released. -/
theorem release (h : s.Within start) (hs : s.release ok name = some s') : s'.Within start := by
  have hsuf := dropWhile_suffix (l := s.saved) fun p => decide (p.1 ≠ some name)
  have hhead := head?_dropWhile_not (fun p => decide (p.1 ≠ some name)) s.saved
  unfold Session.release at hs
  split at hs
  next => cases hs
  next p heq =>
    rw [heq] at hsuf hhead
    have hp := (getLast?_of_suffix hsuf (cons_ne_nil p [])).trans h
    cases hp
    simp at hhead
  next p rest hrest heq =>
    cases hs
    rw [heq] at hsuf
    exact (getLast?_of_suffix ((suffix_cons p rest).trans hsuf) hrest).trans h

theorem rollbackTo (h : s.Within start) (hs : s.rollbackTo name = some s') :
    s'.Within start := by
  have hsuf := dropWhile_suffix (l := s.saved) fun p => decide (p.1 ≠ some name)
  unfold Session.rollbackTo at hs
  split at hs
  next => cases hs
  next p rest heq =>
    cases hs
    rw [heq] at hsuf
    exact (getLast?_of_suffix hsuf (cons_ne_nil p rest)).trans h

end Within

end

/-- Run `body` in a transaction of its own: `busy` and `refused` are the errors of a transaction
that cannot begin and of one that cannot commit. -/
def transact {ε R : Type*} (ok : C → Bool) (busy refused : ε)
    (body : Session C S → Session C S × Except ε R) (s : Session C S) :
    Session C S × Except ε R :=
  match s.begin with
  | none => (s, .error busy)
  | some s₁ =>
      let out := body s₁
      match out.2 with
      | .error e => (out.1.abandon, .error e)
      | .ok r =>
          match out.1.commit ok with
          | none => (out.1.abandon, .error refused)
          | some s₂ => (s₂, .ok r)

section

variable {ε R : Type*} (ok : C → Bool) (busy refused : ε)
  (body : Session C S → Session C S × Except ε R) {s : Session C S}

/-- A body that leaves the savepoints alone: its changes are kept when it succeeds and the contents
may be kept, and undone otherwise. -/
theorem transact_cases (hs : s.saved = [])
    (hbody : (body { s with saved := [(none, s.contents)] }).1.saved = [(none, s.contents)]) :
    (∃ e, s.transact ok busy refused body =
        ({ (body { s with saved := [(none, s.contents)] }).1 with
            contents := s.contents, saved := [] }, .error e)) ∨
      ∃ r, (body { s with saved := [(none, s.contents)] }).2 = .ok r ∧
        ok (body { s with saved := [(none, s.contents)] }).1.contents ∧
        s.transact ok busy refused body =
          ({ (body { s with saved := [(none, s.contents)] }).1 with saved := [] }, .ok r) := by
  unfold transact
  rw [begin_of_nil hs]
  dsimp only
  generalize hout : body { s with saved := [(none, s.contents)] } = out at hbody ⊢
  have habandon : out.1.abandon = { out.1 with contents := s.contents, saved := [] } := by
    simp [abandon, rollback, hbody]
  cases hres : out.2 with
  | error e => exact .inl ⟨e, by rw [habandon]⟩
  | ok r =>
    by_cases hok : ok out.1.contents
    · have hcommit : out.1.commit ok = some { out.1 with saved := [] } := by
        simp [commit, hbody, hok]
      exact .inr ⟨r, rfl, hok, by rw [hcommit]⟩
    · have hcommit : out.1.commit ok = none := by simp [commit, hok]
      exact .inl ⟨refused, by rw [hcommit, habandon]⟩

variable {ok busy refused body} in
theorem transact_congr {body' : Session C S → Session C S × Except ε R}
    (h : ∀ saved, body { s with saved := saved } = body' { s with saved := saved }) :
    s.transact ok busy refused body = s.transact ok busy refused body' := by
  unfold transact
  cases hbegin : s.begin with
  | none => rfl
  | some s₁ =>
    obtain rfl : { s with saved := [(none, s.contents)] } = s₁ := by
      unfold begin at hbegin
      split_ifs at hbegin
      exact Option.some.inj hbegin
    simp only [h]

theorem transact_of_keeps (hbody : ∀ saved, (body { s with saved := saved }).1 =
    { s with saved := saved }) : (s.transact ok busy refused body).1 = s := by
  by_cases hs : s.saved = []
  · obtain ⟨contents, saved, config⟩ := s
    obtain rfl : saved = [] := hs
    rcases transact_cases ok busy refused body rfl (by rw [hbody]) with
      ⟨e, heq⟩ | ⟨r, -, -, heq⟩
    · rw [heq, hbody]
    · rw [heq, hbody]
  · simp [transact, begin_of_ne_nil hs]

end

end Session
