import RandallFlare.R2.Limits

/-!
# Conditional puts

A put of a Worker binding (`rf/src/r2bind.rs`) may carry a condition on the object it replaces.  It
reads the object and checks the condition, then receives and stores the bytes, and commits the row
with the statement of any other put, which does not look at the condition.

* `conditionMatches`: the check;
* `Puts.step`: checks, commits and other statements of any nodes, in any order;
* `Puts.conditional_puts` is the result.
-/

namespace RandallFlare

open SortedMap Option

namespace R2

/-- An entry of `etagMatches` or `etagDoesNotMatch`. -/
structure EtagCondition where
  type : Option String := none
  value : Option String := none

/-- The fields of `onlyIf`; a list that is left out is empty. -/
structure OnlyIf where
  etagMatches : List EtagCondition := []
  etagDoesNotMatch : List EtagCondition := []
  secondsGranularity : Bool := false
  uploadedBefore : Option ℕ := none
  uploadedAfter : Option ℕ := none

def etagMatchesObject (object : Option ObjectRow) (condition : EtagCondition) : Bool :=
  object.any fun object => condition.type = some "wildcard" || condition.value = some "*" ||
    condition.value.any fun etag =>
      Text.trimEnd (· = '"') (etag.toList.dropWhile (· = '"')) = object.etag.toList

def conditionMatches (condition : Option OnlyIf) (object : Option ObjectRow) : Bool :=
  condition.all fun condition =>
    let granularity := if condition.secondsGranularity then 1000 else 1
    (condition.etagMatches.isEmpty || condition.etagMatches.any (etagMatchesObject object)) &&
      !condition.etagDoesNotMatch.any (etagMatchesObject object) &&
      (condition.uploadedBefore.all fun before =>
        object.any (·.uploadedAtMs / granularity < before / granularity)) &&
      condition.uploadedAfter.all fun after =>
        object.any (after / granularity < ·.uploadedAtMs / granularity)

def ObjectStatement.key : ObjectStatement → String
  | .commit key _ | .delete key | .expire key _ _ => key

/-- The statement finds a row to change: the limits admit the object that it commits, or the object
that it deletes is there. -/
def Database.takesEffect (spec : BucketSpec) (db : Database) : ObjectStatement → Bool
  | .commit key row => db.admits key row.size (spec.maxBytes.getD 0) (spec.maxObjects.getD 0)
  | .delete key => (db.objects.get key).isSome
  | .expire key sha256 uploadedAtMs => (db.objects.get key).any fun row =>
      row.sha256 = sha256 && row.uploadedAtMs = uploadedAtMs

/-- The object a put is for, and its condition. -/
structure Put where
  key : String
  onlyIf : Option OnlyIf

/-- The condition of a put is that a key has no object. -/
def Put.Creates (put : Put) (key : String) : Prop :=
  put.key = key ∧ ∀ row, conditionMatches put.onlyIf (some row) = false

/-- A bucket, the puts between their check and their commit, and the puts that went through, the
last one first and each with the row it replaced. -/
structure Puts where
  db : Database
  checked : SortedMap ℕ Put := empty
  done : List (Put × Option ObjectRow) := []

inductive PutEvent
  | check (id : ℕ) (put : Put)
  | commit (id : ℕ) (row : ObjectRow)
  | fail (id : ℕ)
  | statement (st : ObjectStatement)

/-- The event takes the object of a key away. -/
def PutEvent.removes (key : String) : PutEvent → Bool
  | .statement (.commit _ _) => false
  | .statement st => st.key = key
  | _ => false

namespace Puts

/-- One step of a put, or a statement of anyone else. -/
def step (spec : BucketSpec) (s : Puts) : PutEvent → Option Puts
  | .check id put =>
      if (s.checked.get id).isSome then none
      else if conditionMatches put.onlyIf (s.db.objects.get put.key) then
        some { s with checked := s.checked.insert id put }
      else some s -- a put that is refused is over
  | .commit id row => (s.checked.get id).map fun put =>
      let result := s.db.execute spec (.commit put.key row)
      { db := result.1
        checked := s.checked.erase id
        done := if result.2 then (put, s.db.objects.get put.key) :: s.done else s.done }
  | .fail id => some { s with checked := s.checked.erase id }
  | .statement st => some { s with db := (s.db.execute spec st).1 }

/-- No put on the key but `own` stands between the check of a condition and its commit. -/
def alone (s : Puts) (key : String) (own : Option ℕ) : Bool :=
  s.checked.entries.all fun p => p.2.key ≠ key || p.2.onlyIf.isNone || some p.1 = own

/-- The event changes no object that a put has checked. -/
def undisturbed (spec : BucketSpec) (s : Puts) : PutEvent → Bool
  | .commit id row => (s.checked.get id).all fun put =>
      !s.db.takesEffect spec (.commit put.key row) || s.alone put.key (some id)
  | .statement st => !s.db.takesEffect spec st || s.alone st.key none
  | _ => true

variable {spec : BucketSpec} {s t : Puts} {e : PutEvent} {key : String}

theorem get_execute_of_ne (db : Database) {st : ObjectStatement} (hne : key ≠ st.key) :
    (db.execute spec st).1.objects.get key = db.objects.get key := by
  cases st with
  | commit k row =>
    simp only [Database.execute, Database.insertObject]
    split_ifs
    · exact get_insert_of_ne _ _ hne
    · rfl
  | delete k => exact (get_erase _ _ _).trans (if_neg hne)
  | expire k sha256 uploadedAtMs =>
    refine (get_filter _ _ _).trans ?_
    simp only [show key ≠ k from hne, decide_false, Bool.false_and, Bool.not_false]
    cases db.objects.get key <;> rfl

theorem get_execute_of_not_takesEffect {db : Database} {st : ObjectStatement}
    (h : db.takesEffect spec st = false) :
    (db.execute spec st).1.objects.get key = db.objects.get key := by
  by_cases hk : key = st.key
  · subst hk
    cases st with
    | commit k row =>
      simp only [Database.takesEffect] at h
      simp only [Database.execute, Database.insertObject, h, Bool.false_eq_true, if_false]
    | delete k =>
      have hnone : db.objects.get k = none := by simpa [Database.takesEffect] using h
      exact ((get_erase _ _ _).trans (if_pos rfl)).trans hnone.symm
    | expire k sha256 uploadedAtMs =>
      refine (get_filter _ _ _).trans ?_
      show (db.objects.get k).filter _ = db.objects.get k
      cases hget : db.objects.get k with
      | none => rfl
      | some row =>
        have hrow : (row.sha256 = sha256 && row.uploadedAtMs = uploadedAtMs) = false := by
          simpa [Database.takesEffect, hget] using h
        exact filter_eq_some_iff.2 ⟨rfl, by simp only [hrow, Bool.and_false, Bool.not_false]⟩
  · exact get_execute_of_ne db hk

theorem isSome_execute_commit (db : Database) (k : String) (row : ObjectRow)
    (h : (db.objects.get key).isSome ∨ k = key ∧ (db.execute spec (.commit k row)).2) :
    ((db.execute spec (.commit k row)).1.objects.get key).isSome := by
  simp only [Database.execute, Database.insertObject] at h ⊢
  split_ifs at h ⊢
  · rw [get_insert]
    split_ifs with hk
    · rfl
    · exact h.resolve_right fun h => hk h.1.symm
  · simpa using h

/-- What was checked is still so, and what went through did so rightly. -/
structure Kept (s : Puts) : Prop where
  checked : ∀ id put, s.checked.get id = some put →
    conditionMatches put.onlyIf (s.db.objects.get put.key)
  done : ∀ d ∈ s.done, conditionMatches d.1.onlyIf d.2

theorem Kept.execute (h : s.Kept) (st : ObjectStatement) {own : Option ℕ}
    (ha : s.db.takesEffect spec st → s.alone st.key own) {id : ℕ} {put : Put}
    (hget : s.checked.get id = some put)
    (hown : some id ≠ own) :
    conditionMatches put.onlyIf ((s.db.execute spec st).1.objects.get put.key) := by
  by_cases hk : put.key = st.key ∧ s.db.takesEffect spec st
  · have := List.all_eq_true.1 (ha hk.2) _ ((get_eq_some_iff _).1 hget)
    simp only [hk.1, hown, ne_eq, not_true, decide_false, Bool.false_or, Bool.or_false,
      isNone_iff_eq_none] at this
    rw [this]
    rfl
  · have hsame : (s.db.execute spec st).1.objects.get put.key = s.db.objects.get put.key := by
      rcases not_and_or.1 hk with hne | heffect
      · exact get_execute_of_ne _ hne
      · exact get_execute_of_not_takesEffect (Bool.eq_false_iff.2 heffect)
    rw [hsame]
    exact h.checked id put hget

theorem Kept.step (h : s.Kept) (hu : s.undisturbed spec e) (ht : s.step spec e = some t) : t.Kept := by
  cases e with
  | check id put =>
    simp only [Puts.step] at ht
    split_ifs at ht with hid hmatch
    · cases ht
      refine ⟨fun i p hget => ?_, h.done⟩
      rw [get_insert] at hget
      split_ifs at hget
      · cases hget
        exact hmatch
      · exact h.checked i p hget
    · cases ht
      exact h
  | commit id row =>
    obtain ⟨put, hput, rfl⟩ := map_eq_some_iff.1 ht
    refine ⟨fun i p hget => ?_, fun d hd => ?_⟩
    · rw [get_erase] at hget
      split_ifs at hget with hi
      have ha : s.db.takesEffect spec (.commit put.key row) → s.alone put.key (some id) := by
        simpa [undisturbed, hput, or_iff_not_imp_left] using hu
      exact h.execute (.commit put.key row) ha hget (by simpa using hi)
    · dsimp only at hd
      split_ifs at hd
      · rcases List.mem_cons.1 hd with rfl | hd
        · exact h.checked id put hput
        · exact h.done d hd
      · exact h.done d hd
  | fail id =>
    cases ht
    refine ⟨fun i p hget => ?_, h.done⟩
    rw [get_erase] at hget
    split_ifs at hget
    exact h.checked i p hget
  | statement st =>
    cases ht
    have ha : s.db.takesEffect spec st → s.alone st.key none := by
      simpa [undisturbed, or_iff_not_imp_left] using hu
    exact ⟨fun i p hget => h.execute st ha hget nofun, h.done⟩

/-- Where nothing is removed, at most one put found no object, and there is one since. -/
def FoundOnce (key : String) (s : Puts) : Prop :=
  (s.done.Pairwise fun d e => d.1.key = key → e.1.key = key → d.2.isSome) ∧
    ∀ d ∈ s.done, d.1.key = key → (s.db.objects.get key).isSome

theorem FoundOnce.step (h : s.FoundOnce key) (hr : e.removes key = false)
    (ht : s.step spec e = some t) : t.FoundOnce key := by
  cases e with
  | check id put =>
    simp only [Puts.step] at ht
    split_ifs at ht <;> cases ht <;> exact h
  | commit id row =>
    obtain ⟨put, hput, rfl⟩ := map_eq_some_iff.1 ht
    dsimp only
    split_ifs with hdone
    · refine ⟨List.pairwise_cons.2 ⟨fun d hd hkey hk => hkey ▸ h.2 d hd hk, h.1⟩, fun d hd hk => ?_⟩
      refine isSome_execute_commit s.db put.key row ?_
      rcases List.mem_cons.1 hd with rfl | hd
      · exact .inr ⟨hk, hdone⟩
      · exact .inl (h.2 d hd hk)
    · exact ⟨h.1, fun d hd hk => isSome_execute_commit s.db put.key row (.inl (h.2 d hd hk))⟩
  | fail id =>
    cases ht
    exact h
  | statement st =>
    cases ht
    refine ⟨h.1, fun d hd hk => ?_⟩
    cases st with
    | commit k row => exact isSome_execute_commit s.db k row (.inl (h.2 d hd hk))
    | _ =>
      rw [get_execute_of_ne _ (Ne.symm (of_decide_eq_false hr))]
      exact h.2 d hd hk

/-- **In every run in which no object changes under a put that has checked it, each put that goes
through replaced a row for which its condition holds; and where no object of a key is removed, at
most one put goes through whose condition is that there is none.** -/
theorem conditional_puts {db : Database} {es : List PutEvent}
    (hm : Runs.Meets (step spec) (fun s e => s.undisturbed spec e) { db := db } es)
    (hrun : Runs.run (step spec) { db := db } es = some t) :
    (∀ d ∈ t.done, conditionMatches d.1.onlyIf d.2) ∧
      ∀ key, (∀ e ∈ es, e.removes key = false) →
        t.done.Pairwise fun d e => d.1.Creates key → ¬ e.1.Creates key := by
  have hkept : t.Kept := Runs.run_invariant (fun s e t h hu ht => Kept.step h hu ht)
    ⟨fun _ _ hget => (by cases hget), fun _ hd => (by cases hd)⟩ hm hrun
  refine ⟨hkept.done, fun key hes => ?_⟩
  have hfound : t.FoundOnce key := Runs.run_invariant
    (fun s e t h he ht => FoundOnce.step h (hes e he.2) ht) ⟨.nil, fun _ hd => by cases hd⟩
    ((Runs.meets_true _ _).and_mem fun e he => he) hrun
  refine hfound.1.imp_of_mem fun {d e} hd _ hsome hcd hce => ?_
  obtain ⟨row, hrow⟩ := isSome_iff_exists.1 (hsome hcd.1 hce.1)
  have := hkept.done d hd
  rw [hrow, hcd.2 row] at this
  cases this

/-- A put that is for a key without an object. -/
def creation : Put := ⟨"k", some { etagDoesNotMatch := [{ type := some "wildcard" }] }⟩

/-- A delete that finds nothing comes between; the second put comes when the first is through, and is
refused. -/
theorem conditional_puts_creation : ∃ t, Runs.run (step { storage := .localDisk }) { db := {} }
      [.check 0 creation, .statement (.delete "k"), .commit 0 ⟨1, 6, "e", .localDisk, 5⟩,
        .check 1 creation] = some t ∧
      ∀ d ∈ t.done, conditionMatches d.1.onlyIf d.2 := by
  exact Runs.exists_of_view (·.done.length) (v := 1) (by decide +kernel) fun t ht _ =>
    (conditional_puts (by decide +kernel) ht).1

/-- Two puts that check before either commits both go through; the second replaces the first. -/
theorem two_creations : (Runs.run (step { storage := .localDisk }) { db := {} }
      [.check 0 creation, .check 1 creation, .commit 0 ⟨1, 6, "e", .localDisk, 5⟩,
        .commit 1 ⟨2, 7, "f", .localDisk, 6⟩]).map
      (·.done.map fun d => (d.2, conditionMatches d.1.onlyIf d.2)) =
    some [(some ⟨1, 6, "e", .localDisk, 5⟩, false), (none, true)] := by
  decide +kernel

end Puts

end R2

end RandallFlare
