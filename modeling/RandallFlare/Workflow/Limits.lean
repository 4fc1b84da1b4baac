import Mathlib.Data.Finset.Card
import RandallFlare.Workflow.Calls

/-!
# How many instances run

`claim_one` looks for the instance that is due first and then claims it by a statement that counts
the instances that run, all of them and those of the group.  The count and the claim are one
statement, so that the limits hold however calls interleave.  But only one candidate is looked at:
while its group is full, nothing else is claimed.

* `Ledger.Bounded`: the limits hold;
* `bounded_exec`, `bounded_run`: every statement keeps them, and so does every run;
* `ClaimsDue`: an instance is claimed where one may be;
* `claimsDue_iff`: this fails exactly if the group of the first candidate is full.
-/

namespace RandallFlare

namespace Workflow

open Programs Prog Ledger SortedMap List

/-- The row runs, in the group if one is given. -/
def Instance.runsIn (i : Instance) (group : Option String) : Prop :=
  i.status = .running ∧ (group = none ∨ i.concurrencyGroup = group)

/-- The statement claims the row and finds room. -/
def Stmt.Claims (c : Stmt) (s : Ledger) (id : String) : Prop :=
  ∃ lease nowMs maxRunning group limit, c = .claim id lease nowMs maxRunning group limit ∧
    s.hasRoom maxRunning group limit

variable {s t : Ledger} {c : Stmt} {x : Env} {id : String} {group : Option String}

theorem exists_runners (s : Ledger) (group : Option String) :
    ∃ ids : Finset String, ids.card = s.running group ∧
      ∀ id, id ∈ ids ↔ ∃ i, s.instances.get id = some i ∧ i.runsIn group := by
  refine ⟨((s.instances.entries.filter fun p => p.2.status = .running ∧
    (group = none ∨ p.2.concurrencyGroup = group)).map (·.1)).toFinset, ?_, fun id => ?_⟩
  · rw [toFinset_card_of_nodup, running, values, filter_map]
    · simp [Function.comp_def]
    · exact (s.instances.sorted.filter _).map _ fun _ _ h => h.ne
  · simp [get_eq_some_iff, Instance.runsIn]

/-- No more instances run after a statement, unless it claims one of the group and has room. -/
theorem running_exec (c : Stmt) (x : Env) (s : Ledger) (group : Option String) :
    (exec c x s).1.running group ≤ s.running group ∨
      ∃ id i, c.Claims s id ∧ s.instances.get id = some i ∧
        (group = none ∨ i.concurrencyGroup = group) ∧
        (exec c x s).1.running group ≤ s.running group + 1 := by
  obtain ⟨ids, hids, hmem⟩ := exists_runners s group
  obtain ⟨ids', hids', hmem'⟩ := exists_runners (exec c x s).1 group
  -- An id that is new among those that run is that of a claim.
  have hnew : ∀ id ∈ ids', id ∉ ids → ∃ i, c.Claims s id ∧ s.instances.get id = some i ∧
      (group = none ∨ i.concurrencyGroup = group) := by
    intro id hid hnot
    obtain ⟨i, hi, hruns, hgroup⟩ := (hmem' id).1 hid
    obtain ⟨j, hj, hsame, -, hturn⟩ := instance_exec hi
    rw [hsame] at hgroup
    have hold : j.status ≠ .running := fun hrunning => hnot ((hmem id).2 ⟨j, hj, hrunning, hgroup⟩)
    cases hturn with
    | claimed hroom => exact ⟨j, ⟨_, _, _, _, _, rfl, hroom⟩, hj, hgroup⟩
    | ended _ _ hend => simp [hruns, Status.terminal] at hend
    | _ => simp_all
  rw [← hids, ← hids']
  by_cases hsub : ids' ⊆ ids
  · exact .inl (Finset.card_le_card hsub)
  · obtain ⟨id, hid, hnot⟩ := Finset.not_subset.1 hsub
    obtain ⟨i, hc, hi, hgroup⟩ := hnew id hid hnot
    refine .inr ⟨id, i, hc, hi, hgroup, ?_⟩
    refine (Finset.card_le_card fun id' hid' => ?_).trans (Finset.card_insert_le id ids)
    by_cases hold : id' ∈ ids
    · exact Finset.mem_insert_of_mem hold
    · obtain ⟨_, _, _, _, _, rfl, -⟩ := hc
      obtain ⟨_, ⟨_, _, _, _, _, heq, -⟩, -⟩ := hnew id' hid' hold
      cases heq
      exact Finset.mem_insert_self ..

/-! ### Limits -/

section Limits

variable (maxRunning : ℕ) (limit : String → ℕ) (groupOf : String → Option String)

/-- The instances are in their groups, with the limits of these, and no limit is exceeded. -/
structure Ledger.Bounded (s : Ledger) : Prop where
  grouped : ∀ id i, s.instances.get id = some i → i.concurrencyGroup = groupOf id ∧
    ∀ g, groupOf id = some g → i.concurrencyGroupLimit = limit g
  all : maxRunning ≠ 0 → s.running none ≤ maxRunning
  group : ∀ g, limit g ≠ 0 → s.running (some g) ≤ limit g

/-- A claim names the limit of the workflow, the group of its instance and its limit. -/
def Stmt.Admits : Stmt → Prop
  | .claim id _ _ maxRunning' group limit' =>
    maxRunning' = maxRunning ∧ group = groupOf id ∧ ∀ g, group = some g → limit' = limit g
  | _ => True

variable {maxRunning limit groupOf}

theorem bounded_exec (hs : s.Bounded maxRunning limit groupOf)
    (hc : c.Admits maxRunning limit groupOf) (x : Env) :
    (exec c x s).1.Bounded maxRunning limit groupOf where
  grouped id i hi := by
    obtain ⟨j, hj, hgroup, hlimit, -⟩ := instance_exec hi
    rw [hgroup, hlimit]
    exact hs.grouped id j hj
  all hmax := by
    have hle := hs.all hmax
    rcases running_exec c x s none with h | ⟨id, i, ⟨_, _, _, _, _, rfl, hroom⟩, -, -, h⟩
    · omega
    · obtain ⟨rfl, -⟩ := hc
      have := hroom.1.resolve_left hmax
      omega
  group g hg := by
    have hle := hs.group g hg
    rcases running_exec c x s (some g) with h | ⟨id, i, ⟨_, _, _, _, _, rfl, hroom⟩, hi, hgroup, h⟩
    · omega
    · -- The claim counts the group that its instance is in.
      obtain ⟨-, rfl, hl⟩ := hc
      have hof : groupOf id = some g := by simpa [(hs.grouped id i hi).1] using hgroup
      have hroom := hroom.2
      rw [hof, hl g hof] at hroom
      have : s.running (some g) < limit g := by simpa [hg] using hroom
      omega

/-- All calls claim under one limit. -/
def oneLimit (maxRunning : ℕ) : CallEvent → Bool
  | .start _ (.claimOne maxRunning') => maxRunning' = maxRunning
  | _ => true

/-- A call admits with the limits as they are; nothing is relied on. -/
def limitContract (maxRunning : ℕ) (limit : String → ℕ) (groupOf : String → Option String) :
    Contract Ledger Env Stmt where
  rely _ _ := True
  assume _ _ _ := True
  ensure c _ _ := c.Admits maxRunning limit groupOf

theorem Ledger.get_of_dueInstance {nowMs : ℕ} {i : Instance}
    (h : s.dueInstance nowMs = some (id, i)) : s.instances.get id = some i ∧ i.due nowMs := by
  have hmem := mem_of_mem_head? h
  rw [mem_insertionSort, mem_filter] at hmem
  exact ⟨(s.instances.get_eq_some_iff).2 hmem.1, hmem.2⟩

theorem safe_claimOne (lease : String) : Safe exec (Ledger.Bounded maxRunning limit groupOf)
      (limitContract maxRunning limit groupOf) (fun _ _ => True)
      (forget (claimOne lease maxRunning)) s := by
  refine fun _ _ _ x _ => ⟨trivial, fun _ _ _ _ _ => ⟨trivial, fun t _ ht _ _ => ⟨trivial, ?_⟩⟩⟩
  -- The candidate is a row of the table, in its group.
  simp only [exec, ret_bind]
  cases hdue : t.dueInstance x.nowMs with
  | none => exact fun _ _ => trivial
  | some p =>
    obtain ⟨hgroup, hlimit⟩ := ht.grouped p.1 p.2 (get_of_dueInstance hdue).1
    refine fun _ _ _ _ _ => ⟨⟨rfl, hgroup, fun g hg => hlimit g (hgroup ▸ hg)⟩,
      Safe.of_all (all_forget ?_)⟩
    simp only [ret_bind]
    split_ifs
    · refine ⟨fun _ _ _ _ => trivial, fun found => ?_⟩
      simp only [ret_bind]
      split <;> trivial
    · trivial

theorem all_admits (pid : String) {r : Call} (hr : ∀ maxRunning, r ≠ .claimOne maxRunning) :
    (r.body pid).All (Stmt.Admits maxRunning limit groupOf) := by
  refine all_body pid r fun c hc => ?_
  cases c
  case claim => cases r <;> first | exact absurd rfl (hr _) | cases hc
  all_goals trivial

theorem fits_limitContract :
    Fits calls (fun _ e => oneLimit maxRunning e) (Ledger.Bounded maxRunning limit groupOf)
      (fun _ _ => True) fun _ _ => limitContract maxRunning limit groupOf where
  lawful _ _ := ⟨fun _ => trivial, fun _ _ _ _ _ => trivial⟩
  assumes _ _ _ _ _ _ _ _ := trivial
  keeps _ _ _ x _ hs _ hc := bounded_exec hs hc x
  ignores _ _ _ _ _ _ _ _ _ := trivial
  tolerates _ _ _ _ _ _ _ _ _ _ _ _ _ _ _ _ := trivial
  starts p pid r hok _ _ := by
    by_cases hr : ∃ maxRunning', r = .claimOne maxRunning'
    · obtain ⟨maxRunning', rfl⟩ := hr
      obtain rfl : maxRunning' = maxRunning := by simpa [oneLimit] using hok
      exact safe_claimOne pid
    · exact Safe.of_all ((all_admits pid fun m h => hr ⟨m, h⟩).mono fun c hc _ _ _ _ => hc)

/-- **With one limit of the workflow and one for each group, no more instances run than the limits
allow, in every interleaving of calls.** -/
theorem bounded_run {s : Ledger} {es : List CallEvent} {p : CallPool}
    (hs : s.Bounded maxRunning limit groupOf)
    (hm : Runs.Meets calls.step (fun _ e => oneLimit maxRunning e) (Pool.idle s) es)
    (hp : Runs.run calls.step (Pool.idle s) es = some p) :
    (maxRunning ≠ 0 → p.store.running none ≤ maxRunning) ∧
      ∀ g, limit g ≠ 0 → p.store.running (some g) ≤ limit g := by
  have hsound := sound_run (K := fun _ _ => limitContract maxRunning limit groupOf)
    fits_limitContract (Pool.Sound.idle calls.exec _ hs fun _ => trivial) hm hp
  exact ⟨hsound.holds.all, hsound.holds.group⟩

/-- An instance of a group of which one may run. -/
def inGroup : Instance := { concurrencyGroup := some "g", concurrencyGroupLimit := 1 }

def twoOfGroup : Ledger where
  instances := (empty.insert "a" inGroup).insert "b" inGroup
  steps := fun _ => empty
  signals := empty
  handed := []

/-- Two calls claim at the same time. -/
def claimedAtOnce : List CallEvent :=
  [.start "P" (.claimOne 5), .start "Q" (.claimOne 5)] ++
    (replicate 4 [.step "P" {}, .step "Q" {}]).flatten

theorem bounded_claimedAtOnce :
    ∃ p, Runs.run calls.step (Pool.idle twoOfGroup) claimedAtOnce = some p ∧
      p.store.running (some "g") = 1 ∧ ∀ g, 1 ≠ 0 → p.store.running (some g) ≤ 1 := by
  have hstart : twoOfGroup.Bounded 5 (fun _ => 1) fun _ => some "g" := by
    refine ⟨fun id i hi => ?_, by decide, fun g _ => ?_⟩
    · have : ∀ p ∈ twoOfGroup.instances.entries, p.2.concurrencyGroup = some "g" ∧
          p.2.concurrencyGroupLimit = 1 := by decide
      simpa using this _ (get_eq_some_iff _ |>.1 hi)
    · exact Nat.zero_le 1
  exact Runs.exists_of_view (·.store.running (some "g")) (by decide +kernel) fun p hp hone =>
    ⟨hone, (bounded_run hstart (by decide) hp).2⟩

end Limits

/-! ### The first candidate -/

/-- A claim runs alone at a time. -/
def claimAlone (lease : String) (nowMs maxRunning : ℕ) (s : Ledger) :
    Ledger × Except String (Option (String × Instance)) :=
  (claimOne lease maxRunning).eval (fun c => exec c { nowMs }) s

/-- An instance is due and may run. -/
def Ledger.MayClaim (s : Ledger) (nowMs maxRunning : ℕ) : Prop :=
  ∃ id i, s.instances.get id = some i ∧ i.due nowMs ∧
    s.hasRoom maxRunning i.concurrencyGroup i.concurrencyGroupLimit

/-- If an instance that is due may run, an instance is claimed. -/
def ClaimsDue (lease : String) (nowMs maxRunning : ℕ) (s : Ledger) : Prop :=
  s.MayClaim nowMs maxRunning →
    ∃ id i, (claimAlone lease nowMs maxRunning s).2 = .ok (some (id, i)) ∧ i.runsUnder lease

/-- The instance that is due first is in a group that is full, and another may run. -/
def FirstBlocked (nowMs maxRunning : ℕ) (s : Ledger) : Prop :=
  s.MayClaim nowMs maxRunning ∧ ∃ id i, (s.expireLeases nowMs).dueInstance nowMs = some (id, i) ∧
    i.concurrencyGroup ≠ none ∧ i.concurrencyGroupLimit ≠ 0 ∧
      i.concurrencyGroupLimit ≤ (s.expireLeases nowMs).running i.concurrencyGroup

/-- An instance is claimed if there is room for the one that is due first. -/
theorem claims_iff {lease : String} {nowMs maxRunning : ℕ} :
    (∃ id i, (claimAlone lease nowMs maxRunning s).2 = .ok (some (id, i)) ∧ i.runsUnder lease) ↔
      ∃ id i, (s.expireLeases nowMs).dueInstance nowMs = some (id, i) ∧
        (s.expireLeases nowMs).hasRoom maxRunning i.concurrencyGroup i.concurrencyGroupLimit := by
  generalize ht : s.expireLeases nowMs = t
  simp only [claimAlone, claimOne, sql, pure_eq_ret, bind_eq, call_bind, eval, exec, ht]
  cases hfirst : t.dueInstance nowMs with
  | none => simp [eval]
  | some p =>
    obtain ⟨id, i⟩ := p
    obtain ⟨hget, hdue⟩ := get_of_dueInstance hfirst
    by_cases hroom : t.hasRoom maxRunning i.concurrencyGroup i.concurrencyGroupLimit
    all_goals
      have hguard := hroom
      simp only [hasRoom, ← or_assoc] at hguard
    · simp [eval, exec, update, hget, hdue, hguard, hroom, Instance.runsUnder]
    · simp [eval, exec, update, hget, hdue, hguard, hroom]

/-- **An instance is claimed where one may be, exactly if the one that is due first is not in a full
group.** -/
theorem claimsDue_iff (lease : String) (nowMs maxRunning : ℕ) (s : Ledger) :
    ClaimsDue lease nowMs maxRunning s ↔ ¬ FirstBlocked nowMs maxRunning s := by
  constructor
  · rintro h ⟨hmay, id, i, hfirst, hgroup, hlimit, hfull⟩
    obtain ⟨id', i', hfirst', hroom⟩ := claims_iff.1 (h hmay)
    cases hfirst.symm.trans hfirst'
    have := (hroom.2.resolve_left hgroup).resolve_left hlimit
    omega
  · rintro hnot ⟨id, i, hi, hdue, hroom⟩
    -- The instance is still due once leases have run out, so there is a first one.
    have hexpired : i.expired nowMs = false := by
      cases hs : i.status <;> simp_all [Instance.due, Instance.expired]
    have hi' : (id, i) ∈ (s.expireLeases nowMs).instances.entries := by
      rw [← get_eq_some_iff]
      simp [expireLeases, get_mapEntries, hi, hexpired]
    obtain ⟨⟨id₁, i₁⟩, hfirst⟩ : ∃ p, (s.expireLeases nowMs).dueInstance nowMs = some p := by
      rw [← Option.isSome_iff_exists, dueInstance, isSome_head?]
      exact ne_nil_of_mem ((mem_insertionSort _).2
        (mem_filter.2 ⟨hi', by simpa using hdue⟩))
    refine claims_iff.2 ⟨id₁, i₁, hfirst, hroom.1.imp_right fun hlt => ?_, ?_⟩
    · rcases running_exec (.expireLeases nowMs) {} s none with h | ⟨_, _, ⟨_, _, _, _, _, h, -⟩, -⟩
      · exact h.trans_lt hlt
      · cases h
    · by_contra hfull
      simp only [not_or, not_lt] at hfull
      exact hnot ⟨⟨id, i, hi, hdue, hroom⟩, id₁, i₁, hfirst, hfull⟩

/-- One of the group runs, the other is due first, and a third is in no group. -/
def oneBlocks : Ledger :=
  { twoOfGroup with instances := ((empty.insert "a" { inGroup with
      status := .running, leaseToken := some "A", leaseUntilMs := some 100 }).insert "b"
        inGroup).insert "c" { sleepUntilMs := some 5 } }

/-- The third is due and may run, and nothing is claimed. -/
theorem not_claimsDue_oneBlocks : (claimAlone "L" 10 0 oneBlocks).2 = .ok none ∧
    ¬ ClaimsDue "L" 10 0 oneBlocks := by
  have hnone : (claimAlone "L" 10 0 oneBlocks).2 = .ok none := by decide +kernel
  refine ⟨hnone, fun h => ?_⟩
  obtain ⟨id, i, hclaimed, -⟩ := h
    ⟨"c", { sleepUntilMs := some 5 }, by decide, by decide, .inl rfl, .inl rfl⟩
  cases hclaimed

end Workflow

end RandallFlare
