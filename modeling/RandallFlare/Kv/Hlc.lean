import RandallFlare.Lib.Runs
import Mathlib.Data.Prod.Lex

/-!
# The hybrid logical clock

A translation of `rf-core/src/hlc.rs`.  A timestamp is a wall time and a logical counter, compared
in this order.  The counter has 32 bits and wraps around, as additions do in the release build.

* `Hlc`, `Clock.now`, `Clock.observe`;
* `Clock.NowFits`, `Clock.ObserveFits`: a call does not wrap the counter around;
* `Clock.strictlyMonotone_of_fits`: over any sequence of calls that fit, a timestamp is later than
  all that were given or observed before.
-/

namespace RandallFlare

@[ext] structure Hlc where
  wallMs : ℕ
  logical : ℕ
  deriving DecidableEq

namespace Hlc

/-- Wall time first, then the counter. -/
def rank (t : Hlc) : ℕ ×ₗ ℕ := toLex (t.wallMs, t.logical)

theorem rank_injective : Function.Injective rank := by
  intro a b h
  have h' : (a.wallMs, a.logical) = (b.wallMs, b.logical) := toLex.injective h
  exact Hlc.ext (congrArg Prod.fst h') (congrArg Prod.snd h')

instance : LinearOrder Hlc := LinearOrder.lift' rank rank_injective

variable {a b : Hlc}

theorem le_iff : a ≤ b ↔ a.wallMs < b.wallMs ∨ a.wallMs = b.wallMs ∧ a.logical ≤ b.logical :=
  Prod.Lex.toLex_le_toLex

theorem lt_iff : a < b ↔ a.wallMs < b.wallMs ∨ a.wallMs = b.wallMs ∧ a.logical < b.logical :=
  Prod.Lex.toLex_lt_toLex

theorem wallMs_le_of_le (h : a ≤ b) : a.wallMs ≤ b.wallMs := by
  rcases le_iff.1 h with h | h <;> omega

/-- The timestamp one tick later. -/
def tick (t : Hlc) : Hlc := ⟨t.wallMs, (t.logical + 1) % 2 ^ 32⟩

/-- A tick is later, as long as the counter does not wrap around. -/
theorem lt_tick {t : Hlc} (h : t.logical + 1 < 2 ^ 32) : t < t.tick := by
  refine lt_iff.2 (.inr ⟨rfl, ?_⟩)
  show t.logical < (t.logical + 1) % 2 ^ 32
  omega

end Hlc

/-- The clock of a node: the last timestamp it gave. -/
structure Clock where
  last : Hlc
  deriving DecidableEq

namespace Clock

def new : Clock := ⟨⟨0, 0⟩⟩

/-- Timestamp a local event at wall time `wallMs`; the timestamp is the new `last`. -/
def now (c : Clock) (wallMs : ℕ) : Clock :=
  if c.last.wallMs < wallMs then ⟨⟨wallMs, 0⟩⟩ else ⟨c.last.tick⟩

/-- Fold a remote timestamp in. -/
def observe (c : Clock) (remote : Hlc) (wallMs : ℕ) : Clock :=
  let base := max c.last remote
  if base.wallMs < wallMs then ⟨base⟩ else ⟨base.tick⟩

/-- `now` does not wrap the counter around. -/
def NowFits (c : Clock) (wallMs : ℕ) : Prop :=
  c.last.wallMs < wallMs ∨ c.last.logical + 1 < 2 ^ 32

/-- `observe` does not wrap the counter around. -/
def ObserveFits (c : Clock) (remote : Hlc) (wallMs : ℕ) : Prop :=
  (max c.last remote).wallMs < wallMs ∨ (max c.last remote).logical + 1 < 2 ^ 32

instance (c : Clock) (wallMs : ℕ) : Decidable (c.NowFits wallMs) :=
  inferInstanceAs (Decidable (_ ∨ _))

instance (c : Clock) (remote : Hlc) (wallMs : ℕ) : Decidable (c.ObserveFits remote wallMs) :=
  inferInstanceAs (Decidable (_ ∨ _))

variable {c : Clock} {remote : Hlc} {wallMs : ℕ}

theorem lt_now (h : c.NowFits wallMs) : c.last < (c.now wallMs).last := by
  unfold now
  split_ifs with hw
  · exact Hlc.lt_iff.2 (.inl hw)
  · exact Hlc.lt_tick (h.resolve_left hw)

theorem lt_now_of_wallMs_lt {t : Hlc} (h : t.wallMs < wallMs) : t < (c.now wallMs).last := by
  unfold now
  split_ifs with hw
  · exact Hlc.lt_iff.2 (.inl h)
  · exact Hlc.lt_iff.2 (.inl (h.trans_le (not_lt.1 hw)))

theorem max_le_observe (h : c.ObserveFits remote wallMs) :
    max c.last remote ≤ (c.observe remote wallMs).last := by
  unfold observe
  dsimp only
  split_ifs with hw
  · exact le_rfl
  · exact (Hlc.lt_tick (h.resolve_left hw)).le

theorem wallMs_now (h : c.last.wallMs ≤ wallMs) : (c.now wallMs).last.wallMs = wallMs := by
  unfold now
  split_ifs with hw
  · rfl
  · exact le_antisymm h (not_lt.1 hw)

theorem wallMs_observe (h : c.last.wallMs ≤ wallMs) (hr : remote.wallMs ≤ wallMs) :
    (c.observe remote wallMs).last.wallMs ≤ wallMs := by
  have hmax : (max c.last remote).wallMs ≤ wallMs := by
    rcases max_choice c.last remote with hm | hm <;> rw [hm] <;> assumption
  unfold observe
  dsimp only
  split_ifs <;> exact hmax

end Clock

/-! ### Sequences of calls -/

inductive ClockCall
  | now (wallMs : ℕ)
  | observe (remote : Hlc) (wallMs : ℕ)

namespace Clock

def perform (c : Clock) : ClockCall → Clock
  | .now wallMs => c.now wallMs
  | .observe remote wallMs => c.observe remote wallMs

/-- The timestamp a call gives, or observes. -/
def stamp (c : Clock) : ClockCall → Hlc
  | .now wallMs => (c.now wallMs).last
  | .observe remote _ => remote

/-- The timestamps given and observed, one for each call. -/
def stamps : Clock → List ClockCall → List Hlc
  | _, [] => []
  | c, call :: calls => c.stamp call :: (c.perform call).stamps calls

def step (c : Clock) (call : ClockCall) : Option Clock := some (c.perform call)

/-- Every timestamp `now` gives is later than all given or observed before. -/
def StrictlyMonotone (calls : List ClockCall) : Prop :=
  ∀ before wallMs after, calls = before ++ .now wallMs :: after →
    ∀ t ∈ new.stamps before, t < ((before.foldl perform new).now wallMs).last

/-- The call does not wrap the counter around. -/
def Fits (c : Clock) : ClockCall → Prop
  | .now wallMs => c.NowFits wallMs
  | .observe remote wallMs => c.ObserveFits remote wallMs

instance (c : Clock) (call : ClockCall) : Decidable (c.Fits call) :=
  match call with
  | .now wallMs => inferInstanceAs (Decidable (c.NowFits wallMs))
  | .observe remote wallMs => inferInstanceAs (Decidable (c.ObserveFits remote wallMs))

variable {c : Clock} {call : ClockCall} {calls : List ClockCall}

theorem Fits.last_le (h : c.Fits call) : c.last ≤ (c.perform call).last := by
  cases call with
  | now wallMs => exact (lt_now h).le
  | observe remote wallMs => exact (le_max_left _ _).trans (max_le_observe h)

theorem Fits.stamp_le (h : c.Fits call) : c.stamp call ≤ (c.perform call).last := by
  cases call with
  | now wallMs => exact le_rfl
  | observe remote wallMs => exact (le_max_right _ _).trans (max_le_observe h)

/-- A clock is not behind where it was, nor behind a timestamp it has given or observed. -/
theorem last_le_foldl (h : Runs.Meets step Fits c calls) : c.last ≤ (calls.foldl perform c).last ∧
      ∀ t ∈ c.stamps calls, t ≤ (calls.foldl perform c).last := by
  induction calls generalizing c with
  | nil => exact ⟨le_rfl, by simp [stamps]⟩
  | cons call calls ih =>
    obtain ⟨hlast, hstamps⟩ := ih (h.tail rfl)
    refine ⟨h.head.last_le.trans hlast, fun t ht => ?_⟩
    rcases List.mem_cons.1 ht with rfl | ht
    · exact h.head.stamp_le.trans hlast
    · exact hstamps t ht

theorem run_eq_foldl (c : Clock) (calls : List ClockCall) :
    Runs.run step c calls = some (calls.foldl perform c) := by
  induction calls generalizing c with
  | nil => rfl
  | cons call calls ih => exact ih (c.perform call)

/-- **The clock is strictly monotone as long as its counter does not wrap around.** -/
theorem strictlyMonotone_of_fits (h : Runs.Meets step Fits new calls) : StrictlyMonotone calls := by
  rintro before wallMs after rfl t ht
  have hnow := h.right (run_eq_foldl new before)
  exact ((last_le_foldl h.left).2 t ht).trans_lt (lt_now hnow.head)

/-- A stalled wall clock, one that steps back, and a remote one that is ahead. -/
theorem strictlyMonotone_stalled :
    StrictlyMonotone [.now 100, .now 100, .now 99, .observe ⟨5000, 7⟩ 100, .now 100] :=
  strictlyMonotone_of_fits (by decide)

/-- A remote counter at its limit. -/
theorem not_strictlyMonotone_limit :
    ¬ StrictlyMonotone [.observe ⟨5000, 2 ^ 32 - 1⟩ 5000, .now 5000] := by
  intro h
  exact absurd (h [.observe ⟨5000, 2 ^ 32 - 1⟩ 5000] 5000 [] rfl ⟨5000, 2 ^ 32 - 1⟩
    List.mem_cons_self) (by decide)

end Clock

end RandallFlare
