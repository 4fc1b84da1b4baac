import Mathlib.Data.List.Basic
import Mathlib.Tactic

/-!
# Computations that may fail

Rules for `Except`: how a sequence of steps succeeds, and how the steps over a list do.

* `bind_eq_ok` takes a computation apart;
* `failIf` fails with an error under a condition;
* `exists_mapM`, `exists_mem_of_mapM`, `foldl_mapM`: reading the items of a list.
-/

namespace Fallible

open List

variable {ε α β σ : Type}

variable {f : α → Except ε β} {l : List α} {l' : List β}

theorem bind_eq_ok {c : Except ε α} {b : β} : c >>= f = .ok b ↔ ∃ a, c = .ok a ∧ f a = .ok b := by
  cases c with
  | error e =>
    constructor
    · intro h
      cases h
    · rintro ⟨a, ha, -⟩
      cases ha
  | ok a =>
    constructor
    · intro h
      exact ⟨a, rfl, h⟩
    · rintro ⟨a', ha, h⟩
      cases ha
      exact h

theorem toOption_eq_some {c : Except ε α} {a : α} : c.toOption = some a ↔ c = .ok a := by
  cases c <;> simp [Except.toOption]

/-- Fail with the error, if the condition holds. -/
def failIf (c : Prop) [Decidable c] (e : ε) : Except ε Unit := if c then .error e else .ok ()

@[simp] theorem failIf_eq_ok {c : Prop} [Decidable c] {e : ε} {u : Unit} :
    failIf c e = .ok u ↔ ¬ c := by
  unfold failIf
  split_ifs with h <;> simp [h]

theorem forM_eq_ok {f : α → Except ε Unit} :
    l.forM f = .ok () ↔ ∀ a ∈ l, f a = .ok () := by
  induction l with
  | nil => exact iff_of_true rfl (forall_mem_nil _)
  | cons a l ih =>
    rw [forall_mem_cons, ← ih]
    refine bind_eq_ok.trans ⟨?_, fun h => ⟨(), h⟩⟩
    rintro ⟨u, h⟩
    exact h

theorem exists_mapM (h : ∀ a ∈ l, ∃ b, f a = .ok b) : ∃ l', l.mapM f = .ok l' := by
  induction l with
  | nil => exact ⟨[], rfl⟩
  | cons a l ih =>
    obtain ⟨b, hb⟩ := h a mem_cons_self
    obtain ⟨l', hl'⟩ := ih fun c hc => h c (mem_cons_of_mem a hc)
    refine ⟨b :: l', ?_⟩
    rw [mapM_cons, hb, hl']
    rfl

theorem exists_mem_of_mapM
    (h : l.mapM f = .ok l') {a : α} (ha : a ∈ l) : ∃ b ∈ l', f a = .ok b := by
  induction l generalizing l' with
  | nil => cases ha
  | cons c l ih =>
    rw [mapM_cons] at h
    obtain ⟨b, hb, h⟩ := bind_eq_ok.1 h
    obtain ⟨t, hl, h⟩ := bind_eq_ok.1 h
    cases h
    rcases mem_cons.1 ha with rfl | ha
    · exact ⟨b, mem_cons_self, hb⟩
    · obtain ⟨d, hd, hf⟩ := ih hl ha
      exact ⟨d, mem_cons_of_mem b hd, hf⟩

/-- A fold over the items read is a fold over the list that reads them. -/
theorem foldl_mapM {g : σ → β → σ} (h : l.mapM f = .ok l') (s : σ) :
    l'.foldl g s = l.foldl (fun s a => match f a with
      | .ok b => g s b
      | .error _ => s) s := by
  induction l generalizing l' s with
  | nil =>
    cases h
    rfl
  | cons a l ih =>
    rw [mapM_cons] at h
    obtain ⟨b, hb, h⟩ := bind_eq_ok.1 h
    obtain ⟨t, hl, h⟩ := bind_eq_ok.1 h
    cases h
    rw [foldl_cons, foldl_cons, hb]
    exact ih hl (g s b)

end Fallible
