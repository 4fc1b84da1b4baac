import Mathlib.Tactic

/-!
# Programs that ask

A program that learns about its input by asking questions, one after the other; which question comes
next may depend on the answers.  Two inputs that answer alike whatever is asked of the first cannot
be told apart.

* `Prog`, `run`, `asked`: a program, its result and the questions it asks;
* `run_congr`: only the answers to the questions asked matter.
-/

namespace Asks

/-- A program that asks questions of `Q` with answers in `A`. -/
inductive Prog (Q : Type) (A : Q → Type) (α : Type) : Type
  | ret (a : α)
  | ask (q : Q) (k : A q → Prog Q A α)

namespace Prog

variable {Q : Type} {A : Q → Type} {α β : Type}

/-- Go on with the result of a program. -/
def bind : Prog Q A α → (α → Prog Q A β) → Prog Q A β
  | .ret a, f => f a
  | .ask q k, f => .ask q fun a => (k a).bind f

instance : Monad (Prog Q A) where
  pure := .ret
  bind := bind

def question (q : Q) : Prog Q A (A q) := .ask q .ret

/-- The result on an input. -/
def run (e : ∀ q, A q) : Prog Q A α → α
  | .ret a => a
  | .ask q k => run e (k (e q))

/-- The questions that are asked of an input. -/
def asked (e : ∀ q, A q) : Prog Q A α → List Q
  | .ret _ => []
  | .ask q k => q :: asked e (k (e q))

/-- **Only the answers to the questions asked matter.** -/
theorem run_congr {e e' : ∀ q, A q} (p : Prog Q A α) (h : ∀ q ∈ asked e p, e' q = e q) :
    run e' p = run e p := by
  induction p with
  | ret a => rfl
  | ask q k ih =>
    have hq := h q List.mem_cons_self
    rw [run, run, hq]
    exact ih (e q) fun r hr => h r (List.mem_cons_of_mem q hr)

end Prog

end Asks
