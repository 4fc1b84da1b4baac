import Mathlib.Tactic

/-!
# Runs of a partial step function

A system is a step function `step : S → E → Option S`; an event that is not enabled has no
successor.  `run` folds it over a list of events, `Meets` says that every event of the run
satisfies a condition in the state it is taken from, and `run_invariant` and `run_simulation` are
the two inductions the rest of the development uses: an invariant kept by every step holds in
every reached state, and a relation kept by every step ties every reached state to an abstract one
that only ever grows.  `foldl_invariant` and `foldl_establish` are the same for folds.
-/

namespace Runs

open List

variable {S E : Type*}

/-- The state after the events `es`, or `none` once one of them is not enabled. -/
def run (step : S → E → Option S) : S → List E → Option S
  | s, [] => some s
  | s, e :: es => (step s e).bind fun t => run step t es

/-- Every event of the run from `s` satisfies `ok` in the state it is taken from. -/
def Meets (step : S → E → Option S) (ok : S → E → Prop) : S → List E → Prop
  | _, [] => True
  | s, e :: es => ok s e ∧ ∀ t, step s e = some t → Meets step ok t es

variable {step : S → E → Option S} {ok : S → E → Prop}

instance Meets.decidable [∀ s e, Decidable (ok s e)] (s : S) (es : List E) :
    Decidable (Meets step ok s es) :=
  match es with
  | [] => isTrue trivial
  | e :: es =>
    match h : step s e with
    | none => decidable_of_iff (ok s e) ⟨fun hs => ⟨hs, fun t ht => by rw [h] at ht; cases ht⟩,
        fun hs => hs.1⟩
    | some t =>
      have := Meets.decidable t es
      decidable_of_iff (ok s e ∧ Meets step ok t es)
        ⟨fun hs => ⟨hs.1, fun u hu => by rw [h] at hu; cases hu; exact hs.2⟩,
          fun hs => ⟨hs.1, hs.2 t h⟩⟩

@[simp] theorem run_nil (s : S) : run step s [] = some s := rfl

theorem run_cons (s : S) (e : E) (es : List E) :
    run step s (e :: es) = (step s e).bind fun t => run step t es := rfl

variable {s u : S} {e : E} {es fs : List E} {t : S} {P : S → Prop} {f : S → E → S} {l : List E}

theorem run_cons_eq_some :
    run step s (e :: es) = some u ↔ ∃ t, step s e = some t ∧ run step t es = some u := by
  rw [run_cons, Option.bind_eq_some_iff]

theorem run_append (s : S) (es fs : List E) :
    run step s (es ++ fs) = (run step s es).bind fun t => run step t fs := by
  induction es generalizing s with
  | nil => rfl
  | cons e es ih =>
    rw [cons_append, run_cons, run_cons]
    cases step s e with
    | none => rfl
    | some t => exact ih t

theorem run_append_eq_some :
    run step s (es ++ fs) = some u ↔ ∃ t, run step s es = some t ∧ run step t fs = some u := by
  rw [run_append, Option.bind_eq_some_iff]

@[simp] theorem meets_nil (s : S) : Meets step ok s [] := trivial

theorem Meets.head (h : Meets step ok s (e :: es)) : ok s e := h.1

theorem Meets.tail (h : Meets step ok s (e :: es))
    (ht : step s e = some t) : Meets step ok t es := h.2 t ht

theorem Meets.left (h : Meets step ok s (es ++ fs)) : Meets step ok s es := by
  induction es generalizing s with
  | nil => trivial
  | cons e es ih => exact ⟨h.1, fun t ht => ih (h.2 t ht)⟩

theorem Meets.right (h : Meets step ok s (es ++ fs))
    (ht : run step s es = some t) : Meets step ok t fs := by
  induction es generalizing s with
  | nil => cases ht; exact h
  | cons e es ih =>
    obtain ⟨u, hu, hut⟩ := run_cons_eq_some.1 ht
    exact ih (h.2 u hu) hut

theorem Meets.and_mem {all : List E} (h : Meets step ok s es)
    (hsub : ∀ e ∈ es, e ∈ all) : Meets step (fun s e => ok s e ∧ e ∈ all) s es := by
  induction es generalizing s with
  | nil => trivial
  | cons e es ih =>
    exact ⟨⟨h.1, hsub e mem_cons_self⟩, fun t ht =>
      ih (h.2 t ht) fun d hd => hsub d (mem_cons_of_mem e hd)⟩

theorem Meets.imp {ok' : S → E → Prop} (h : Meets step ok s es)
    (himp : ∀ s e, ok s e → ok' s e) : Meets step ok' s es := by
  induction es generalizing s with
  | nil => trivial
  | cons e es ih => exact ⟨himp s e h.1, fun t ht => ih (h.2 t ht)⟩

theorem meets_true (s : S) (es : List E) : Meets step (fun _ _ => True) s es := by
  induction es generalizing s with
  | nil => trivial
  | cons e es ih => exact ⟨trivial, fun t _ => ih t⟩

/-- A property every enabled step keeps holds in every state reached by a run. -/
theorem run_invariant (hstep : ∀ s e t, P s → ok s e → step s e = some t → P t)
    (hs : P s) (hm : Meets step ok s es) (hr : run step s es = some t) : P t := by
  induction es generalizing s with
  | nil => cases hr; exact hs
  | cons e es ih =>
    obtain ⟨u, hu, hut⟩ := run_cons_eq_some.1 hr
    exact ih (hstep s e u hs hm.head hu) (hm.tail hu) hut

/-- The state that a run reaches has what follows from a view of it. -/
theorem exists_of_view {V : Type*} {o : Option S} (view : S → V) {v : V}
    (hview : o.map view = some v) (hP : ∀ s, o = some s → view s = v → P s) :
    ∃ s, o = some s ∧ P s := by
  obtain ⟨s, hs, hv⟩ := Option.map_eq_some_iff.1 hview
  exact ⟨s, hs, hP s hs hv⟩

/-- Where an invariant holds, every step has what follows from it. -/
theorem Meets.of_invariant {good : S → E → Prop}
    (hstep : ∀ s e t, P s → ok s e → step s e = some t → P t)
    (hgood : ∀ s e, P s → ok s e → good s e) (hs : P s)
    (hm : Meets step ok s es) : Meets step good s es := by
  induction es generalizing s with
  | nil => trivial
  | cons e es ih =>
    exact ⟨hgood s e hs hm.head, fun t ht => ih (hstep s e t hs hm.head ht) (hm.tail ht)⟩

/-- A relation to an abstract state that every step keeps, moving the abstract state up a preorder
`le`, extends to runs. -/
theorem run_simulation {G : Type*} {R : S → G → Prop} {le : G → G → Prop}
    (hrefl : ∀ g, le g g) (htrans : ∀ a b c, le a b → le b c → le a c)
    (hstep : ∀ s g e t, R s g → ok s e → step s e = some t → ∃ g', R t g' ∧ le g g') {g : G}
    (hs : R s g) (hm : Meets step ok s es)
    (hr : run step s es = some t) : ∃ g', R t g' ∧ le g g' := by
  induction es generalizing s g with
  | nil => cases hr; exact ⟨g, hs, hrefl g⟩
  | cons e es ih =>
    obtain ⟨u, hu, hut⟩ := run_cons_eq_some.1 hr
    obtain ⟨g₁, hR₁, hle₁⟩ := hstep s g e u hs hm.head hu
    obtain ⟨g₂, hR₂, hle₂⟩ := ih hR₁ (hm.tail hu) hut
    exact ⟨g₂, hR₂, htrans g g₁ g₂ hle₁ hle₂⟩

/-! ### Folds -/

theorem foldl_invariant (hs : P s) (hkeep : ∀ s e, e ∈ l → P s → P (f s e)) : P (l.foldl f s) := by
  induction l generalizing s with
  | nil => exact hs
  | cons e l ih =>
    exact ih (hkeep s e mem_cons_self hs) fun s d hd => hkeep s d (mem_cons_of_mem e hd)

/-- A fold over a list with an item that leads from `P` to `Q`, both of which every item keeps. -/
theorem foldl_establish {Q : S → Prop} {a : E} (ha : a ∈ l)
    (hs : P s) (hP : ∀ s e, e ∈ l → P s → P (f s e)) (hQ : ∀ s e, e ∈ l → Q s → Q (f s e))
    (hlead : ∀ s, P s → Q (f s a)) : Q (l.foldl f s) := by
  induction l generalizing s with
  | nil => cases ha
  | cons e l ih =>
    rcases mem_cons.1 ha with rfl | ha
    · rw [foldl_cons]
      exact foldl_invariant (hlead s hs) fun s d hd => hQ s d (mem_cons_of_mem a hd)
    · exact ih ha (hP s e mem_cons_self hs) (fun s d hd => hP s d (mem_cons_of_mem e hd))
        fun s d hd => hQ s d (mem_cons_of_mem e hd)

end Runs
