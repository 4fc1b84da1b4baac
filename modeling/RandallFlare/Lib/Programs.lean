import RandallFlare.Lib.Runs

/-!
# Programs of atomic commands and their interleavings

A program issues commands to a shared store, one at a time, and goes on with the answers; between
two commands of one program any other program may run, and a program may stop for good at any
point.

* `Prog`: a program as a tree of commands and answers, with `bind`; `Prog.All`: what holds of each
  of its commands; `Prog.Leads`: what follows each of them; `Prog.eval`: its run alone;
* `Machine`: what a command does to the store and which programs there are;
* `Pool`, `Event`, `Machine.step`: a store with the programs at work on it, and their
  interleavings;
* `Contract`, `Safe`: what a program relies on between its commands, what it may assume of a
  command and what the command then ensures; `Safe.bind` composes programs;
* `sound_step`, `sound_run`: programs that keep their contracts, each ensuring what the others
  rely on, keep them in every interleaving.
-/

namespace Programs

/-- A program: it ends with a value, or issues a command and goes on with the answer. -/
inductive Prog (C : Type) (A : C → Type) (α : Type)
  | ret (a : α)
  | cmd (c : C) (next : A c → Prog C A α)

namespace Prog

variable {C : Type} {A : C → Type} {α β : Type}

/-- Run `p`, then `f` on its value. -/
def bind : Prog C A α → (α → Prog C A β) → Prog C A β
  | ret a, f => f a
  | cmd c next, f => cmd c fun a => bind (next a) f

instance : Monad (Prog C A) where
  pure := ret
  bind := bind

/-- One command, whose answer is the value. -/
def call (c : C) : Prog C A (A c) := cmd c ret

@[simp] theorem pure_eq_ret (a : α) : (pure a : Prog C A α) = ret a := rfl

@[simp] theorem bind_eq (p : Prog C A α) (f : α → Prog C A β) : p >>= f = p.bind f := rfl

@[simp] theorem ret_bind (a : α) (f : α → Prog C A β) : (ret a).bind f = f a := rfl

@[simp] theorem cmd_bind (c : C) (next : A c → Prog C A α) (f : α → Prog C A β) :
    (cmd c next).bind f = cmd c fun a => (next a).bind f := rfl

@[simp] theorem call_bind (c : C) (f : A c → Prog C A β) : (call c).bind f = cmd c f := rfl

/-- Every command that the program can issue satisfies `P`, whatever it is answered. -/
def All (P : C → Prop) : Prog C A α → Prop
  | ret _ => True
  | cmd c next => P c ∧ ∀ a, All P (next a)

variable {P : C → Prop}

@[simp] theorem all_ret (a : α) : (ret a : Prog C A α).All P := trivial

@[simp] theorem all_cmd (c : C) (next : A c → Prog C A α) :
    (cmd c next).All P ↔ P c ∧ ∀ a, (next a).All P := Iff.rfl

/-- The first command of a program. -/
def head : Prog C A α → Option C
  | ret _ => none
  | cmd c _ => some c

/-- After a command `c` answered by `a`, the program goes on with a first command that `F c a`
allows, or ends where `F c a` allows that. -/
def Leads (F : (c : C) → A c → Option C → Prop) : Prog C A α → Prop
  | ret _ => True
  | cmd c next => ∀ a, F c a (next a).head ∧ Leads F (next a)

variable {F : (c : C) → A c → Option C → Prop} {p : Prog C A α} {f : α → Prog C A β}

/-- Commands that may each follow on each other, and end the program, lead on. -/
theorem All.leads_of (hp : p.All P) (hF : ∀ c a o, P c → (∀ c' ∈ o, P c') → F c a o) :
    p.Leads F := by
  induction p with
  | ret a => trivial
  | cmd c next ih =>
    refine fun a => ⟨hF c a _ hp.1 fun c' hc' => ?_, ih a (hp.2 a)⟩
    have hn := hp.2 a
    cases hnext : next a with
    | ret b => simp [hnext, head] at hc'
    | cmd c'' next' =>
      rw [hnext] at hc' hn
      cases hc'
      exact hn.1

theorem All.leads (hp : p.All fun c => ∀ a o, F c a o) : p.Leads F :=
  hp.leads_of fun _ a o h _ => h a o

/-- If what may end a program may be followed by anything, programs that lead on do so one after
the other. -/
theorem Leads.bind (hF : ∀ c a o, F c a none → F c a o) (hp : p.Leads F) (hf : ∀ a, (f a).Leads F) :
    (p.bind f).Leads F := by
  induction p with
  | ret a => exact hf a
  | cmd c next ih =>
    intro a
    refine ⟨?_, ih a (hp a).2⟩
    have hhead := (hp a).1
    cases hn : next a with
    | ret b => exact hF c a _ (by simpa [hn, head] using hhead)
    | cmd c' next' => simpa [hn, head] using hhead

theorem All.mono {Q : C → Prop} (hp : p.All P) (h : ∀ c, P c → Q c) : p.All Q := by
  induction p with
  | ret a => trivial
  | cmd c next ih => exact ⟨h c hp.1, fun a => ih a (hp.2 a)⟩

theorem All.bind (hp : p.All P) (hf : ∀ a, (f a).All P) : (p.bind f).All P := by
  induction p with
  | ret a => exact hf a
  | cmd c next ih => exact ⟨hp.1, fun a => ih a (hp.2 a)⟩

/-- What a program leaves and gives where nobody else is at work. -/
def eval {S : Type} (exec : (c : C) → S → S × A c) : Prog C A α → S → S × α
  | ret a, s => (s, a)
  | cmd c next, s => eval exec (next (exec c s).2) (exec c s).1

end Prog

/-! ### Interleavings -/

/-- What has become of a process: not started, at work for a request, or stopped for good. -/
inductive Life (R P : Type)
  | unborn
  | live (r : R) (p : P)
  | dead

/-- A store and the processes at work on it. -/
structure Pool (S ι R C : Type) (A : C → Type) (α : Type) where
  store : S
  procs : ι → Life R (Prog C A α)

/-- A process starts, takes its next command (with what the environment adds to it), or dies. -/
inductive Event (ι R I : Type)
  | start (id : ι) (r : R)
  | step (id : ι) (x : I)
  | kill (id : ι)

/-- What a command does to the store, and the program of each request. -/
structure Machine (S ι R I C : Type) (A : C → Type) (α : Type) where
  exec : (c : C) → I → S → S × A c
  body : ι → R → Prog C A α

variable {S ι R I C : Type} {A : C → Type} {α β : Type} [DecidableEq ι] {m : Machine S ι R I C A α}

/-- Nothing has started yet. -/
def Pool.idle (s : S) : Pool S ι R C A α := ⟨s, fun _ => .unborn⟩

/-- The pool after the process `id` has become `l` and the store `s`. -/
def Pool.set (p : Pool S ι R C A α) (s : S) (id : ι) (l : Life R (Prog C A α)) :
    Pool S ι R C A α :=
  ⟨s, Function.update p.procs id l⟩

/-- One event of an interleaving. -/
def Machine.step (m : Machine S ι R I C A α) (p : Pool S ι R C A α) :
    Event ι R I → Option (Pool S ι R C A α)
  | .start id r =>
    match p.procs id with
    | .unborn => some (p.set p.store id (.live r (m.body id r)))
    | _ => none
  | .step id x =>
    match p.procs id with
    | .live r (.cmd c next) =>
      some (p.set (m.exec c x p.store).1 id (.live r (next (m.exec c x p.store).2)))
    | _ => none
  | .kill id =>
    match p.procs id with
    | .live _ _ => some (p.set p.store id .dead)
    | _ => none

@[simp] theorem Pool.set_store (p : Pool S ι R C A α) (s : S) (id : ι)
    (l : Life R (Prog C A α)) : (p.set s id l).store = s := rfl

theorem Pool.set_procs (p : Pool S ι R C A α) (s : S) (id id' : ι) (l : Life R (Prog C A α)) :
    (p.set s id l).procs id' = if id' = id then l else p.procs id' := by
  simp [Pool.set, Function.update_apply]

variable {p q : Pool S ι R C A α} {e : Event ι R I} {s : S} {post' : β → S → Prop}
  {f : α → Prog C A β} {P : ι → R → C → I → S → Prop} {id : ι} {x : I} {r : R}
  {es : List (Event ι R I)}

theorem Machine.step_cases (h : m.step p e = some q) :
    (∃ id r, e = .start id r ∧ p.procs id = .unborn ∧
      q = p.set p.store id (.live r (m.body id r))) ∨
    (∃ id x r c next, e = .step id x ∧ p.procs id = .live r (.cmd c next) ∧
      q = p.set (m.exec c x p.store).1 id (.live r (next (m.exec c x p.store).2))) ∨
    (∃ id r k, e = .kill id ∧ p.procs id = .live r k ∧ q = p.set p.store id .dead) := by
  cases e with
  | start id r =>
    simp only [Machine.step] at h
    split at h
    · rename_i hp
      exact .inl ⟨id, r, rfl, hp, (Option.some.inj h).symm⟩
    · cases h
  | step id x =>
    simp only [Machine.step] at h
    split at h
    · rename_i r c next hp
      exact .inr (.inl ⟨id, x, r, c, next, rfl, hp, (Option.some.inj h).symm⟩)
    · cases h
  | kill id =>
    simp only [Machine.step] at h
    split at h
    · rename_i r k hp
      exact .inr (.inr ⟨id, r, k, rfl, hp, (Option.some.inj h).symm⟩)
    · cases h

/-! ### Contracts -/

/-- What others may do to the store between two commands, what may be assumed of the store when a
command is taken, and what holds of every command taken. -/
structure Contract (S I C : Type) where
  rely : S → S → Prop
  assume : C → I → S → Prop
  ensure : C → I → S → Prop

/-- What others do adds up, and nothing happening is one of the things they may do. -/
structure Contract.Lawful (K : Contract S I C) : Prop where
  refl : ∀ s, K.rely s s
  trans : ∀ s t u, K.rely s t → K.rely t u → K.rely s u

/-- From the store `s`, and whatever others do that `K` relies on, every command of the program
ensures what `K` says, and the program ends in `post`; `inv` is what all processes keep. -/
def Safe (exec : (c : C) → I → S → S × A c) (inv : S → Prop) (K : Contract S I C)
    (post : α → S → Prop) : Prog C A α → S → Prop
  | .ret a, s => ∀ t, K.rely s t → post a t
  | .cmd c next, s => ∀ t, K.rely s t → inv t → ∀ x, K.assume c x t →
      K.ensure c x t ∧ Safe exec inv K post (next (exec c x t).2) (exec c x t).1

variable {exec : (c : C) → I → S → S × A c} {inv : S → Prop} {K : Contract S I C}
  {post : α → S → Prop}

/-- What others do keeps a program safe. -/
theorem Safe.rely (hK : K.Lawful) {p : Prog C A α} {t : S} (h : Safe exec inv K post p s)
    (hst : K.rely s t) : Safe exec inv K post p t := by
  cases p with
  | ret a => exact fun u htu => h u (hK.trans s t u hst htu)
  | cmd c next => exact fun u htu => h u (hK.trans s t u hst htu)

/-- A program safe up to a point from which the rest is safe. -/
theorem Safe.bind (hK : K.Lawful) {p : Prog C A α}
    (h : Safe exec inv K (fun a t => Safe exec inv K post' (f a) t) p s) :
    Safe exec inv K post' (p.bind f) s := by
  induction p generalizing s with
  | ret a => exact h s (hK.refl s)
  | cmd c next ih =>
    intro t hst hinv x hx
    obtain ⟨hc, hn⟩ := h t hst hinv x hx
    exact ⟨hc, ih _ hn⟩

theorem Safe.mono {post' : α → S → Prop} (hpost : ∀ a s, post a s → post' a s)
    {p : Prog C A α} (h : Safe exec inv K post p s) : Safe exec inv K post' p s := by
  induction p generalizing s with
  | ret a => exact fun t hst => hpost a t (h t hst)
  | cmd c next ih =>
    intro t hst hinv x hx
    obtain ⟨hc, hn⟩ := h t hst hinv x hx
    exact ⟨hc, ih _ hn⟩

/-- A program and the rest, safe from wherever the program ends. -/
theorem Safe.seq (hK : K.Lawful) {p : Prog C A α} (h : Safe exec inv K post p s)
    (hf : ∀ a t, post a t → Safe exec inv K post' (f a) t) : Safe exec inv K post' (p.bind f) s :=
  Safe.bind hK (h.mono hf)

/-- A program each of whose commands ensures what `K` says is safe wherever it runs. -/
theorem Safe.of_all {p : Prog C A α}
    (hp : p.All fun c => ∀ x t, inv t → K.assume c x t → K.ensure c x t) :
    Safe exec inv K (fun _ _ => True) p s := by
  induction p generalizing s with
  | ret a => exact fun _ _ => trivial
  | cmd c next ih => exact fun t _ hinv x hx => ⟨hp.1 x t hinv hx, ih _ (hp.2 _)⟩

/-- The store keeps `inv` and knows nothing of the processes to come, and every process at work is
safe under its contract. -/
structure Pool.Sound (exec : (c : C) → I → S → S × A c) (inv : S → Prop) (fresh : ι → S → Prop)
    (K : ι → R → Contract S I C) (p : Pool S ι R C A α) : Prop where
  holds : inv p.store
  unknown : ∀ id, p.procs id = .unborn → fresh id p.store
  safe : ∀ id r k, p.procs id = .live r k → Safe exec inv (K id r) (fun _ _ => True) k p.store

/-- What ties the contracts of a system to each other and to the invariant of its store, in runs
whose events satisfy `ok`: a command that ensures its contract keeps the invariant, says nothing of
the processes to come, and is something every other process at work relies on. -/
structure Fits (m : Machine S ι R I C A α) (ok : Pool S ι R C A α → Event ι R I → Prop)
    (inv : S → Prop) (fresh : ι → S → Prop) (K : ι → R → Contract S I C) : Prop where
  lawful : ∀ id r, (K id r).Lawful
  assumes : ∀ p id x r c next, ok p (.step id x) → p.procs id = .live r (.cmd c next) →
    (K id r).assume c x p.store
  keeps : ∀ id r c x s, inv s → (K id r).assume c x s → (K id r).ensure c x s →
    inv (m.exec c x s).1
  ignores : ∀ id r id' c x s, id' ≠ id → (K id r).ensure c x s → fresh id' s →
    fresh id' (m.exec c x s).1
  tolerates : ∀ p id x r c next id' r' c' next', id' ≠ id → ok p (.step id x) →
    p.procs id = .live r (.cmd c next) → p.procs id' = .live r' (.cmd c' next') →
    inv p.store → (K id r).ensure c x p.store → (K id' r').rely p.store (m.exec c x p.store).1
  starts : ∀ p id r, ok p (.start id r) → inv p.store → fresh id p.store →
    Safe m.exec inv (K id r) (fun _ _ => True) (m.body id r) p.store

omit [DecidableEq ι] in
theorem Pool.Sound.idle (exec : (c : C) → I → S → S × A c) {fresh : ι → S → Prop}
    (K : ι → R → Contract S I C) (hs : inv s) (hfresh : ∀ id, fresh id s) :
    (Pool.idle s : Pool S ι R C A α).Sound exec inv fresh K :=
  ⟨hs, fun id _ => hfresh id, fun _ _ _ h => nomatch h⟩

/-- The event takes a command that satisfies `P`, if it takes one. -/
def OnCommand (P : ι → R → C → I → S → Prop) (p : Pool S ι R C A α) : Event ι R I → Prop
  | .step id x => ∀ r c next, p.procs id = .live r (.cmd c next) → P id r c x p.store
  | _ => True

omit [DecidableEq ι] in
theorem onCommand_step_iff {c : C} {next : A c → Prog C A α}
    (h : p.procs id = .live r (.cmd c next)) : P id r c x p.store ↔ OnCommand P p (.step id x) := by
  constructor
  · intro hP r' c' next' h'
    cases h.symm.trans h'
    exact hP
  · exact fun hP => hP r c next h

omit [DecidableEq ι] in
theorem onCommand_step_of_ne
    (h : ∀ r c next, p.procs id ≠ .live r (.cmd c next)) : OnCommand P p (.step id x) :=
  fun r c next h' => absurd h' (h r c next)

instance OnCommand.decidable {P : ι → R → C → I → S → Prop}
    [∀ id r c x s, Decidable (P id r c x s)] (p : Pool S ι R C A α) (e : Event ι R I) :
    Decidable (OnCommand P p e) :=
  match e with
  | .start _ _ => isTrue trivial
  | .kill _ => isTrue trivial
  | .step id x =>
    match h : p.procs id with
    | .live r (.cmd c _) => decidable_of_iff (P id r c x p.store) (onCommand_step_iff h)
    | .live _ (.ret _) => isTrue (onCommand_step_of_ne (by simp [h]))
    | .unborn => isTrue (onCommand_step_of_ne (by simp [h]))
    | .dead => isTrue (onCommand_step_of_ne (by simp [h]))

/-- The command a process takes next. -/
def Pool.next (p : Pool S ι R C A α) (id : ι) : Option C :=
  match p.procs id with
  | .live _ (.cmd c _) => some c
  | _ => none

omit [DecidableEq ι] in
theorem Pool.next_eq_some {c : C} :
    p.next id = some c ↔ ∃ r k, p.procs id = .live r (.cmd c k) := by
  unfold Pool.next
  constructor
  · intro h
    split at h
    · rename_i r c' k hp
      cases h
      exact ⟨r, k, hp⟩
    · cases h
  · rintro ⟨r, k, hp⟩
    rw [hp]

theorem Pool.next_set_of_ne (p : Pool S ι R C A α) (s : S) {id' : ι}
    (l : Life R (Prog C A α)) (h : id' ≠ id) : (p.set s id l).next id' = p.next id' := by
  simp only [Pool.next, Pool.set_procs, if_neg h]

theorem Pool.next_set_live (p : Pool S ι R C A α) (s : S) (id : ι) (r : R) (k : Prog C A α) :
    (p.set s id (.live r k)).next id = k.head := by
  cases k <;> simp [Pool.next, Pool.set_procs, Prog.head]

theorem unborn_of_run (h : Runs.run m.step p es = some q)
    (hp : p.procs id = .unborn) (hes : ∀ r, .start id r ∉ es) : q.procs id = .unborn := by
  induction es generalizing p with
  | nil => cases h; exact hp
  | cons e es ih =>
    obtain ⟨t, ht, hrun⟩ := Runs.run_cons_eq_some.1 h
    refine ih hrun ?_ fun r hr => hes r (List.mem_cons_of_mem e hr)
    obtain ⟨id', r, rfl, -, rfl⟩ | ⟨id', x, r, c, next, rfl, hid, rfl⟩ |
      ⟨id', r, k, rfl, hid, rfl⟩ := Machine.step_cases ht
    · have hne : id ≠ id' := by
        rintro rfl
        exact hes r List.mem_cons_self
      rw [Pool.set_procs, if_neg hne, hp]
    · have hne : id ≠ id' := by
        rintro rfl
        cases hp.symm.trans hid
      rw [Pool.set_procs, if_neg hne, hp]
    · have hne : id ≠ id' := by
        rintro rfl
        cases hp.symm.trans hid
      rw [Pool.set_procs, if_neg hne, hp]

variable {m : Machine S ι R I C A α} {ok : Pool S ι R C A α → Event ι R I → Prop}
  {fresh : ι → S → Prop} {K : ι → R → Contract S I C}

theorem leads_step {F : (c : C) → A c → Option C → Prop}
    (hbody : ∀ id r, e = .start id r → (m.body id r).Leads F)
    (hp : ∀ id r k, p.procs id = .live r k → k.Leads F) (h : m.step p e = some q) (id : ι) (r : R)
    (k : Prog C A α) (hk : q.procs id = .live r k) : k.Leads F := by
  obtain ⟨id', r', rfl, -, rfl⟩ | ⟨id', x, r', c, next, -, hid, rfl⟩ | ⟨id', _, _, -, -, rfl⟩ :=
    Machine.step_cases h
  all_goals
    rw [Pool.set_procs] at hk
    split_ifs at hk with hne
  · cases hk
    exact hbody id' r rfl
  · exact hp id r k hk
  · cases hk
    exact (hp id' r _ hid _).2
  · exact hp id r k hk
  · exact hp id r k hk

theorem sound_step (hF : Fits m ok inv fresh K)
    (hp : p.Sound m.exec inv fresh K) (he : ok p e) (h : m.step p e = some q) :
    q.Sound m.exec inv fresh K := by
  obtain ⟨id, r, rfl, hid, rfl⟩ | ⟨id, x, r, c, next, rfl, hid, rfl⟩ | ⟨id, r, k, rfl, -, rfl⟩ :=
    Machine.step_cases h
  · refine ⟨hp.holds, fun id' h' => ?_, fun id' r' k' h' => ?_⟩
    · rw [Pool.set_procs] at h'
      split_ifs at h'
      exact hp.unknown id' h'
    · rw [Pool.set_procs] at h'
      split_ifs at h' with hne
      · cases h'
        rw [hne]
        exact hF.starts p id r he hp.holds (hp.unknown id hid)
      · exact hp.safe id' r' k' h'
  · have hx : (K id r).assume c x p.store := hF.assumes p id x r c next he hid
    obtain ⟨hc, hn⟩ := hp.safe id r _ hid p.store ((hF.lawful id r).refl _) hp.holds x hx
    refine ⟨hF.keeps id r c x p.store hp.holds hx hc, fun id' h' => ?_, fun id' r' k' h' => ?_⟩
    · rw [Pool.set_procs] at h'
      split_ifs at h' with hne
      exact hF.ignores id r id' c x p.store hne hc (hp.unknown id' h')
    · rw [Pool.set_procs] at h'
      split_ifs at h' with hne
      · cases h'
        rw [hne]
        exact hn
      · -- a process that has ended relies on nothing
        cases k' with
        | ret a => exact fun _ _ => trivial
        | cmd c' next' =>
          exact (hp.safe id' r' _ h').rely (hF.lawful id' r')
            (hF.tolerates p id x r c next id' r' c' next' hne he hid h' hp.holds hc)
  · refine ⟨hp.holds, fun id' h' => ?_, fun id' r' k' h' => ?_⟩
    · rw [Pool.set_procs] at h'
      split_ifs at h'
      exact hp.unknown id' h'
    · rw [Pool.set_procs] at h'
      split_ifs at h'
      exact hp.safe id' r' k' h'

/-- **Programs that keep their contracts keep them in every interleaving.** -/
theorem sound_run (hF : Fits m ok inv fresh K)
    (hp : p.Sound m.exec inv fresh K) (hm : Runs.Meets m.step ok p es)
    (hr : Runs.run m.step p es = some q) : q.Sound m.exec inv fresh K :=
  Runs.run_invariant (fun _ _ _ hp he h => sound_step hF hp he h) hp hm hr

omit [DecidableEq ι] in
/-- The next command of a process in a sound pool ensures what its contract says. -/
theorem Pool.Sound.ensure (hp : p.Sound m.exec inv fresh K) {c : C} {next : A c → Prog C A α}
    (hK : (K id r).Lawful)
    (hid : p.procs id = .live r (.cmd c next)) (hx : (K id r).assume c x p.store) :
    (K id r).ensure c x p.store :=
  (hp.safe id r _ hid p.store (hK.refl _) hp.holds x hx).1

end Programs
