import RandallFlare.Lib.Latest
import Mathlib.Data.Set.Finite.Basic

/-!
# Registers that exchange what is live

Two parties keep a register for every owner.  Each sends the other its live items, and each then lets
the live item that comes first win.  Items that are not live are not sent, although they may outrank
what the other party holds; so the two may disagree.

* `after`: the registers once the other's live items have been offered;
* `Wins`: the owner whose item is the first live one;
* `Contends`, `First`: the items that are live on either side and not outranked by a live one, and
  the first of them;
* `Settles`: the first of them gets to both sides;
* `agree_iff`: the same owner wins on both sides exactly then.
-/

namespace Exchange

open Option

variable {H R β γ : Type*} [LinearOrder β] [LinearOrder γ] (live : R → Prop) (rank : R → β)
  (first : R → γ)

/-- Offer the live items of `b` to the registers `a`. -/
def after [DecidablePred live] (a b : H → Option R) (h : H) : Option R :=
  match b h with
  | some r => if live r then Latest.keep rank (a h) r else a h
  | none => a h

/-- The item of this owner is live and comes before all other live ones. -/
def Wins (a : H → Option R) (h : H) : Prop :=
  ∃ r, a h = some r ∧ live r ∧ ∀ k q, a k = some q → live q → first r ≤ first q

/-- A live item of `a` that no live item of `b` outranks. -/
def Contends (a b : H → Option R) (h : H) (r : R) : Prop :=
  a h = some r ∧ live r ∧ ∀ q, b h = some q → live q → rank q ≤ rank r

/-- A register that takes the item, or has it. -/
def Takes (a : H → Option R) (h : H) (r : R) : Prop :=
  ∀ q, a h = some q → q = r ∨ rank q < rank r

/-- The first of the items that contend on either side. -/
def First (a b : H → Option R) (h : H) (r : R) : Prop :=
  (Contends live rank a b h r ∨ Contends live rank b a h r) ∧
    ∀ k q, Contends live rank a b k q ∨ Contends live rank b a k q → first r ≤ first q

/-- The side `a` takes the item, or it has one of the same owner and rank instead, which comes before
all other items that `a` has or takes. -/
def Heard (a b : H → Option R) (h : H) (r : R) : Prop :=
  Takes rank a h r ∨ ∃ q, Contends live rank a b h q ∧
    ∀ k p, k ≠ h → Contends live rank a b k p ∨ Contends live rank b a k p ∧ Takes rank a k p →
      first q ≤ first p

/-- The first of all items is heard of on both sides. -/
def Settles (a b : H → Option R) : Prop :=
  ∀ h r, First live rank first a b h r →
    Heard live rank first a b h r ∧ Heard live rank first b a h r

variable {live rank first} {a b : H → Option R} {h k : H} {r q : R}

theorem Contends.heard (hr : Contends live rank a b h r) : Heard live rank first a b h r :=
  .inl fun _ hq => .inl (some.inj (hq.symm.trans hr.1))

theorem First.symm (hfirst : First live rank first a b h r) : First live rank first b a h r :=
  ⟨hfirst.1.symm, fun k q hq => hfirst.2 k q hq.symm⟩

theorem Settles.symm (hset : Settles live rank first a b) : Settles live rank first b a :=
  fun h r hfirst => (hset h r hfirst.symm).symm

variable [DecidablePred live]

/-- After the exchange, the live items are those that contend on the own side, and those that contend
on the other and are taken. -/
theorem after_live : after live rank a b h = some r ∧ live r ↔
      Contends live rank a b h r ∨ Contends live rank b a h r ∧ Takes rank a h r := by
  unfold after
  constructor
  · rintro ⟨hafter, hlive⟩
    cases hb : b h with
    | none =>
      rw [hb] at hafter
      exact .inl ⟨hafter, hlive, fun q hq => by rw [hb] at hq; cases hq⟩
    | some q =>
      rw [hb] at hafter
      dsimp only at hafter
      split_ifs at hafter with hq
      · cases ha : a h with
        | none =>
          rw [ha] at hafter
          obtain rfl : q = r := some.inj hafter
          exact .inr ⟨⟨hb, hlive, fun p hp => by rw [ha] at hp; cases hp⟩,
            fun p hp => by rw [ha] at hp; cases hp⟩
        | some y =>
          rw [ha] at hafter
          by_cases hlt : rank y < rank q
          · obtain rfl : q = r := some.inj ((if_pos hlt).symm.trans hafter)
            refine .inr ⟨⟨hb, hlive, fun p hp _ => ?_⟩, fun p hp => ?_⟩
            · cases ha.symm.trans hp
              exact hlt.le
            · cases ha.symm.trans hp
              exact .inr hlt
          · obtain rfl : y = r := some.inj ((if_neg hlt).symm.trans hafter)
            refine .inl ⟨ha, hlive, fun p hp _ => ?_⟩
            cases hb.symm.trans hp
            exact not_lt.1 hlt
      · refine .inl ⟨hafter, hlive, fun p hp hp' => ?_⟩
        cases hb.symm.trans hp
        exact absurd hp' hq
  · rintro (⟨ha, hlive, hle⟩ | ⟨⟨hb, hlive, -⟩, htakes⟩)
    · refine ⟨?_, hlive⟩
      cases hb : b h with
      | none => exact ha
      | some q =>
        dsimp only
        split_ifs with hq
        · rw [ha]
          exact if_neg (not_lt.2 (hle q hb hq))
        · exact ha
    · refine ⟨?_, hlive⟩
      rw [hb]
      dsimp only
      rw [if_pos hlive]
      cases ha : a h with
      | none => rfl
      | some q =>
        rcases htakes q ha with rfl | hlt
        · exact if_neg (lt_irrefl _)
        · exact if_pos hlt

/-- If the first item of all is heard of on a side, its owner wins there. -/
theorem Heard.wins (hfirst : First live rank first a b h r)
    (hheard : Heard live rank first a b h r) : Wins live first (after live rank a b) h := by
  rcases hheard with htakes | ⟨q, hq, hleast⟩
  · have hr : after live rank a b h = some r ∧ live r :=
      after_live.2 (hfirst.1.imp id fun hr => ⟨hr, htakes⟩)
    refine ⟨r, hr.1, hr.2, fun k p hp hlive => hfirst.2 k p ?_⟩
    exact (after_live.1 ⟨hp, hlive⟩).imp id And.left
  · have hafter := after_live.2 (.inl hq)
    refine ⟨q, hafter.1, hafter.2, fun k p hp hlive => ?_⟩
    by_cases hk : k = h
    · subst hk
      cases hafter.1.symm.trans hp
      exact le_rfl
    · exact hleast k p hk (after_live.1 ⟨hp, hlive⟩)

/-- If the owner of an item that contends on the other side wins, the item was heard of. -/
theorem Wins.heard (hr : Contends live rank b a h r)
    (hwins : Wins live first (after live rank a b) h) : Heard live rank first a b h r := by
  obtain ⟨q, hq, hlive, hleast⟩ := hwins
  rcases after_live.1 ⟨hq, hlive⟩ with hown | ⟨hother, htakes⟩
  · refine .inr ⟨q, hown, fun k p _ hp => ?_⟩
    have hafter := after_live.2 hp
    exact hleast k p hafter.1 hafter.2
  · cases hr.1.symm.trans hother.1
    exact .inl htakes

theorem First.wins (hfirst : First live rank first a b h r) (hr : Contends live rank a b h r) :
    Wins live first (after live rank a b) h :=
  hr.heard.wins hfirst

section

variable (hfin : {p : H × R | a p.1 = some p.2 ∨ b p.1 = some p.2}.Finite)
  (hinj : ∀ h k r q, (a h = some r ∨ b h = some r) → (a k = some q ∨ b k = some q) →
    first r = first q → h = k)

include hfin hinj

omit hinj in
theorem exists_first (hr : after live rank a b h = some r) (hlive : live r) :
    ∃ k q, First live rank first a b k q := by
  have hfin' : {p : H × R | Contends live rank a b p.1 p.2 ∨
      Contends live rank b a p.1 p.2}.Finite :=
    hfin.subset fun p hp => hp.imp And.left And.left
  obtain ⟨p, hp, hleast⟩ := Set.exists_min_image _ (fun p : H × R => first p.2) hfin'
    ⟨(h, r), (after_live.1 ⟨hr, hlive⟩).imp id And.left⟩
  exact ⟨p.1, p.2, hp, fun k q hq => hleast (k, q) hq⟩

omit hfin in
theorem Wins.unique
    (hh : Wins live first (after live rank a b) h) (hk : Wins live first (after live rank a b) k) :
    h = k := by
  obtain ⟨r, hr, hrlive, hrleast⟩ := hh
  obtain ⟨q, hq, hqlive, hqleast⟩ := hk
  refine hinj h k r q ?_ ?_ (le_antisymm (hrleast k q hq hqlive) (hqleast h r hr hrlive))
  · exact (after_live.1 ⟨hr, hrlive⟩).imp And.left fun hr => hr.1.1
  · exact (after_live.1 ⟨hq, hqlive⟩).imp And.left fun hq => hq.1.1

/-- If the first item gets to both sides, whoever wins on one wins on the other. -/
theorem Settles.wins (hset : Settles live rank first a b)
    (hwins : Wins live first (after live rank a b) h) :
    Wins live first (after live rank b a) h := by
  obtain ⟨r, hr, hlive, -⟩ := id hwins
  obtain ⟨k, q, hfirst⟩ : ∃ k q, First live rank first a b k q := exists_first hfin hr hlive
  obtain ⟨ha, hb⟩ := hset k q hfirst
  rw [hwins.unique hinj (ha.wins hfirst)]
  exact hb.wins hfirst.symm

/-- **The same owner wins on both sides exactly if the first item is heard of on both.** -/
theorem agree_iff :
    (∀ h, Wins live first (after live rank a b) h ↔ Wins live first (after live rank b a) h) ↔
      Settles live rank first a b := by
  constructor
  · intro h k r hfirst
    rcases hfirst.1 with hr | hr
    · exact ⟨hr.heard, ((h k).1 (hfirst.wins hr)).heard hr⟩
    · exact ⟨((h k).2 (hfirst.symm.wins hr)).heard hr, hr.heard⟩
  · intro hset h
    refine ⟨hset.wins hfin hinj, hset.symm.wins ?_ ?_⟩
    · simpa only [or_comm] using hfin
    · exact fun h k r q hr hq => hinj h k r q hr.symm hq.symm

end

end Exchange
