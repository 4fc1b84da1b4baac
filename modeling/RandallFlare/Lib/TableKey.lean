import Mathlib.Data.String.Basic
import RandallFlare.Lib.SortedMap

/-!
# Texts as keys of an ordered table

A table ordered by text holds several families of entries, told apart by how their keys start; a
family is read by a scan from the start of its keys on.  A number in a key is written with a fixed
number of digits, so that keys sort as numbers do.

* `padDecimal`: a number with leading zeros (`padDecimal_lt`);
* `SortedMap.scan`: the entries from a start on whose keys begin with it (`scan_eq_filter`).
-/

namespace TableKey

open List

/-! ### Numbers -/

/-- The last `n` decimal digits of a number, with leading zeros. -/
def padDecimal : ℕ → ℕ → List Char
  | 0, _ => []
  | n + 1, v => Nat.digitChar (v / 10 ^ n % 10) :: padDecimal n v

theorem length_padDecimal (n v : ℕ) : (padDecimal n v).length = n := by
  induction n with
  | zero => rfl
  | succ n ih => rw [padDecimal, length_cons, ih]

theorem digitChar_lt {a b : ℕ} (hab : a < b) (hb : b < 10) : Nat.digitChar a < Nat.digitChar b := by
  interval_cases b <;> interval_cases a <;> decide

/-- Numbers with leading zeros sort as numbers. -/
theorem padDecimal_lt {n v w : ℕ} (h : v % 10 ^ n < w % 10 ^ n) :
    padDecimal n v < padDecimal n w := by
  induction n with
  | zero =>
    rw [pow_zero, Nat.mod_one, Nat.mod_one] at h
    exact absurd h (lt_irrefl 0)
  | succ n ih =>
    rw [padDecimal, padDecimal, cons_lt_cons_iff]
    rw [pow_succ, Nat.mod_mul, Nat.mod_mul] at h
    rcases lt_trichotomy (v / 10 ^ n % 10) (w / 10 ^ n % 10) with hlt | heq | hgt
    · exact .inl (digitChar_lt hlt (Nat.mod_lt _ (by decide)))
    · refine .inr ⟨by rw [heq], ih ?_⟩
      rw [heq] at h
      omega
    · -- The leading digit of `w` is smaller, so `w` is.
      have hle : 10 ^ n * (w / 10 ^ n % 10) + 10 ^ n ≤ 10 ^ n * (v / 10 ^ n % 10) := by
        exact Nat.mul_le_mul_left _ hgt
      omega

/-! ### Scans -/

/-- What lies between a start and a text that begins with it begins with it too. -/
theorem start_of_between {p k l : List Char} (hpk : ¬ k < p) (hkl : ¬ l < k) (hpl : p <+: l) :
    p <+: k := by
  induction p generalizing k l with
  | nil => exact nil_prefix
  | cons a p ih =>
    obtain ⟨t, rfl⟩ := hpl
    cases k with
    | nil => exact absurd (nil_lt_cons a p) hpk
    | cons b k =>
      rw [cons_lt_cons_iff, not_or, not_and] at hpk
      rw [cons_append, cons_lt_cons_iff, not_or, not_and] at hkl
      obtain rfl : a = b := le_antisymm (not_lt.1 hpk.1) (not_lt.1 hkl.1)
      exact (prefix_cons_inj a).2 (ih (hpk.2 rfl) (hkl.2 rfl) ⟨t, rfl⟩)

theorem not_lt_of_start {p k : List Char} (h : p <+: k) : ¬ k < p := by
  obtain ⟨t, rfl⟩ := h
  induction p with
  | nil => exact not_lt_nil _
  | cons a p ih =>
    rw [cons_append, cons_lt_cons_iff, not_or, not_and]
    exact ⟨lt_irrefl a, fun _ => ih⟩

/-- Along a list on which a test, once failed, stays failed, what is taken while it holds is what
satisfies it. -/
theorem takeWhile_eq_filter {α : Type*} {q : α → Bool} {l : List α}
    (h : l.Pairwise fun a b => q b → q a) : l.takeWhile q = l.filter q := by
  induction l with
  | nil => rfl
  | cons a l ih =>
    obtain ⟨ha, hl⟩ := pairwise_cons.1 h
    by_cases hq : q a
    · rw [takeWhile_cons_of_pos hq, filter_cons_of_pos hq, ih hl]
    · rw [takeWhile_cons_of_neg hq, filter_cons_of_neg hq]
      exact (filter_eq_nil_iff.2 fun b hb hqb => hq (ha b hb hqb)).symm

end TableKey

namespace SortedMap

variable {V : Type*}

/-- The entries from `start` on, as long as their keys begin with it. -/
def scan (m : SortedMap String V) (start : String) : List (String × V) :=
  (m.entries.dropWhile fun p => p.1 < start).takeWhile fun p => start.toList <+: p.1.toList

/-- A scan finds all keys that begin with the start, in their order. -/
theorem scan_eq_filter (m : SortedMap String V) (start : String) :
    m.scan start = m.entries.filter fun p => start.toList <+: p.1.toList := by
  obtain ⟨l, hl⟩ := m
  show (l.dropWhile _).takeWhile _ = l.filter _
  induction l with
  | nil => rfl
  | cons a l ih =>
    obtain ⟨ha, hl'⟩ := List.pairwise_cons.1 hl
    by_cases hlt : a.1 < start
    · have hno : ¬ start.toList <+: a.1.toList := fun hstart =>
        TableKey.not_lt_of_start hstart (String.lt_iff_toList_lt.1 hlt)
      rw [List.dropWhile_cons_of_pos (by simpa using hlt), ih hl',
        List.filter_cons_of_neg (by simpa using hno)]
    · rw [List.dropWhile_cons_of_neg (by simpa using hlt)]
      refine TableKey.takeWhile_eq_filter (hl.imp_of_mem fun {b c} hb _ hbc hc => ?_)
      -- Everything from here on is at least `start`.
      have hfrom : ¬ b.1 < start := by
        rcases List.mem_cons.1 hb with rfl | hb
        · exact hlt
        · exact fun hb' => hlt ((ha b hb).trans hb')
      rw [decide_eq_true_iff] at hc ⊢
      refine TableKey.start_of_between (fun h => hfrom (String.lt_iff_toList_lt.2 h)) ?_ hc
      exact fun h => hbc.asymm (String.lt_iff_toList_lt.2 h)

end SortedMap
