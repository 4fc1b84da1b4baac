import RandallFlare.Lib.Joins

/-!
# Decimal texts

The digits of the number that a text spells.

* `zeroed`: every occurrence of a digit replaced by a zero;
* `parseDecimal_zeroed`: the result is a number again, and which one if it has one digit.
-/

namespace Text

open List

def digitValue (c : Char) : ℕ := c.toNat - '0'.toNat

theorem ofDigitChars_concat (l : List Char) (c : Char) :
    Nat.ofDigitChars 10 (l ++ [c]) 0 = 10 * Nat.ofDigitChars 10 l 0 + digitValue c := by
  rw [Nat.ofDigitChars_append]
  rfl

variable {c d : Char} {l : List Char} {n : ℕ}

theorem digitValue_lt (h : c.isDigit) : digitValue c < 10 := by
  have := Char.isDigit_iff_toNat.1 h
  unfold digitValue
  have h9 : '9'.toNat = 57 := rfl
  have h0 : '0'.toNat = 48 := rfl
  omega

theorem digitValue_inj (hc : c.isDigit) (hd : d.isDigit)
    (h : digitValue c = digitValue d) : c = d := by
  have hc := Char.isDigit_iff_toNat.1 hc
  have hd := Char.isDigit_iff_toNat.1 hd
  unfold digitValue at h
  exact Char.toNat_inj.1 (by omega)

/-- Every occurrence of a digit replaced by a zero. -/
def zeroed (d : Char) (l : List Char) : List Char := l.map fun c => if c = d then '0' else c

theorem not_mem_zeroed (hd : d ≠ '0') (l : List Char) : d ∉ zeroed d l := by
  intro h
  obtain ⟨c, -, hc⟩ := mem_map.1 h
  split_ifs at hc with heq
  · exact hd hc.symm
  · exact heq hc

theorem zeroed_append (d : Char) (a b : List Char) :
    zeroed d (a ++ b) = zeroed d a ++ zeroed d b := map_append

theorem zeroed_cons_of_ne (h : c ≠ d) (l : List Char) : zeroed d (c :: l) = c :: zeroed d l := by
  rw [zeroed, map_cons, if_neg h]
  rfl

/-- A separator that is not replaced separates the same parts. -/
theorem splitOn_zeroed {sep : Char} (hd : sep ≠ d) (h0 : sep ≠ '0') (l : List Char) :
    (zeroed d l).splitOn sep = (l.splitOn sep).map (zeroed d) := by
  induction l with
  | nil => simp [zeroed]
  | cons c l ih =>
    have hsep : (if c = d then '0' else c) == sep ↔ c == sep := by
      rw [beq_iff_eq, beq_iff_eq]
      split_ifs with hc
      · exact ⟨fun h => absurd h.symm h0, fun h => absurd (h.symm.trans hc) hd⟩
      · rfl
    obtain ⟨m, ms, hms⟩ := exists_cons_of_ne_nil (splitOn_ne_nil sep l)
    rw [splitOn, zeroed, map_cons, ← zeroed, splitOn,
      splitOnP_cons_eq_if_modifyHead, splitOnP_cons_eq_if_modifyHead, ← splitOn, ih,
      ← splitOn, hms]
    by_cases hc : c == sep
    · rw [if_pos (hsep.2 hc), if_pos hc]
      rfl
    · rw [if_neg (mt hsep.1 hc), if_neg hc]
      rfl

theorem unsigned_zeroed (hd : d ≠ '+') (l : List Char) :
    unsigned (zeroed d l) = zeroed d (unsigned l) := by
  cases l with
  | nil => rfl
  | cons c l =>
    by_cases hc : c = '+'
    · subst hc
      rw [zeroed_cons_of_ne hd.symm]
      rfl
    · have hne : (if c = d then '0' else c) ≠ '+' := by
        split_ifs
        · decide
        · exact hc
      have hplain : ∀ {b : Char} {t : List Char}, b ≠ '+' → unsigned (b :: t) = b :: t := by
        intro b t hb
        unfold unsigned
        split
        · rename_i heq
          exact absurd (cons.inj heq).1 hb
        · rfl
      rw [hplain hc, zeroed, map_cons, hplain hne]

theorem ofDigitChars_zeroed_le (l : List Char) :
    Nat.ofDigitChars 10 (zeroed d l) 0 ≤ Nat.ofDigitChars 10 l 0 := by
  induction l using reverseRecOn with
  | nil => rfl
  | append_singleton l c ih =>
    have hc : digitValue (if c = d then '0' else c) ≤ digitValue c := by
      split_ifs
      · exact Nat.zero_le _
      · rfl
    rw [zeroed_append, ofDigitChars_concat]
    show Nat.ofDigitChars 10 (zeroed d l ++ [if c = d then '0' else c]) 0 ≤ _
    rw [ofDigitChars_concat]
    omega

/-- A number stays a number; one with a single digit becomes 0 or stays the same. -/
theorem parseDecimal_zeroed (hd : d.isDigit) (h : parseDecimal l = some n) :
    ∃ m, parseDecimal (zeroed d l) = some m ∧ (n < 10 → m = if n = digitValue d then 0 else n) := by
  have hplus : d ≠ '+' := by
    rintro rfl
    exact absurd hd (by decide)
  unfold parseDecimal at h
  split_ifs at h with hl
  obtain ⟨hne, hdigits⟩ := hl
  cases h
  have hzeroed : zeroed d (unsigned l) ≠ [] ∧ (zeroed d (unsigned l)).all Char.isDigit := by
    refine ⟨by simpa [zeroed] using hne, all_eq_true.2 fun c hc => ?_⟩
    obtain ⟨b, hb, rfl⟩ := mem_map.1 hc
    split_ifs
    · decide
    · exact all_eq_true.1 hdigits b hb
  refine ⟨Nat.ofDigitChars 10 (zeroed d (unsigned l)) 0, ?_, fun hlt => ?_⟩
  · rw [parseDecimal, unsigned_zeroed hplus, if_pos hzeroed]
  · -- Before the last digit there are only zeros, which stay.
    obtain ⟨t, c, ht⟩ : ∃ t c, unsigned l = t ++ [c] := ⟨_, _, (dropLast_append_getLast hne).symm⟩
    rw [ht] at hlt hdigits ⊢
    have hc : c.isDigit := all_eq_true.1 hdigits c (by simp)
    have hle := ofDigitChars_zeroed_le (d := d) t
    rw [ofDigitChars_concat] at hlt ⊢
    rw [zeroed_append]
    show Nat.ofDigitChars 10 (zeroed d t ++ [if c = d then '0' else c]) 0 = _
    rw [ofDigitChars_concat, show Nat.ofDigitChars 10 (zeroed d t) 0 = 0 by omega,
      show Nat.ofDigitChars 10 t 0 = 0 by omega, mul_zero, zero_add, zero_add]
    by_cases hcd : c = d
    · rw [if_pos hcd, if_pos (by rw [hcd])]
      rfl
    · rw [if_neg hcd, if_neg (fun h => hcd (digitValue_inj hc hd h))]

theorem ofDigitChars_div_pow_mod_ne (hd : d.isDigit) (hl : l.all Char.isDigit)
    (h : d ∉ l) (hd0 : d ≠ '0') (j : ℕ) : Nat.ofDigitChars 10 l 0 / 10 ^ j % 10 ≠ digitValue d := by
  induction l using reverseRecOn generalizing j with
  | nil =>
    have : digitValue d ≠ 0 := fun h0 => hd0 (digitValue_inj hd (by decide) h0)
    simpa using this.symm
  | append_singleton l c ih =>
    simp only [all_append, Bool.and_eq_true, all_cons, all_nil, and_true] at hl
    have hc := digitValue_lt hl.2
    rw [ofDigitChars_concat]
    cases j with
    | zero =>
      have hne : digitValue c ≠ digitValue d := fun heq => h (by simp [digitValue_inj hl.2 hd heq])
      omega
    | succ j =>
      rw [pow_succ', ← Nat.div_div_eq_div_mul,
        show (10 * Nat.ofDigitChars 10 l 0 + digitValue c) / 10 = Nat.ofDigitChars 10 l 0 by omega]
      exact ih hl.1 (fun hmem => h (mem_append_left _ hmem)) j

/-- A text without a digit spells a number without it. -/
theorem div_pow_mod_ne (hd : d.isDigit) (hd0 : d ≠ '0') (h : d ∉ l) (hn : parseDecimal l = some n)
    (j : ℕ) : n / 10 ^ j % 10 ≠ digitValue d := by
  unfold parseDecimal at hn
  split_ifs at hn with hl
  cases hn
  refine ofDigitChars_div_pow_mod_ne hd hl.2 (fun hmem => h ?_) hd0 j
  unfold unsigned at hmem
  split at hmem
  · exact mem_cons_of_mem _ hmem
  · exact hmem

end Text
