import Mathlib.Algebra.Group.Nat.Defs
import Mathlib.Data.Nat.Log
import Typeahead.Binary64

/-!
# Products of numbers between zero and one

Rounding to the nearest never passes a number that has a word of its own, so a product of numbers up to one is
at most one (`mul_le_one`), and it is at least any power of two that the exact product reaches, down to the
least positive number `2 ^ (-1074)` (`mul_inUnit`). Below that it may be zero.
-/

namespace Typeahead

namespace Binary64

/-! ## Rounding -/

section

variable {num den bound : Nat}

theorem roundDiv_le (hden : 0 < den) (h : num ≤ bound * den) : roundDiv num den ≤ bound := by
  have hdiv : num / den ≤ bound := Nat.div_le_of_le_mul (by rwa [Nat.mul_comm])
  by_cases hexact : num / den = bound
  · -- nothing is cut off, since a quotient that large leaves no room for a remainder
    have hsum := Nat.div_add_mod num den
    rw [hexact, Nat.mul_comm] at hsum
    have hmod : num % den = 0 := by omega
    simp [roundDiv, hmod, hexact, hden.ne]
  · unfold roundDiv
    simp only
    split <;> omega

theorem le_roundDiv (hden : 0 < den) (h : bound * den ≤ num) : bound ≤ roundDiv num den := by
  have hdiv : bound ≤ num / den := (Nat.le_div_iff_mul_le hden).2 h
  unfold roundDiv
  simp only
  split <;> omega

end

/-- What is kept of `m * 2 ^ q` when it is rounded to a multiple of `2 ^ place`. -/
def keptAt (m : Nat) (q place : Int) : Nat :=
  if place ≤ q then m * 2 ^ (q - place).toNat else roundDiv m (2 ^ (place - q).toNat)

/-- The word that a number is rounded to, by what is kept of it and the place of the last bit kept. -/
def wordAt (m : Nat) (q : Int) : Nat :=
  let place := max (q + m.log2 - 52) (-1074)
  keptAt m q place + (place + 1074).toNat * leadingBit

section

variable {m j t : Nat} {q place : Int}

theorem keptAt_le (hm : m ≤ 2 ^ j) (ht : j + q - place ≤ t) : keptAt m q place ≤ 2 ^ t := by
  unfold keptAt
  split
  · calc m * 2 ^ (q - place).toNat
        ≤ 2 ^ j * 2 ^ (q - place).toNat := Nat.mul_le_mul_right _ hm
      _ = 2 ^ (j + (q - place).toNat) := (Nat.pow_add _ _ _).symm
      _ ≤ 2 ^ t := Nat.pow_le_pow_right Nat.two_pos (by omega)
  · refine roundDiv_le (Nat.two_pow_pos _) ?_
    calc m ≤ 2 ^ j := hm
      _ ≤ 2 ^ (t + (place - q).toNat) := Nat.pow_le_pow_right Nat.two_pos (by omega)
      _ = 2 ^ t * 2 ^ (place - q).toNat := Nat.pow_add _ _ _

theorem le_keptAt (hm : 2 ^ j ≤ m) (ht : t ≤ j + q - place) : 2 ^ t ≤ keptAt m q place := by
  unfold keptAt
  split
  · calc 2 ^ t ≤ 2 ^ (j + (q - place).toNat) := Nat.pow_le_pow_right Nat.two_pos (by omega)
      _ = 2 ^ j * 2 ^ (q - place).toNat := Nat.pow_add _ _ _
      _ ≤ m * 2 ^ (q - place).toNat := Nat.mul_le_mul_right _ hm
  · refine le_roundDiv (Nat.two_pow_pos _) ?_
    calc 2 ^ t * 2 ^ (place - q).toNat
        = 2 ^ (t + (place - q).toNat) := (Nat.pow_add _ _ _).symm
      _ ≤ 2 ^ j := Nat.pow_le_pow_right Nat.two_pos (by omega)
      _ ≤ m := hm

end

theorem ofScaled_eq {m : Nat} (hm : m ≠ 0) (q : Int) :
    ofScaled false m q = ofMagnitude false (min (wordAt m q) infinityWord) := by
  rw [ofScaled, if_neg hm]
  rfl

theorem toNat_ofMagnitude {w : Nat} (hw : w ≤ infinityWord) : (ofMagnitude false w).bits.toNat = w :=
  UInt64.toNat_ofNat_of_lt (Nat.lt_of_le_of_lt hw (by decide))

/-! ## At most one -/

theorem toNat_one : one.bits.toNat = 1023 * leadingBit := by decide

section

variable {x y : Binary64}

theorem fields_of_le_one (hx : x.bits.toNat ≤ one.bits.toNat) :
    x.exponentField * leadingBit + x.fraction = x.bits.toNat ∧ x.fraction < leadingBit := by
  have hmagnitude : x.magnitude = x.bits.toNat := Nat.mod_eq_of_lt (Nat.lt_of_le_of_lt hx (by decide))
  rw [← hmagnitude, exponentField, fraction, Nat.mul_comm]
  exact ⟨Nat.div_add_mod _ _, Nat.mod_lt _ (by decide)⟩

/-- A number up to one is `m * 2 ^ (-k)` with `m` up to `2 ^ k`. -/
theorem significand_le (hx : x.bits.toNat ≤ one.bits.toNat) :
    ∃ k : Nat, x.power = -k ∧ x.significand ≤ 2 ^ k := by
  obtain ⟨hword, hfraction⟩ := fields_of_le_one hx
  rw [toNat_one] at hx
  refine ⟨1075 - max x.exponentField 1, ?_, ?_⟩
  · simp only [power, leadingBit] at *
    omega
  · by_cases htop : x.exponentField = 1023
    · have hzero : x.fraction = 0 := by
        rw [htop] at hword
        omega
      rw [significand, if_neg (by omega), hzero, htop]
      decide
    · have hsmall : x.significand < 2 ^ 53 := by
        simp only [significand, leadingBit] at *
        split <;> omega
      refine hsmall.le.trans (Nat.pow_le_pow_right Nat.two_pos ?_)
      simp only [leadingBit] at *
      omega

theorem wordAt_le_one {m k : Nat} (hm : m ≠ 0) (h : m ≤ 2 ^ k) : wordAt m (-k) ≤ one.bits.toNat := by
  have hlow := Nat.log2_self_le hm
  have hhigh : m ≤ 2 ^ (m.log2 + 1) := Nat.lt_log2_self.le
  have hlog : m.log2 ≤ k := (Nat.pow_le_pow_iff_right Nat.one_lt_two).1 (hlow.trans h)
  rw [toNat_one, wordAt]
  generalize hplace : max (-(k : Int) + m.log2 - 52) (-1074) = place
  rcases Nat.lt_or_eq_of_le hlog with hlt | heq
  · have hkept : keptAt m (-k) place ≤ 2 ^ 53 := keptAt_le hhigh (by omega)
    simp only [leadingBit] at *
    omega
  · -- the only number from this binade is one itself
    have hkept : keptAt m (-k) place ≤ 2 ^ 52 := keptAt_le h (by omega)
    simp only [leadingBit] at *
    omega

/-- A word up to that of one stands for a number, and one without a sign. -/
theorem finite_of_le_one (hx : x.bits.toNat ≤ one.bits.toNat) :
    x.negative = false ∧ x.isNaN = false ∧ x.isInfinite = false := by
  have hsmall : x.bits.toNat < infinityWord := Nat.lt_of_le_of_lt hx (by decide)
  have hmagnitude : x.magnitude = x.bits.toNat := Nat.mod_eq_of_lt (hsmall.trans (by decide))
  have hsign : infinityWord < signBit := by decide
  refine ⟨?_, ?_, ?_⟩
  · exact decide_eq_false (by omega)
  · exact decide_eq_false (by omega)
  · rw [isInfinite, hmagnitude]
    exact beq_false_of_ne hsmall.ne

theorem mul_eq_ofScaled (hx : x.bits.toNat ≤ one.bits.toNat) (hy : y.bits.toNat ≤ one.bits.toNat) :
    x.mul y = ofScaled false (x.significand * y.significand) (x.power + y.power) := by
  obtain ⟨hxsign, hxnan, hxinf⟩ := finite_of_le_one hx
  obtain ⟨hysign, hynan, hyinf⟩ := finite_of_le_one hy
  simp [mul, hxsign, hysign, hxnan, hynan, hxinf, hyinf]

theorem wordAt_product_le_one (hx : x.bits.toNat ≤ one.bits.toNat) (hy : y.bits.toNat ≤ one.bits.toNat)
    (hne : x.significand * y.significand ≠ 0) :
    wordAt (x.significand * y.significand) (x.power + y.power) ≤ one.bits.toNat := by
  obtain ⟨k, hxpower, hxle⟩ := significand_le hx
  obtain ⟨l, hypower, hyle⟩ := significand_le hy
  have hsum : x.power + y.power = -((k + l : Nat) : Int) := by omega
  have hprod : x.significand * y.significand ≤ 2 ^ (k + l) := by
    rw [Nat.pow_add]
    exact Nat.mul_le_mul hxle hyle
  rw [hsum]
  exact wordAt_le_one hne hprod

theorem toNat_mul (hx : x.bits.toNat ≤ one.bits.toNat) (hy : y.bits.toNat ≤ one.bits.toNat)
    (hne : x.significand * y.significand ≠ 0) :
    (x.mul y).bits.toNat = wordAt (x.significand * y.significand) (x.power + y.power) := by
  have hle : wordAt (x.significand * y.significand) (x.power + y.power) ≤ infinityWord :=
    (wordAt_product_le_one hx hy hne).trans (by decide)
  rw [mul_eq_ofScaled hx hy, ofScaled_eq hne, Nat.min_eq_left hle, toNat_ofMagnitude hle]

/-- **A product of numbers up to one is at most one.** -/
theorem mul_le_one (hx : x.bits.toNat ≤ one.bits.toNat) (hy : y.bits.toNat ≤ one.bits.toNat) :
    (x.mul y).bits.toNat ≤ one.bits.toNat := by
  by_cases hzero : x.significand * y.significand = 0
  · rw [mul_eq_ofScaled hx hy, ofScaled, if_pos hzero]
    decide
  · rw [toNat_mul hx hy hzero]
    exact wordAt_product_le_one hx hy hzero

end

/-! ## Above zero -/

/-- How often one is halved before it is no more than a positive number. -/
def halvings (x : Binary64) : Nat := (-(x.significand.log2 + x.power)).toNat

/-- The word of `2 ^ (-k)`. -/
def powerWord (k : Nat) : Nat := if k ≤ 1022 then (1023 - k) * leadingBit else 2 ^ (1074 - k)

theorem powerWord_pos (k : Nat) : 0 < powerWord k := by
  unfold powerWord
  split
  · exact Nat.mul_pos (by omega) (by decide)
  · exact Nat.two_pow_pos _

/-- Rounding does not go below a power of two. -/
theorem powerWord_le_wordAt {m j k : Nat} {q : Int} (hm : 2 ^ j ≤ m) (hk : k ≤ 1074) (h : -k ≤ j + q) :
    powerWord k ≤ wordAt m q := by
  have hne : m ≠ 0 := by
    have hpos := Nat.two_pow_pos j
    omega
  have hlow := Nat.log2_self_le hne
  have hlog : j ≤ m.log2 := (Nat.le_log2 hne).2 hm
  rw [wordAt]
  by_cases hplace : -1074 ≤ q + m.log2 - 52
  · -- all 53 bits are kept
    rw [max_eq_left hplace]
    have hkept : 2 ^ 52 ≤ keptAt m q (q + m.log2 - 52) := le_keptAt hlow (by omega)
    unfold powerWord
    split
    · simp only [leadingBit]
      omega
    · have hsmall : 2 ^ (1074 - k) ≤ 2 ^ 52 := Nat.pow_le_pow_right Nat.two_pos (by omega)
      omega
  · rw [max_eq_right (by omega), powerWord, if_neg (by omega)]
    exact (le_keptAt hlow (by omega)).trans (Nat.le_add_right _ _)

/-- A number with a word from that of `2 ^ (-k)` on takes at most `k` halvings. -/
theorem halvings_le {x : Binary64} {k : Nat} (hx : x.bits.toNat ≤ one.bits.toNat) (hk : k ≤ 1074)
    (h : powerWord k ≤ x.bits.toNat) : x.halvings ≤ k := by
  obtain ⟨hword, hfraction⟩ := fields_of_le_one hx
  by_cases hfield : x.exponentField = 0
  · have hlarge : ¬k ≤ 1022 := by
      intro hsmall
      rw [powerWord, if_pos hsmall] at h
      simp only [leadingBit] at *
      omega
    rw [powerWord, if_neg hlarge] at h
    have hsignificand : x.significand = x.bits.toNat := by
      rw [significand, if_pos hfield, ← hword, hfield]
      omega
    have hlog : 1074 - k ≤ x.significand.log2 := by
      rw [hsignificand]
      exact (Nat.le_log2 (by have := Nat.two_pow_pos (1074 - k); omega)).2 h
    rw [halvings, power, hfield]
    omega
  · have hlog : 52 ≤ x.significand.log2 := by
      rw [significand, if_neg hfield]
      exact (Nat.le_log2 (by simp [leadingBit])).2 (Nat.le_add_right _ _)
    rw [halvings, power]
    unfold powerWord at h
    split at h <;> simp only [leadingBit] at * <;> omega

section

variable {x y : Binary64}

theorem inUnit_iff : x.inUnit = true ↔ 0 < x.bits.toNat ∧ x.bits.toNat ≤ one.bits.toNat := by
  simp [inUnit]

theorem significand_ne_zero (hx : x.inUnit = true) : x.significand ≠ 0 := by
  obtain ⟨hpos, hle⟩ := inUnit_iff.1 hx
  obtain ⟨hword, -⟩ := fields_of_le_one hle
  unfold significand
  split
  · next hfield =>
    rw [hfield] at hword
    omega
  · simp [leadingBit]

/-- **A product stays above zero** as long as its factors take no more than 1074 halvings together, and it
takes no more halvings than they do. -/
theorem mul_inUnit (hx : x.inUnit = true) (hy : y.inUnit = true) (h : x.halvings + y.halvings ≤ 1074) :
    (x.mul y).inUnit = true ∧ (x.mul y).halvings ≤ x.halvings + y.halvings := by
  have hxle := (inUnit_iff.1 hx).2
  have hyle := (inUnit_iff.1 hy).2
  have hmulle := mul_le_one hxle hyle
  have hfloor : 2 ^ (x.significand.log2 + y.significand.log2) ≤ x.significand * y.significand := by
    rw [Nat.pow_add]
    exact Nat.mul_le_mul (Nat.log2_self_le (significand_ne_zero hx)) (Nat.log2_self_le (significand_ne_zero hy))
  have hword : powerWord (x.halvings + y.halvings) ≤ (x.mul y).bits.toNat := by
    rw [toNat_mul hxle hyle (Nat.mul_ne_zero (significand_ne_zero hx) (significand_ne_zero hy))]
    refine powerWord_le_wordAt hfloor h ?_
    simp only [halvings]
    omega
  exact ⟨inUnit_iff.2 ⟨(powerWord_pos _).trans_le hword, hmulle⟩, halvings_le hmulle h hword⟩

end

end Binary64

end Typeahead
