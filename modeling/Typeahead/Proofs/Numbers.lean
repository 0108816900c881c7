import Mathlib.Algebra.Order.Field.Power
import Mathlib.Data.Rat.Cast.Order
import Typeahead.Proofs.Binary64

/-!
# Words as numbers

A finite word stands for a number, and without its sign it is the larger the larger the number is (`steps_lt`).
The words that stand for infinities, for no number, and for the two zeros have their places in one order of all
words, which is the total order that is laid down for binary64 (`NotAbove`). The key by which words are compared
follows that order (`notAbove_iff`), and no two words have the same key (`rank_injective`).
-/

namespace Typeahead

namespace Binary64

/-- The number a word stands for, if it stands for one. -/
def value? (x : Binary64) : Option ℚ :=
  if x.isNaN || x.isInfinite then none
  else some ((if x.negative then -1 else 1) * (x.significand * 2 ^ x.power))

variable {x y : Binary64}

theorem value?_eq_some {value : ℚ} (h : x.value? = some value) :
    x.isNaN = false ∧ x.isInfinite = false ∧
      value = (if x.negative then -1 else 1) * (x.significand * 2 ^ x.power) := by
  unfold value? at h
  split at h
  · cases h
  · next hfinite =>
    rw [Bool.or_eq_true, not_or, Bool.not_eq_true, Bool.not_eq_true] at hfinite
    exact ⟨hfinite.1, hfinite.2, (Option.some.inj h).symm⟩

/-! ## Order of values -/

/-- The size of a finite number, in steps of the least positive one `2 ^ (-1074)`. -/
def steps (x : Binary64) : Nat := x.significand * 2 ^ (max x.exponentField 1 - 1)

/-- A finite number, in the same steps. -/
def signedSteps (x : Binary64) : Int := if x.negative then -x.steps else x.steps

theorem magnitude_eq (x : Binary64) : leadingBit * x.exponentField + x.fraction = x.magnitude :=
  Nat.div_add_mod _ _

theorem fraction_lt (x : Binary64) : x.fraction < leadingBit := Nat.mod_lt _ (by decide)

/-- All numbers of a binade lie below the next one. -/
theorem steps_lt_binade (x : Binary64) : x.steps < leadingBit * 2 ^ x.exponentField := by
  have hfraction := x.fraction_lt
  unfold steps significand
  by_cases hfield : x.exponentField = 0
  · simpa [hfield] using hfraction
  · obtain ⟨k, hk⟩ := Nat.exists_eq_succ_of_ne_zero hfield
    rw [if_neg hfield, hk, Nat.max_eq_left (Nat.succ_pos k), Nat.succ_eq_add_one, Nat.add_sub_cancel, Nat.pow_succ]
    calc (leadingBit + x.fraction) * 2 ^ k
        < (leadingBit * 2) * 2 ^ k := Nat.mul_lt_mul_of_pos_right (by omega) (Nat.two_pow_pos k)
      _ = leadingBit * (2 ^ k * 2) := by rw [Nat.mul_assoc, Nat.mul_comm 2]

/-- **A larger word without its sign is a larger number.** -/
theorem steps_lt (h : x.magnitude < y.magnitude) : x.steps < y.steps := by
  have hx := x.magnitude_eq
  have hy := y.magnitude_eq
  have hxfraction := x.fraction_lt
  have hyfraction := y.fraction_lt
  have hfield : x.exponentField ≤ y.exponentField := Nat.div_le_div_right h.le
  rcases Nat.lt_or_eq_of_le hfield with hlt | heq
  · calc x.steps
        < leadingBit * 2 ^ x.exponentField := x.steps_lt_binade
      _ ≤ leadingBit * 2 ^ (max y.exponentField 1 - 1) :=
        Nat.mul_le_mul_left _ (Nat.pow_le_pow_right Nat.two_pos (by omega))
      _ ≤ y.steps := by
        unfold steps significand
        rw [if_neg (by omega)]
        exact Nat.mul_le_mul_right _ (Nat.le_add_right _ _)
  · have hfraction : x.fraction < y.fraction := by
      rw [heq] at hx
      omega
    have hsignificand : x.significand < y.significand := by
      unfold significand
      rw [heq]
      split <;> omega
    unfold steps
    rw [heq]
    exact Nat.mul_lt_mul_of_pos_right hsignificand (Nat.two_pow_pos _)

theorem steps_lt_iff : x.steps < y.steps ↔ x.magnitude < y.magnitude := by
  refine ⟨fun h => Nat.lt_of_not_le fun hle => ?_, steps_lt⟩
  rcases Nat.lt_or_eq_of_le hle with hlt | heq
  · exact absurd (steps_lt hlt) (Nat.lt_asymm h)
  · simp [steps, significand, exponentField, fraction, heq] at h

def leastPositive : ℚ := 2 ^ (-1074 : ℤ)

theorem leastPositive_pos : 0 < leastPositive := zpow_pos two_pos _

theorem significand_mul_power (x : Binary64) : (x.significand * 2 ^ x.power : ℚ) = x.steps * leastPositive := by
  have hpower : x.power = ((max x.exponentField 1 - 1 : Nat) : ℤ) + -1074 := by
    rw [power]
    omega
  rw [hpower, zpow_add₀ two_ne_zero, zpow_natCast, ← mul_assoc, steps, Nat.cast_mul, Nat.cast_pow, Nat.cast_ofNat,
    leastPositive]

/-- A word's value is a whole count of steps. -/
theorem value_eq_steps {v : ℚ} (h : x.value? = some v) : v = x.signedSteps * leastPositive := by
  obtain ⟨-, -, rfl⟩ := value?_eq_some h
  rw [significand_mul_power, signedSteps]
  split
  · rw [Int.cast_neg, Int.cast_natCast, neg_mul, neg_mul, one_mul]
  · rw [Int.cast_natCast, one_mul]

theorem value_lt_iff {v w : ℚ} (hx : x.value? = some v) (hy : y.value? = some w) :
    v < w ↔ x.signedSteps < y.signedSteps := by
  rw [value_eq_steps hx, value_eq_steps hy, mul_lt_mul_iff_left₀ leastPositive_pos, Int.cast_lt]

/-! ## The total order of words -/

/-- One word does not stand above another in the total order of all words. -/
inductive NotAbove (x y : Binary64) : Prop
  /-- Numbers stand in the order of their values. -/
  | less {v w : ℚ} : x.value? = some v → y.value? = some w → v < w → NotAbove x y
  /-- Of the two zeros the negative one stands first; any other number has one word. -/
  | same {v : ℚ} : x.value? = some v → y.value? = some v → (y.negative = true → x.negative = true) → NotAbove x y
  /-- The negative infinity stands below all numbers. -/
  | lowest : x.isInfinite = true → x.negative = true → y.isNaN = false → NotAbove x y
  /-- The positive infinity stands above all numbers. -/
  | highest : x.isNaN = false → y.isInfinite = true → y.negative = false → NotAbove x y
  /-- What stands for no number and has a sign is below everything else, the largest payload first. -/
  | first : x.isNaN = true → x.negative = true →
      (y.isNaN = true → y.negative = true → y.magnitude ≤ x.magnitude) → NotAbove x y
  /-- What stands for no number and has no sign is above everything else, the largest payload last. -/
  | last : y.isNaN = true → y.negative = false →
      (x.isNaN = true → x.negative = false → x.magnitude ≤ y.magnitude) → NotAbove x y

theorem rank_of_negative (h : x.negative = true) : x.rank = -x.magnitude - 1 := if_pos h

theorem rank_of_not_negative (h : x.negative = false) : x.rank = x.magnitude := by
  rw [rank, h, if_neg Bool.false_ne_true]

theorem rank_lt_zero_iff : x.rank < 0 ↔ x.negative = true := by
  cases hsign : x.negative with
  | true => simp only [rank_of_negative hsign, iff_true]; omega
  | false => simp only [rank_of_not_negative hsign, Bool.false_eq_true, iff_false]; omega

theorem toNat_bits (x : Binary64) : x.bits.toNat = x.magnitude + if x.negative then signBit else 0 := by
  have hlt := x.bits.toNat_lt
  unfold magnitude negative
  by_cases hsign : signBit ≤ x.bits.toNat
  · rw [decide_eq_true hsign, if_pos rfl]
    simp only [signBit] at hsign ⊢
    omega
  · rw [decide_eq_false hsign, if_neg Bool.false_ne_true, Nat.mod_eq_of_lt (Nat.lt_of_not_le hsign), Nat.add_zero]

/-- **No two words have the same place in the order.** -/
theorem rank_injective : Function.Injective rank := by
  intro x y h
  have hsign : x.negative = y.negative := by
    rw [Bool.eq_iff_iff, ← rank_lt_zero_iff, ← rank_lt_zero_iff, h]
  have hmagnitude : x.magnitude = y.magnitude := by
    rw [rank, rank, hsign] at h
    split at h <;> omega
  have hbits : x.bits.toNat = y.bits.toNat := by
    rw [x.toNat_bits, y.toNat_bits, hmagnitude, hsign]
  cases x
  cases y
  exact congrArg mk (UInt64.toNat_inj.1 hbits)

theorem isNaN_iff : x.isNaN = true ↔ infinityWord < x.magnitude := decide_eq_true_iff

theorem isNaN_eq_false_iff : x.isNaN = false ↔ x.magnitude ≤ infinityWord := by
  rw [isNaN, decide_eq_false_iff_not, Nat.not_lt]

theorem isInfinite_iff : x.isInfinite = true ↔ x.magnitude = infinityWord := beq_iff_eq

/-- A smaller number stands before. -/
theorem rank_lt_of_value_lt {v w : ℚ} (hx : x.value? = some v) (hy : y.value? = some w) (h : v < w) :
    x.rank < y.rank := by
  have hsteps := (value_lt_iff hx hy).1 h
  have hgrow : y.steps < x.steps ↔ y.magnitude < x.magnitude := steps_lt_iff
  have hgrow' : x.steps < y.steps ↔ x.magnitude < y.magnitude := steps_lt_iff
  unfold signedSteps at hsteps
  unfold rank
  cases hxsign : x.negative <;> cases hysign : y.negative <;>
    simp only [hxsign, hysign, if_true, if_false, Bool.false_eq_true] at hsteps ⊢ <;> omega

/-- Words of the same number are the same, or the two zeros. -/
theorem rank_le_of_value_eq {v : ℚ} (hx : x.value? = some v) (hy : y.value? = some v)
    (hsign : y.negative = true → x.negative = true) : x.rank ≤ y.rank := by
  have hle : ¬y.signedSteps < x.signedSteps := by
    rw [← value_lt_iff hy hx]
    exact lt_irrefl v
  have hgrow : y.steps < x.steps ↔ y.magnitude < x.magnitude := steps_lt_iff
  have hgrow' : x.steps < y.steps ↔ x.magnitude < y.magnitude := steps_lt_iff
  unfold signedSteps at hle
  unfold rank
  cases hysign : y.negative with
  | true =>
    simp only [hysign, hsign hysign, if_true] at hle ⊢
    omega
  | false =>
    cases hxsign : x.negative <;>
      simp only [hxsign, hysign, if_true, if_false, Bool.false_eq_true] at hle ⊢ <;> omega

theorem NotAbove.rank_le (h : x.NotAbove y) : x.rank ≤ y.rank := by
  cases h with
  | less hx hy hlt => exact (rank_lt_of_value_lt hx hy hlt).le
  | same hx hy hsign => exact rank_le_of_value_eq hx hy hsign
  | lowest hinf hsign hnan =>
    rw [isInfinite_iff] at hinf
    rw [isNaN_eq_false_iff] at hnan
    rw [rank_of_negative hsign, rank]
    split <;> omega
  | highest hnan hinf hsign =>
    rw [isNaN_eq_false_iff] at hnan
    rw [isInfinite_iff] at hinf
    rw [rank_of_not_negative hsign, rank]
    split <;> omega
  | first hnan hsign hle =>
    rw [isNaN_iff] at hnan hle
    rw [rank_of_negative hsign, rank]
    split
    · next hysign =>
      have hpayload : y.magnitude ≤ x.magnitude := by
        by_cases hy : infinityWord < y.magnitude
        · exact hle hy hysign
        · omega
      omega
    · omega
  | last hnan hsign hle =>
    rw [isNaN_iff] at hnan hle
    rw [rank_of_not_negative hsign, rank]
    split
    · omega
    · next hxsign =>
      have hpayload : x.magnitude ≤ y.magnitude := by
        by_cases hx : infinityWord < x.magnitude
        · exact hle hx (Bool.eq_false_of_not_eq_true hxsign)
        · omega
      omega

theorem value?_eq_none_iff : x.value? = none ↔ infinityWord ≤ x.magnitude := by
  rw [value?, ite_eq_left_iff, Bool.or_eq_true, isNaN_iff, isInfinite_iff]
  simp only [reduceCtorEq, imp_false, not_not]
  omega

/-- What is infinite or no number and has a sign stands at the bottom. -/
theorem notAbove_of_bottom (hsign : x.negative = true) (hbottom : infinityWord ≤ x.magnitude) (h : x.rank ≤ y.rank) :
    x.NotAbove y := by
  rw [rank_of_negative hsign] at h
  by_cases hxnan : x.isNaN = true
  · refine .first hxnan hsign fun _ hysign => ?_
    rw [rank_of_negative hysign] at h
    omega
  · rw [isNaN_iff] at hxnan
    by_cases hynan : y.isNaN = true
    · refine .last hynan ?_ fun hnan => absurd (isNaN_iff.1 hnan) hxnan
      by_contra hysign
      rw [isNaN_iff] at hynan
      rw [rank_of_negative (Bool.eq_true_of_not_eq_false hysign)] at h
      omega
    · exact .lowest (isInfinite_iff.2 (by omega)) hsign (Bool.eq_false_of_not_eq_true hynan)

/-- What is infinite or no number and has no sign stands at the top. -/
theorem notAbove_of_top (hsign : y.negative = false) (htop : infinityWord ≤ y.magnitude) (h : x.rank ≤ y.rank) :
    x.NotAbove y := by
  rw [rank_of_not_negative hsign] at h
  by_cases hynan : y.isNaN = true
  · refine .last hynan hsign fun _ hxsign => ?_
    rw [rank_of_not_negative hxsign] at h
    omega
  · rw [isNaN_iff] at hynan
    by_cases hxnan : x.isNaN = true
    · refine .first hxnan ?_ fun hnan => absurd (isNaN_iff.1 hnan) hynan
      by_contra hxsign
      rw [isNaN_iff] at hxnan
      rw [rank_of_not_negative (Bool.eq_false_of_not_eq_true hxsign)] at h
      omega
    · exact .highest (Bool.eq_false_of_not_eq_true hxnan) (isInfinite_iff.2 (by omega)) hsign

/-- **A word's place in the order** is the one that the total order of words gives it. -/
theorem notAbove_iff : x.NotAbove y ↔ x.rank ≤ y.rank := by
  refine ⟨NotAbove.rank_le, fun h => ?_⟩
  cases hx : x.value? with
  | none =>
    have hmagnitude := value?_eq_none_iff.1 hx
    cases hsign : x.negative with
    | true => exact notAbove_of_bottom hsign hmagnitude h
    | false =>
      -- the other word stands at least as high, so it has no sign either
      rw [rank_of_not_negative hsign] at h
      have hysign : y.negative = false := by
        by_contra hneg
        have hlow := rank_lt_zero_iff.2 (Bool.eq_true_of_not_eq_false hneg)
        omega
      refine notAbove_of_top hysign ?_ ?_
      · rw [rank_of_not_negative hysign] at h
        omega
      · rwa [rank_of_not_negative hsign]
  | some v =>
    cases hy : y.value? with
    | none =>
      have hmagnitude := value?_eq_none_iff.1 hy
      cases hsign : y.negative with
      | false => exact notAbove_of_top hsign hmagnitude h
      | true =>
        have hxsign : x.negative = true := rank_lt_zero_iff.1 (h.trans_lt (rank_lt_zero_iff.2 hsign))
        refine notAbove_of_bottom hxsign ?_ h
        rw [rank_of_negative hsign, rank_of_negative hxsign] at h
        omega
    | some w =>
      rcases lt_trichotomy v w with hlt | rfl | hgt
      · exact .less hx hy hlt
      · refine .same hx hy fun hsign => ?_
        rw [← rank_lt_zero_iff] at hsign ⊢
        exact h.trans_lt hsign
      · exact absurd (rank_lt_of_value_lt hy hx hgt) h.not_gt

end Binary64

end Typeahead
