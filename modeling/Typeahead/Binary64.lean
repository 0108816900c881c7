/-!
# Binary floating-point numbers

A score is a binary64 number, kept as its 64-bit word: sign, eleven exponent bits, 52 fraction bits. A
finite word stands for `significand * 2 ^ power`. Products and conversions are computed exactly in `Nat`
and rounded once, to the nearest word, a half going to the even neighbour.

| here | there |
| --- | --- |
| `inUnit` | the tests of a score in `explicit_score` and `validate` |
| `mul` | the product of scores in `merge_step` |
| `rank` | the order in which `rank` sorts |
| `one`, `half`, `quarter` | `SCORE_PREFIX`, `SCORE_CONTIGUOUS`, `SCORE_SCATTERED` |
-/

namespace Typeahead

/-- A binary64 number as its word. -/
structure Binary64 where
  bits : UInt64
  deriving DecidableEq

namespace Binary64

/-- The sign bit, the 64th one. -/
def signBit : Nat := 0x8000000000000000

/-- The bit above the fraction, the 53rd one. -/
def leadingBit : Nat := 0x10000000000000

/-- The word of an infinity, its sign aside. -/
def infinityWord : Nat := 0x7ff0000000000000

def negative (x : Binary64) : Bool := decide (signBit ≤ x.bits.toNat)

/-- The word without its sign bit. -/
def magnitude (x : Binary64) : Nat := x.bits.toNat % signBit

def exponentField (x : Binary64) : Nat := x.magnitude / leadingBit

def fraction (x : Binary64) : Nat := x.magnitude % leadingBit

def isNaN (x : Binary64) : Bool := decide (infinityWord < x.magnitude)

def isInfinite (x : Binary64) : Bool := x.magnitude == infinityWord

/-- The integer part of a finite number's binary scientific form. -/
def significand (x : Binary64) : Nat :=
  if x.exponentField = 0 then x.fraction else leadingBit + x.fraction

/-- The power of two that goes with the significand. -/
def power (x : Binary64) : Int := (max x.exponentField 1 : Nat) - 1075

/-- Put a sign on a magnitude. -/
def ofMagnitude (negative : Bool) (magnitude : Nat) : Binary64 :=
  ⟨UInt64.ofNat (magnitude + if negative then signBit else 0)⟩

def one : Binary64 := ⟨0x3ff0000000000000⟩

def half : Binary64 := ⟨0x3fe0000000000000⟩

def quarter : Binary64 := ⟨0x3fd0000000000000⟩

/-- The result of an operation that has none. -/
def nan : Binary64 := ⟨0x7ff8000000000000⟩

/-- Quotient rounded to the nearest integer, a half to the even one. -/
def roundDiv (num den : Nat) : Nat :=
  let quotient := num / den
  let twice := 2 * (num % den)
  if den < twice || (twice == den && quotient % 2 == 1) then quotient + 1 else quotient

/-- The number nearest to `m * 2 ^ q`, infinite when it is out of range. The last place kept is the
52nd below the leading bit, but never below `2 ^ (-1074)`. -/
def ofScaled (negative : Bool) (m : Nat) (q : Int) : Binary64 :=
  if m = 0 then ofMagnitude negative 0
  else
    let place := max (q + m.log2 - 52) (-1074)
    let kept :=
      if place ≤ q then m * Nat.pow 2 (q - place).toNat else roundDiv m (Nat.pow 2 (place - q).toNat)
    ofMagnitude negative (min (kept + (place + 1074).toNat * leadingBit) infinityWord)

/-- The number nearest to `digits * 10 ^ exponent`. A quotient is taken to enough bits to round
correctly, with one more bit that says whether anything was cut off. -/
def ofDecimal (negative : Bool) (digits : Nat) (exponent : Int) : Binary64 :=
  if 0 ≤ exponent then ofScaled negative (digits * Nat.pow 10 exponent.toNat) 0
  else
    let den : Nat := Nat.pow 10 (-exponent).toNat
    let shift : Nat := den.log2 + 66
    let num : Nat := digits * Nat.pow 2 shift
    ofScaled negative (2 * (num / den) + if num % den = 0 then 0 else 1) (-(shift : Int) - 1)

/-- The product of two numbers, rounded once. -/
def mul (x y : Binary64) : Binary64 :=
  let negative := x.negative != y.negative
  if x.isNaN || y.isNaN then nan
  else if x.isInfinite || y.isInfinite then
    if x.magnitude = 0 || y.magnitude = 0 then nan else ofMagnitude negative infinityWord
  else ofScaled negative (x.significand * y.significand) (x.power + y.power)

/-- Above zero and at most one. The words of positive numbers are ordered as the numbers are, and all
other words lie above the word of one. -/
def inUnit (x : Binary64) : Bool :=
  decide (0 < x.bits.toNat) && decide (x.bits.toNat ≤ one.bits.toNat)

/-- Place in the total order of all words: negative ones before positive ones, each by magnitude. -/
def rank (x : Binary64) : Int :=
  if x.negative then -(x.magnitude : Int) - 1 else x.magnitude

/-- Equal as numbers: the two zeros are one number, and not-a-number equals nothing. -/
def sameNumber (x y : Binary64) : Bool :=
  !x.isNaN && (x == y || (x.magnitude == 0 && y.magnitude == 0))

/-- One is neutral for the scores a reading can have. -/
theorem one_mul_tiers :
    mul one one = one ∧ mul one half = half ∧ mul one quarter = quarter := by
  decide +kernel

theorem mul_one_tiers : mul half one = half ∧ mul quarter one = quarter := by
  decide +kernel

end Binary64

end Typeahead
