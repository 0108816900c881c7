import Typeahead.Binary64

/-!
# Decimal forms of binary numbers

`Decimal.shortest` finds the fewest decimal digits that read back as a given binary number, and among
those the nearest to it. For one digit after the other it tries the two neighbours of the number on that
decimal grid, in exact arithmetic. A `Layout` says how digits and exponent are then written.
-/

namespace Typeahead

/-- The number `digits * 10 ^ exponent`. -/
structure Decimal where
  digits : Nat
  exponent : Int
  deriving DecidableEq

namespace Decimal

/-- Which neighbour an exact half goes to. -/
inductive Tie where
  | up
  | even
  deriving DecidableEq

/-- A number and the ends of the interval that rounds to it, over a common denominator. -/
structure Window where
  low : Nat
  value : Nat
  high : Nat
  den : Nat
  /-- Whether the ends themselves round to the number. -/
  closed : Bool

/-- The interval that rounds to a positive finite number. Below a power of two the neighbours are closer,
so the lower half of the interval is half as wide. -/
def Window.of (x : Binary64) : Window :=
  let m := x.significand
  let low := if m = Binary64.leadingBit && 1 < x.exponentField then 4 * m - 1 else 4 * m - 2
  let q := x.power - 2
  let scale := Nat.pow 2 q.toNat
  ⟨low * scale, 4 * m * scale, (4 * m + 2) * scale, Nat.pow 2 (-q).toNat, m % 2 == 0⟩

/-- The window seen on the grid of multiples of `10 ^ k`. -/
def Window.onGrid (w : Window) (k : Int) : Window :=
  let up := Nat.pow 10 (-k).toNat
  ⟨w.low * up, w.value * up, w.high * up, w.den * Nat.pow 10 k.toNat, w.closed⟩

def Window.contains (w : Window) (n : Nat) : Bool :=
  if w.closed then w.low ≤ n * w.den && n * w.den ≤ w.high
  else w.low < n * w.den && n * w.den < w.high

/-- The grid point to take: of the two around the value the nearer one that lies in the window. -/
def Window.pick (w : Window) (tie : Tie) : Option Nat :=
  let below := w.value / w.den
  let twice := 2 * (w.value % w.den)
  let upward := w.den < twice || (twice == w.den && (tie == .up || below % 2 == 1))
  match w.contains below, w.contains (below + 1) with
  | true, true => some (if upward then below + 1 else below)
  | true, false => some below
  | false, true => some (below + 1)
  | false, false => none

/-- Refine the grid until it has a point in the window. -/
def search (w : Window) (tie : Tie) : Nat → Int → Decimal
  | 0, k => ⟨(w.onGrid k).value / (w.onGrid k).den, k⟩
  | fuel + 1, k =>
    match (w.onGrid k).pick tie with
    | some digits => ⟨digits, k⟩
    | none => search w tie fuel (k - 1)

/-- The fewest digits that read back as a positive finite number. The search starts on a grid too coarse
for the number and has passed 17 digits before it runs out. -/
def shortest (x : Binary64) (tie : Tie) : Decimal :=
  let bits : Int := x.significand.log2 + 1 + x.power
  search (Window.of x) tie 24 (bits * 1233 / 4096 + 2)

/-- The digits themselves, without zeros at the end. -/
def trimmed (d : Decimal) : Decimal :=
  let chars := Nat.toDigits 10 d.digits
  let zeros := (chars.reverse.takeWhile (· = '0')).length
  if d.digits = 0 then d else ⟨d.digits / Nat.pow 10 zeros, d.exponent + zeros⟩

end Decimal

/-- How the digits of a number are written. -/
structure Layout where
  /-- Least power of ten of the leading digit that is written without an exponent. -/
  leastPositional : Option Int
  /-- Greatest such power. -/
  greatestPositional : Option Int
  /-- Whether a whole number keeps a zero after its point. -/
  pointZero : Bool
  /-- Whether an exponent that is not negative has a plus sign. -/
  plusSign : Bool
  /-- Where an exact half goes. -/
  tie : Decimal.Tie

namespace Layout

/-- Digits with a decimal point after the first `point` of them, filled up with zeros. -/
def positional (layout : Layout) (digits : List Char) (point : Int) : String :=
  if point ≤ 0 then
    "0." ++ String.ofList (List.replicate (-point).toNat '0' ++ digits)
  else
    let whole := point.toNat
    let tail := digits.drop whole
    String.ofList (digits.take whole ++ List.replicate (whole - digits.length) '0') ++
      if tail.isEmpty then (if layout.pointZero then ".0" else "") else "." ++ String.ofList tail

def scientific (layout : Layout) (digits : List Char) (power : Int) : String :=
  let tail := digits.drop 1
  String.ofList (digits.take 1) ++ (if tail.isEmpty then "" else "." ++ String.ofList tail) ++
    "e" ++ (if power < 0 then "-" else if layout.plusSign then "+" else "") ++
    toString power.natAbs

/-- Whether a number whose leading digit stands for `10 ^ power` is written without an exponent. -/
def isPositional (layout : Layout) (power : Int) : Bool :=
  layout.leastPositional.all (· ≤ power) && layout.greatestPositional.all (power ≤ ·)

def magnitude (layout : Layout) (x : Binary64) : String :=
  if x.magnitude = 0 then "0" ++ if layout.pointZero then ".0" else ""
  else
    let d := (Decimal.shortest (Binary64.ofMagnitude false x.magnitude) layout.tie).trimmed
    let digits := Nat.toDigits 10 d.digits
    let point := digits.length + d.exponent
    if layout.isPositional (point - 1) then layout.positional digits point
    else layout.scientific digits (point - 1)

/-- Any number: not-a-number has no sign, all others keep theirs, the zeros included. -/
def render (layout : Layout) (x : Binary64) : String :=
  if x.isNaN then "NaN"
  else (if x.negative then "-" else "") ++
    if x.isInfinite then "inf" else layout.magnitude x

end Layout

/-- A magnitude with a fixed count of places after the point, a half going to the even neighbour. -/
def Binary64.fixed (x : Binary64) (places : Nat) : String :=
  let scaled := Binary64.roundDiv (x.significand * Nat.pow 10 places * Nat.pow 2 x.power.toNat)
    (Nat.pow 2 (-x.power).toNat)
  let digits := Nat.toDigits 10 scaled
  let padded := List.replicate (places + 1 - digits.length) '0' ++ digits
  let whole := padded.length - places
  String.ofList (padded.take whole) ++
    if places = 0 then "" else "." ++ String.ofList (padded.drop whole)

end Typeahead
