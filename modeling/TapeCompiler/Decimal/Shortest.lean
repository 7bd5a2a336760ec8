/-!
# Shortest decimals

A double is a number `m * 2 ^ q`. Its shortest decimal is the one with the fewest digits among those
that are nearer to it than to any other double; of several, the nearest, and of two equally near the
one that ends in an even digit. All arithmetic is exact.
-/

namespace TapeCompiler.Decimal

/-- A finite double without its sign: `m * 2 ^ q`. -/
structure Binary where
  m : Nat
  q : Int
  deriving DecidableEq, Repr

namespace Binary

/-- The weight of the leading bit of a double of full precision, which is not stored. -/
def leadingBit : Nat := 0x10000000000000

/-- The number that the bits of a finite double stand for. -/
def ofBits (bits : UInt64) : Binary :=
  let fraction : Nat := bits.toNat % leadingBit
  let exponent : Nat := bits.toNat / leadingBit % 0x800
  if exponent = 0 then ⟨fraction, -1074⟩ else ⟨fraction + leadingBit, (exponent : Int) - 1075⟩

/-- Quarters of the unit in the last place: the number itself, and the ends of the interval of reals
that are rounded to it. Below a power of two the interval is shorter. -/
def quarters (b : Binary) : Nat × Nat × Nat :=
  let below := if b.m = leadingBit ∧ -1074 < b.q then 1 else 2
  (4 * b.m - below, 4 * b.m, 4 * b.m + 2)

/-- The factor and divisor that turn quarters into units of `10 ^ k`. -/
def scale (b : Binary) (k : Int) : Nat × Nat :=
  (Nat.pow 2 (b.q - 2).toNat * Nat.pow 10 (-k).toNat,
    Nat.pow 2 (2 - b.q).toNat * Nat.pow 10 k.toNat)

/-- The exponent of the leading decimal digit of a positive number. -/
def leadingExponent (b : Binary) : Int :=
  let (factor, divisor) := b.scale (-400)
  ((Nat.toDigits 10 (4 * b.m * factor / divisor)).length : Int) - 401

/-- The decimal `d * 10 ^ k` nearest to the number, if one lies in its interval. -/
def decimal? (b : Binary) (k : Int) : Option Nat :=
  let (low, middle, high) := b.quarters
  let (factor, divisor) := b.scale k
  let inside (d : Nat) : Bool :=
    if b.m % 2 = 0 then low * factor ≤ d * divisor && d * divisor ≤ high * factor
    else low * factor < d * divisor && d * divisor < high * factor
  let d := middle * factor / divisor
  let short := middle * factor - d * divisor
  let excess := (d + 1) * divisor - middle * factor
  let lowerFirst := short < excess || (short == excess && d % 2 == 0)
  match inside d, inside (d + 1) with
  | true, true => some (if lowerFirst then d else d + 1)
  | true, false => some d
  | false, true => some (d + 1)
  | false, false => none

/-- The decimal with the fewest digits, tried from `count` digits on. -/
def shortestFrom (b : Binary) (e : Int) : Nat → Nat → Nat × Int
  | 0, count => ((b.decimal? (e - count)).getD 0, e - count)
  | more + 1, count =>
    match b.decimal? (e - count) with
    | some d => (d, e - count)
    | none => shortestFrom b e more (count + 1)

/-- The shortest decimal of a positive number, as its digits without zeros at the end and the
exponent of the first of them. Seventeen digits always suffice. -/
def shortest (b : Binary) : List Char × Int :=
  let (d, k) := b.shortestFrom b.leadingExponent 16 0
  let digits := Nat.toDigits 10 d
  ((digits.reverse.dropWhile (· == '0')).reverse, k + digits.length - 1)

end Binary

end TapeCompiler.Decimal
