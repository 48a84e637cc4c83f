/-!
# Double-precision numbers and their decimals

Measured times and fractions are double-precision numbers. Here such a number is the exact value
`mantissa * 2 ^ exponent`, arithmetic is exact arithmetic followed by rounding to 53 bits, and the
decimal text is the rounding of the exact value. Both roundings go to the nearest and take ties to
the even neighbour. The numbers at hand are far from the ends of the exponent range, so it has no
bounds here.
-/

namespace Flowgraph.Decimal

/-- The quotient of two numbers, rounded to the nearest, ties to even. -/
def roundDiv (n d : Nat) : Nat :=
  let q := n / d
  let r := n % d
  if 2 * r < d then q else if d < 2 * r then q + 1 else q + q % 2

/-- A finite double-precision number: `±mantissa * 2 ^ exponent`. -/
structure Double where
  negative : Bool
  mantissa : Nat
  exponent : Int
deriving DecidableEq

namespace Double

def zero : Double := ⟨false, 0, 0⟩

/-- The fraction `n * 2 ^ s / d` for a shift in either direction. -/
def scaled (n d : Nat) (s : Int) : Nat × Nat :=
  if 0 ≤ s then (n <<< s.toNat, d) else (n, d <<< (-s).toNat)

/-- The number nearest to `±n / d`. The exponent is chosen so that the quotient has 53 bits. -/
def nearest (negative : Bool) (n d : Nat) : Double :=
  if n = 0 then ⟨negative, 0, 0⟩
  else
    let guess : Int := 53 - (Nat.log2 n : Int) + Nat.log2 d
    let at' (s : Int) : Nat := let (n, d) := scaled n d s; n / d
    let shift : Int := if 0x20000000000000 ≤ at' guess then guess - 1 else guess
    let (n, d) := scaled n d shift
    ⟨negative, roundDiv n d, -shift⟩

/-- The number nearest to an integer. -/
def ofInt (n : Int) : Double := nearest (n < 0) n.natAbs 1

/-- The exact value as a fraction without its sign. -/
def fraction (x : Double) : Nat × Nat := scaled x.mantissa 1 x.exponent

/-- The quotient by a positive integer, rounded. -/
def divNat (x : Double) (k : Nat) : Double :=
  let (n, d) := x.fraction
  nearest x.negative n (d * k)

/-- The product, rounded. -/
def mul (x y : Double) : Double :=
  let (a, b) := x.fraction
  let (c, d) := y.fraction
  nearest (x.negative != y.negative) (a * c) (b * d)

/-- The quotient, rounded. The divisor is not zero. -/
def div (x y : Double) : Double :=
  let (a, b) := x.fraction
  let (c, d) := y.fraction
  nearest (x.negative != y.negative) (a * d) (b * c)

/-- The whole part, without the sign. -/
def whole (x : Double) : Nat :=
  let (n, d) := x.fraction
  n / d

/-- The sum, rounded. -/
def add (x y : Double) : Double :=
  let (a, b) := x.fraction
  let (c, d) := y.fraction
  let signed (neg : Bool) (n : Nat) : Int := if neg then -(n : Int) else n
  let sum := signed x.negative (a * d) + signed y.negative (c * b)
  nearest (sum < 0) sum.natAbs (b * d)

/-- The decimal text with a fixed number of places. -/
def fixed (x : Double) (places : Nat) : String :=
  let (n, d) := x.fraction
  let units := roundDiv (n * Nat.pow 10 places) d
  let digits := Nat.toDigits 10 units
  let digits := List.replicate (places + 1 - digits.length) '0' ++ digits
  let whole := digits.take (digits.length - places)
  let rest := digits.drop (digits.length - places)
  (if x.negative then "-" else "") ++ String.ofList whole
    ++ (if places = 0 then "" else "." ++ String.ofList rest)

end Double

end Flowgraph.Decimal
