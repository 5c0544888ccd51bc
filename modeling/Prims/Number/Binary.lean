/-!
# Number — Binary

Binary floats as exact numbers.  A finite single is a whole number of units of `2⁻¹⁴⁹`
(`Single.units?`), so predicates on singles can be decided in the integers.  Widening is exact,
narrowing rounds to the nearest single with ties to the even one, and the conversions to integers
saturate; all of them are bit arithmetic.
-/

namespace Prims

/-- `x` kept between `low` and `high`. -/
def clampInt (low high x : Int) : Int := max low (min high x)

/-- The largest number of `bits` bits. -/
def largestWord (bits : Nat) : Nat := Nat.pow 2 bits - 1

/-- `n / 2 ^ shift`, to the nearest integer, a half going to the even neighbour. -/
def shiftRightEven (n shift : Nat) : Nat :=
  let quotient := n >>> shift
  let rest := n - quotient <<< shift
  let double := 2 * rest
  let unit := 1 <<< shift
  if unit < double ∨ (double = unit ∧ quotient % 2 = 1) then quotient + 1 else quotient

/-- `n / d`, to the nearest integer, a half going away from zero. -/
def roundDivAway (n : Int) (d : Nat) : Int :=
  let size := (2 * n.natAbs + d) / (2 * d)
  if n < 0 then -(size : Int) else size

/-- A double from its sign bit, biased exponent and fraction. -/
def Double.ofParts (sign exponent fraction : UInt64) : Float :=
  Float.ofBits (sign <<< 63 ||| exponent <<< 52 ||| fraction)

namespace Single

/-- Number of units in one. -/
def unitsPerOne : Nat := Nat.pow 2 149

/-- The value in units of `2⁻¹⁴⁹`; infinities and NaN have none. -/
def units? (x : Float32) : Option Int :=
  let bits := x.toBits.toNat
  let exponent := (bits >>> 23) % 0x100
  let fraction := bits % 0x800000
  if exponent = 0xff then none
  else
    let size := if exponent = 0 then fraction else (0x800000 + fraction) <<< (exponent - 1)
    some (if bits < 0x80000000 then (size : Int) else -(size : Int))

/-- The double of the same value. -/
def widen (x : Float32) : Float :=
  let bits : UInt64 := x.toBits.toUInt64
  let sign : UInt64 := bits >>> 31
  let exponent : UInt64 := (bits >>> 23) &&& 0xff
  let fraction : UInt64 := bits &&& 0x7fffff
  let top : UInt64 := fraction.log2
  if exponent = 0xff then Double.ofParts sign 0x7ff (fraction <<< 29)
  else if exponent ≠ 0 then Double.ofParts sign (exponent + 896) (fraction <<< 29)
  else if fraction = 0 then Double.ofParts sign 0 0
  else Double.ofParts sign (top + 874) ((fraction <<< (52 - top)) &&& 0xfffffffffffff)

/-- The least natural number that is at least `x`, at most `2⁶⁴ - 1`; zero for NaN. -/
def ceilNat (x : Float32) : Nat :=
  match units? x with
  | some k => min (-(-k / (unitsPerOne : Int))).toNat (largestWord 64)
  | none   => if 0 < x then largestWord 64 else 0

/-- The greatest natural number that is at most `x`, at most `2³² - 1`; zero for NaN and for
negative numbers. -/
def floorNat (x : Float32) : Nat :=
  match units? x with
  | some k => min (k / (unitsPerOne : Int)).toNat (largestWord 32)
  | none   => if 0 < x then largestWord 32 else 0

/-- The smaller of two singles; a NaN is skipped. -/
def least (a b : Float32) : Float32 :=
  if b.isNaN then a else if a.isNaN then b else if a < b then a else b

/-- The larger of two singles; a NaN is skipped. -/
def greatest (a b : Float32) : Float32 :=
  if b.isNaN then a else if a.isNaN then b else if b < a then a else b

/-- The ratio of a circle's circumference to its diameter. -/
def pi : Float32 := 3.14159265358979323846

/-- A full turn in radians. -/
def tau : Float32 := 6.28318530717958647692

/-- The distance from one to the next larger single. -/
def epsilon : Float32 := Float32.ofBits 0x34000000

/-- The smallest positive single with full precision. -/
def leastNormal : Float32 := Float32.ofBits 0x00800000

/-- The largest finite single. -/
def largest : Float32 := Float32.ofBits 0x7f7fffff

end Single

namespace Double

/-- The nearest single, a tie going to the even one; too large values become infinite. -/
def narrow (x : Float) : Float32 :=
  let bits := x.toBits.toNat
  let sign := (bits >>> 63) <<< 31
  let exponent := (bits >>> 52) % 0x800
  let fraction := bits % 0x10000000000000
  let size :=
    if exponent = 0x7ff then
      if fraction = 0 then 0x7f800000 else 0x7fc00000
    else
      let mantissa := if exponent = 0 then fraction else 0x10000000000000 + fraction
      let scale := max exponent 1
      let shift := max (mantissa.log2 - 23) (926 - scale)
      min ((shift + scale - 926) <<< 23 + shiftRightEven mantissa shift) 0x7f800000
  Float32.ofBits (sign + size).toUInt32

/-- `|x|` as `mantissa / 2 ^ shift`, or `mantissa * 2 ^ shift` when `large`. -/
structure Size where
  mantissa : Nat
  shift    : Nat
  large    : Bool

/-- The magnitude of a finite double. -/
def size? (x : Float) : Option Size :=
  let bits := x.toBits.toNat
  let exponent := (bits >>> 52) % 0x800
  let fraction := bits % 0x10000000000000
  if exponent = 0x7ff then none
  else
    let mantissa := if exponent = 0 then fraction else 0x10000000000000 + fraction
    let scale := max exponent 1
    some (if scale < 1075 then ⟨mantissa, 1075 - scale, false⟩ else ⟨mantissa, scale - 1075, true⟩)

/-- The nearest integer, a half going away from zero; zero when `x` is not finite. -/
def nearestInt (x : Float) : Int :=
  match size? x with
  | none   => 0
  | some s =>
    let size :=
      if s.large then s.mantissa <<< s.shift
      else (s.mantissa + 1 <<< (s.shift - 1)) >>> s.shift
    if x < 0 then -(size : Int) else size

/-- The integer part; zero when `x` is not finite. -/
def truncate (x : Float) : Int :=
  match size? x with
  | none   => 0
  | some s =>
    let size := if s.large then s.mantissa <<< s.shift else s.mantissa >>> s.shift
    if x < 0 then -(size : Int) else size

/-- The integer nearest to the binary logarithm of a positive finite double, decided by comparing
the square of the mantissa with a power of two; zero otherwise. -/
def nearestLog2 (x : Float) : Int :=
  match size? x with
  | none   => 0
  | some s =>
    if s.mantissa = 0 then 0
    else
      let floor := s.mantissa.log2
      let nearest := if s.mantissa * s.mantissa < 2 <<< (2 * floor) then floor else floor + 1
      if s.large then (nearest : Int) + s.shift else (nearest : Int) - s.shift

/-- `2 ^ e` for exponents of normal doubles. -/
def twoPow (e : Int) : Float := Float.ofBits (UInt64.ofNat (e + 1023).toNat <<< 52)

/-- The larger of two doubles; a NaN is skipped. -/
def greatest (a b : Float) : Float :=
  if b.isNaN then a else if a.isNaN then b else if b < a then a else b

end Double

end Prims
