import Prims.Number.Binary

/-!
# Number — Decimal

Decimal texts of singles.  `shortest` writes the fewest digits that read back as the same single:
it takes the coarsest grid `10ˢ` that has a point in the interval of reals rounding to the value,
and of two such points the nearer.  `fixed` rounds the exact value to a number of places, a half
going to the even digit.
-/

namespace Prims.Decimal

/-- `digits * 10 ^ exponent`. -/
structure Scaled where
  digits   : Nat
  exponent : Int

/-- A real interval around a positive value, everything in quarters of `2⁻¹⁴⁹`. -/
structure Interval where
  low    : Nat
  value  : Nat
  high   : Nat
  closed : Bool

/-- The reals that round to a positive finite single, ties going to the even one. -/
def Interval.around (x : Float32) : Interval :=
  let bits := x.toBits.toNat % 0x80000000
  let exponent := bits >>> 23
  let fraction := bits % 0x800000
  let gap := 1 <<< (exponent - 1)
  let value := 4 * if exponent = 0 then fraction else (0x800000 + fraction) * gap
  let below := if fraction = 0 ∧ 1 < exponent then gap else 2 * gap
  ⟨value - below, value, value + 2 * gap, fraction % 2 = 0⟩

/-- `n` lies in the interval scaled by `k`. -/
def Interval.contains (i : Interval) (k n : Nat) : Bool :=
  if i.closed then i.low * k ≤ n && n ≤ i.high * k else i.low * k < n && n < i.high * k

/-- The grid point of the interval nearest to its value, on the grid of multiples of `step / k`
where a unit is a quarter of `2⁻¹⁴⁹`. -/
def Interval.gridPoint? (i : Interval) (step k : Nat) : Option Nat :=
  let below := i.value * k / step
  let candidates := [below, below + 1].filter fun c => i.contains k (c * step)
  match candidates with
  | [a, b] =>
    if i.value * k - a * step ≤ b * step - i.value * k then some a else some b
  | [a]    => some a
  | _      => none

/-- The first grid `10ˢ`, going down from `s`, with a point in the interval. -/
def Interval.coarsest (i : Interval) : Nat → Int → Scaled
  | 0,        s => ⟨0, s⟩
  | fuel + 1, s =>
    let unit := 4 * Single.unitsPerOne
    let hit :=
      let scale := Nat.pow 10 s.natAbs
      if s < 0 then i.gridPoint? unit scale else i.gridPoint? (unit * scale) 1
    match hit with
    | some n => ⟨n, s⟩
    | none   => i.coarsest fuel (s - 1)

/-- The shortest decimal that reads back as the positive finite single `x`. -/
def shortestScaled (x : Float32) : Scaled := (Interval.around x).coarsest 100 39

/-- Places and ranges of a default float text. -/
structure Style where
  /-- Values of at least this power of ten are written with an exponent. -/
  largeExponent : Int
  /-- Values below this power of ten are written with an exponent. -/
  smallExponent : Int

/-- Whole numbers keep `.0`; an exponent is written below `10⁻⁴` and from `10¹⁶` on. -/
def plainStyle : Style := ⟨16, -4⟩

/-- Digits with a point after the first `whole` of them. -/
def pointed (digits : String) (whole : Int) : String :=
  let count : Int := digits.length
  if whole ≤ 0 then "0." ++ "".pushn '0' (-whole).toNat ++ digits
  else if count ≤ whole then digits.pushn '0' (whole - count).toNat ++ ".0"
  else String.ofList (digits.toList.take whole.toNat) ++ "." ++
    String.ofList (digits.toList.drop whole.toNat)

/-- Digits with a point after the first and a power of ten. -/
def exponential (digits : String) (power : Int) : String :=
  match digits.toList with
  | []     => ""
  | [d]    => String.ofList [d] ++ "e" ++ toString power
  | d :: r => String.ofList [d] ++ "." ++ String.ofList r ++ "e" ++ toString power

/-- A decimal in the given style. -/
def Scaled.render (style : Style) (s : Scaled) : String :=
  let digits := toString s.digits
  let whole : Int := digits.length + s.exponent
  if style.largeExponent < whole ∨ whole ≤ style.smallExponent then exponential digits (whole - 1)
  else pointed digits whole

/-- The sign of a single, that of a negative zero included. -/
def sign (x : Float32) : String := if x.toBits < 0x80000000 then "" else "-"

/-- The text of a single: its shortest decimal, or `NaN`, `inf`, `-inf`. -/
def shortest (x : Float32) : String :=
  if x.isNaN then "NaN"
  else if x.isInf then sign x ++ "inf"
  else if x == 0 then sign x ++ "0.0"
  else sign x ++ (shortestScaled x).render plainStyle

/-- `n / d` to the nearest integer, a half going to the even neighbour. -/
def roundDivEven (n d : Nat) : Nat :=
  let quotient := n / d
  let double := 2 * (n % d)
  if d < double ∨ (double = d ∧ quotient % 2 = 1) then quotient + 1 else quotient

/-- The text of a single with a fixed number of places. -/
def fixed (places : Nat) (x : Float32) : String :=
  match Single.units? x with
  | none   => if x.isNaN then "NaN" else sign x ++ "inf"
  | some k =>
    let scale := Nat.pow 10 places
    let n := roundDivEven (k.natAbs * scale) Single.unitsPerOne
    let rest := toString (n % scale)
    sign x ++ toString (n / scale) ++ "." ++ "".pushn '0' (places - rest.length) ++ rest

end Prims.Decimal
