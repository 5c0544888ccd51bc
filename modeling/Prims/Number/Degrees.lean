import Prims.Number.Binary

/-!
# Number — Degrees

The arithmetic that angles in degrees are computed in.  Meshing takes doubles; rationals say what
the same angles are exactly.
-/

namespace Prims

/-- Numbers that angles in degrees are computed with. -/
class Degrees (α : Type) extends Add α, Sub α, Mul α, Div α where
  ofNat    : Nat → α
  lt       : α → α → Bool
  le       : α → α → Bool
  /-- The integer part. -/
  truncate : α → Int

instance : Degrees Float where
  ofNat      := Float.ofNat
  lt a b     := a < b
  le a b     := a ≤ b
  truncate   := Double.truncate

instance : Degrees Rat where
  ofNat n    := (n : Rat)
  lt a b     := a < b
  le a b     := a ≤ b
  truncate q := q.num.tdiv q.den

end Prims
