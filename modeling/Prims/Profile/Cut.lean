import Prims.Hull.Basic
import Prims.Shape.Quanta

/-!
# Profile — Cut

The wedge that removes the cut range of a profile.  Its angles are computed in any arithmetic of
`Degrees`: in doubles for meshing, in rationals to say what they are exactly.
-/

namespace Prims.Profile

/-- A sector, travelled clockwise from `start` to `finish` in equal steps. -/
structure Wedge (α : Type) where
  start  : α
  finish : α
  steps  : Nat

namespace Wedge

variable {α : Type} [Degrees α]

open Degrees (ofNat lt le truncate)

/-- The steps that keep the arc close to 45 degrees each. -/
def stepsFor (sweep : α) : Nat :=
  max 1 (truncate (sweep / ofNat 45 + ofNat 1 / ofNat 2)).toNat

/-- The sector of a cut range, counted from positive `x` and turned back by `offset` degrees; none
when nothing is cut. -/
def ofCut? (first last : UInt16) (offset : α) : Option (Wedge α) :=
  if first = 0 ∧ last = 0 then none
  else
    let start := Quanta.profileBeginDegrees first - offset
    let direct := Quanta.profileEndDegrees last - offset
    let finish := if lt start direct then direct - ofNat 360 else direct
    let sweep := start - finish
    if le sweep (ofNat 0) then none else some ⟨start, finish, stepsFor sweep⟩

/-- The directions of the arc, from the start to the finish. -/
def angles (w : Wedge α) : List α :=
  let step := (w.start - w.finish) / ofNat w.steps
  (List.range w.steps).map (fun i => w.start - ofNat i * step) ++ [w.finish]

/-- The corners of the wedge as a polygon, with what stands for the origin and for a direction: the
origin, then the directions of the arc.  They run clockwise, against the outlines. -/
def corners {β : Type} (w : Wedge α) (origin : β) (direction : α → β) : List β :=
  origin :: w.angles.map direction

/-- The unit vector at an angle in degrees. -/
def heading (degrees : Float) : Point := Point.atAngle (degrees * 3.14159265358979323846 / 180)

/-- The wedge as a hull. -/
def hull (w : Wedge Float) : Hull := Hull.ofRing (w.corners Point.origin heading)

end Wedge

/-- The hull that cuts a profile, if anything is cut. -/
def cut? (first last : UInt16) (offset : Float) : Option Hull :=
  (Wedge.ofCut? first last offset).map Wedge.hull

end Prims.Profile
