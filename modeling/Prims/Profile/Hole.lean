import Prims.Profile.Outline
import Prims.Shape.Quanta

/-!
# Profile — Hole

The hollow of a profile as a polygon.  Holes run clockwise, against the outlines they are taken
from.
-/

namespace Prims.Profile

/-- The hole of a shape and size.  In circles and triangles a square hole is turned to a diamond, so
that it stays inside. -/
def holePolygon (shape : HollowShape) (f : Float32) (profile : ProfileShape) : Hull :=
  match shape with
  | .circle =>
    .ofPlanar ((circlePoints.rotateLeft (circleStart + 1)).reverse.map fun (x, y) => (x * f, y * f))
  | .triangle =>
    if profile = .square then
      .ofPlanar [(0.48296 * f, -0.12941 * f), (-0.35355 * f, -0.35355 * f),
        (-0.12941 * f, 0.48296 * f)]
    else
      .ofPlanar [(-0.25 * f, -0.45 * f), (-0.25 * f, 0.45 * f), (0.5 * f, 0.0)]
  | .square | .same =>
    match profile with
    | .circle =>
      .ofPlanar [(0.0, -0.707 * f), (-0.707 * f, 0.0), (0.0, 0.707 * f), (0.707 * f, 0.0)]
    | .equilateralTriangle =>
      .ofPlanar [(0.0, -0.667 * f), (-0.667 * f, 0.0), (0.0, 0.667 * f), (0.667 * f, 0.0)]
    | _ =>
      .ofPlanar [(-0.5 * f, -0.5 * f), (-0.5 * f, 0.5 * f), (0.5 * f, 0.5 * f), (0.5 * f, -0.5 * f)]

/-- The shape of the hole when it follows the profile.  Circles stay round on a straight path only,
and have no hole of their own on another. -/
def followed? (profile : ProfileShape) (straight : Bool) : Option HollowShape :=
  match profile with
  | .equilateralTriangle  => some .triangle
  | .halfCircle | .circle => if straight then some .circle else none
  | _                     => some .square

/-- The size of the hole; triangles shrink it. -/
def holeFraction (profile : ProfileShape) (hollow : UInt16) : Float32 :=
  if profile = .equilateralTriangle then Quanta.triangleHollowFraction hollow
  else Quanta.hollowFraction hollow

/-- The hole of a profile, if it has one. -/
def hole? (profile : ProfileShape) (shape : HollowShape) (hollow : UInt16) (straight : Bool) :
    Option Hull :=
  if hollow = 0 then none
  else
    (if shape = .same then followed? profile straight else some shape).map fun shape =>
      holePolygon shape (holeFraction profile hollow) profile

/-- The shape of the hole on a circular path. -/
def circularHollow (profile : ProfileShape) (shape : HollowShape) : HollowShape :=
  if shape = .same then
    match profile with
    | .circle              => .circle
    | .equilateralTriangle => .triangle
    | _                    => .square
  else shape

/-- The triangular hole on a circular path, pointing to negative `x` like the ring outline. -/
def circularTriangleHole (profile : ProfileShape) (hollow : UInt16) : Hull :=
  let f := Quanta.hollowFraction hollow
  if profile = .equilateralTriangle then
    .ofPlanar [(0.125 * f, -0.1875 * f), (-0.25 * f, 0.0), (0.125 * f, 0.1875 * f)]
  else
    .ofPlanar [(0.25 * f, -0.45 * f), (-0.5 * f, 0.0), (0.25 * f, 0.45 * f)]

end Prims.Profile
