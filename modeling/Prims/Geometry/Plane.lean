import Prims.Geometry.Vec

/-!
# Geometry — Plane

Exact predicates on positions of the profile plane.  A point with finite planar coordinates is a
pair of integers in units of `2⁻¹⁴⁹`, its `Site`; the turn of three sites and the in-circle test of
four are signs of integer determinants, so no rounding enters them.
-/

namespace Prims

/-- Integer planar coordinates. -/
structure Site where
  x : Int
  y : Int
deriving DecidableEq, Inhabited

namespace Site

/-- Twice the signed area of the triangle `a b c`, positive when counter-clockwise. -/
def area (a b c : Site) : Int :=
  (a.x - c.x) * (b.y - c.y) - (a.y - c.y) * (b.x - c.x)

/-- The squared distance of two sites. -/
def distSq (a b : Site) : Int :=
  (a.x - b.x) * (a.x - b.x) + (a.y - b.y) * (a.y - b.y)

/-- The lifted determinant of `a`, `b` and `c` about `d`; for a counter-clockwise triangle it is
positive exactly when `d` lies strictly inside the circumcircle. -/
def inCircle (a b c d : Site) : Int :=
  let aX := a.x - d.x
  let aY := a.y - d.y
  let bX := b.x - d.x
  let bY := b.y - d.y
  let cX := c.x - d.x
  let cY := c.y - d.y
  distSq a d * (bX * cY - cX * bY) + distSq b d * (cX * aY - aX * cY) +
    distSq c d * (aX * bY - bX * aY)

end Site

/-- The exact planar position; a point with an infinite or NaN coordinate has none. -/
def Point.site? (p : Point) : Option Site :=
  match Single.units? p.x, Single.units? p.y with
  | some x, some y => some ⟨x, y⟩
  | _,      _      => none

/-- Which way a path through three points turns. -/
inductive Turn where
  | left
  | straight
  | right
  /-- A coordinate is not a number, or infinities cancel. -/
  | unknown
deriving DecidableEq

namespace Turn

/-- The turn of a signed area. -/
def ofArea (area : Int) : Turn :=
  if 0 < area then .left else if area < 0 then .right else .straight

/-- The turn of a signed area in double precision. -/
def ofFloat (area : Float) : Turn :=
  if 0 < area then .left else if area < 0 then .right
  else if area == 0 then .straight else .unknown

/-- The turn at points of which one is not finite, by widened arithmetic. -/
def unbounded (a b c : Point) : Turn :=
  let a := a.widen
  let b := b.widen
  let c := c.widen
  ofFloat ((a.x - c.x) * (b.y - c.y) - (a.y - c.y) * (b.x - c.x))

/-- The turn `a b c`, exact for finite points. -/
def of (a b c : Point) : Turn :=
  match a.site?, b.site?, c.site? with
  | some a', some b', some c' => ofArea (Site.area a' b' c')
  | _,       _,       _       => unbounded a b c

/-- The sign of the turn, zero when it is unknown. -/
def sign : Turn → Int
  | .left     => 1
  | .straight => 0
  | .right    => -1
  | .unknown  => 0

end Turn

end Prims
