import Prims.Geometry.Plane

/-!
# Geometry — Corners

The three corner positions of a triangle and what is measured on them: normal, centroid, area,
collapse to a line, and the circumcircle in the profile plane.
-/

namespace Prims

/-- The positions of a triangle's three vertices, in winding order. -/
structure Corners where
  a : Point
  b : Point
  c : Point

namespace Corners

/-- The turn of the corners in the profile plane. -/
def turn (k : Corners) : Turn := Turn.of k.a k.b k.c

/-- The unit normal `(a - b) × (a - c)`, zero for collapsed triangles. -/
def normal (k : Corners) : Point :=
  (Point.direction? Single.leastNormal ((k.a - k.b).cross (k.a - k.c))).getD Point.origin

def centroid (k : Corners) : Point := (k.a + k.b + k.c).unscale 3

/-- Twice the area, in double precision. -/
def doubleArea (k : Corners) : Float :=
  let a := k.a.widen
  ((k.b.widen - a).cross (k.c.widen - a)).normSq.sqrt

/-- The squared length of the longest edge, in double precision. -/
def longestSq (k : Corners) : Float :=
  let a := k.a.widen
  let b := k.b.widen
  let c := k.c.widen
  Double.greatest (Double.greatest (b - a).normSq (c - b).normSq) (a - c).normSq

/-- Twice the area over the squared longest edge, at which a triangle counts as flat. -/
def flatness : Float := 1e-6

/-- The corners have collapsed to a line or a point. -/
def isFlat (k : Corners) : Bool :=
  let longest := k.longestSq
  longest == 0 || k.doubleArea ≤ flatness * longest

/-- The point lies strictly inside the circumcircle of the corners, in the profile plane.  Collinear
corners have no circumcircle, and a point or corner that is not finite lies in none. -/
def circumcircleContains (k : Corners) (p : Point) : Bool :=
  match k.a.site?, k.b.site?, k.c.site?, p.site? with
  | some a, some b, some c, some d =>
    let area := Site.area a b c
    let lifted := Site.inCircle a b c d
    (0 < area && 0 < lifted) || (area < 0 && lifted < 0)
  | _, _, _, _ => false

end Corners

end Prims
