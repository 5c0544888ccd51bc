import Prims.Geometry.Plane

/-!
# Overlay — Grid

Polygons in double precision are overlaid on an integer grid.  The grid is centred on the bounding
box of all points and its step is a power of two, chosen so that half the box is about `2²⁹` steps.
-/

namespace Prims.Overlay

/-- A planar position in double precision. -/
structure Spot where
  x : Float
  y : Float
deriving DecidableEq, Inhabited

/-- A closed polygon, given by its corners in order. -/
abbrev Contour := List Spot

/-- An outer contour and then its holes. -/
abbrev Region := List Contour

/-- Grid coordinates are distances from `center` in steps of `2 ^ -density`. -/
structure Grid where
  center  : Spot
  density : Int

namespace Grid

/-- Smallest and largest of a coordinate, kept as a pair. -/
def spread (range : Float × Float) (x : Float) : Float × Float :=
  (if x < range.1 then x else range.1, if range.2 < x then x else range.2)

/-- The grid for a set of points that holds `first`. -/
def around (first : Spot) (points : List Spot) : Grid :=
  let xs := (points.map Spot.x).foldl spread (first.x, first.x)
  let ys := (points.map Spot.y).foldl spread (first.y, first.y)
  let halfWidth := (xs.2 - xs.1) * 0.5
  let halfHeight := (ys.2 - ys.1) * 0.5
  let reach := Double.greatest halfWidth halfHeight
  { center  := ⟨xs.1 + halfWidth, ys.1 + halfHeight⟩
    density := if reach == 0 then 0 else 29 - Double.nearestLog2 reach }

/-- The nearest grid point. -/
def toSite (g : Grid) (p : Spot) : Site :=
  let scale := Double.twoPow g.density
  ⟨Double.nearestInt ((p.x - g.center.x) * scale), Double.nearestInt ((p.y - g.center.y) * scale)⟩

/-- The position of a grid point. -/
def ofSite (g : Grid) (s : Site) : Spot :=
  let step := Double.twoPow (-g.density)
  ⟨Float.ofInt s.x * step + g.center.x, Float.ofInt s.y * step + g.center.y⟩

end Grid

end Prims.Overlay
