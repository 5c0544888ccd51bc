import Prims.Hull.Basic
import Prims.Overlay.Difference

/-!
# Hull — Difference

Subtracting one polygon from a hull.  The polygon difference may answer with any regions; what
becomes a hull is a single region, its outer ring counter-clockwise and first, its holes clockwise.
`subtractWith` leaves the difference open, `subtract` takes that of the overlay.
-/

namespace Prims

/-- Why a difference of hulls is no hull. -/
inductive DifferenceError where
  | outerWithoutRing
  | innerTooSmall
  | nothingLeft
  | pieces (count : Nat)
  | regionWithoutContour
  | degenerateRing
deriving DecidableEq

namespace DifferenceError

def message : DifferenceError → String
  | .outerWithoutRing     => "outer hull has no ring"
  | .innerTooSmall        => "inner hull needs at least 3 vertices"
  | .nothingLeft          => "subtraction removed the whole hull"
  | .pieces count         => s!"subtraction split the hull into {count} pieces"
  | .regionWithoutContour => "subtraction produced a shape without contours"
  | .degenerateRing       => "subtraction produced a degenerate ring"

end DifferenceError

namespace Overlay

/-- Contours with a smaller area are degenerate. -/
def leastArea : Float := 1e-10

/-- The signed area, positive for counter-clockwise contours. -/
def signedArea (contour : Contour) : Float :=
  match contour with
  | first :: r =>
    if contour.length < 3 then 0
    else
      (contour.zip (r ++ [first])).foldl
        (fun area e => area + e.1.x * e.2.y - e.2.x * e.1.y) 0 * 0.5
  | [] => 0

end Overlay

namespace Hull

open Overlay

/-- A polygon difference: the regions of the first even-odd polygon outside the second. -/
abbrev PolygonDifference := List Contour → List Contour → List Region

/-- A vertex seen in double precision. -/
def spot (p : Point) : Spot := ⟨Single.widen p.x, Single.widen p.y⟩

/-- The rings that enclose something, as contours. -/
def contours (h : Hull) : List Contour :=
  (h.rings.filter fun ring => 3 ≤ ring.length).map fun ring => ring.map spot

/-- Append a contour as a ring of the given winding. -/
def addContour (h : Hull) (contour : Contour) (counterClockwise : Bool) :
    Except DifferenceError Hull :=
  let area := signedArea contour
  if contour.length < 3 || area.abs < leastArea then .error .degenerateRing
  else
    let ring := contour.map fun p => Point.flat (Double.narrow p.x) (Double.narrow p.y)
    .ok (h.addRing (if (0 < area : Bool) == counterClockwise then ring else ring.reverse))

/-- The hull of a region. -/
def ofRegion : Region → Except DifferenceError Hull
  | []             => .error .regionWithoutContour
  | outer :: holes => do
    let h ← empty.addContour outer true
    holes.foldlM (fun h hole => h.addBreak.addContour hole false) h

/-- Subtract `inner`, read as one polygon, from `outer`; exactly one region must be left. -/
def subtractWith (difference : PolygonDifference) (outer inner : Hull) :
    Except DifferenceError Hull :=
  let subject := outer.contours
  let clip := inner.vertices.map spot
  if subject.isEmpty then .error .outerWithoutRing
  else if clip.length < 3 then .error .innerTooSmall
  else
    match difference subject [clip] with
    | []       => .error .nothingLeft
    | [region] => ofRegion region
    | regions  => .error (.pieces regions.length)

def subtract (outer inner : Hull) : Except DifferenceError Hull :=
  subtractWith Overlay.difference outer inner

end Hull

end Prims
