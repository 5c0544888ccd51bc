import Prims.Overlay.Grid
import Prims.Sorting

/-!
# Overlay — Segment

Contours as directed segments of the grid.  A segment runs from its left end, the lower one when it
is vertical, and counts how often each polygon passes along it.
-/

namespace Prims

namespace Site

/-- Left to right, then bottom to top. -/
def before (p q : Site) : Bool := p.x < q.x || (p.x == q.x && p.y < q.y)

/-- The three points lie on a line, or two of them are equal. -/
def aligned (a b c : Site) : Bool := area a b c == 0

end Site

namespace Overlay

/-- How often a polygon runs along a segment from its left end, less how often it runs back. -/
structure Winding where
  subject : Int
  clip    : Int
deriving DecidableEq

namespace Winding

def add (v w : Winding) : Winding := ⟨v.subject + w.subject, v.clip + w.clip⟩
def reverse (w : Winding) : Winding := ⟨-w.subject, -w.clip⟩
def isZero (w : Winding) : Bool := w.subject == 0 && w.clip == 0

end Winding

structure Segment where
  a       : Site
  b       : Site
  winding : Winding
deriving DecidableEq

namespace Segment

/-- The segment travelled from `p` to `q`. -/
def travelled (winding : Winding) (p q : Site) : Segment :=
  if p.before q then ⟨p, q, winding⟩ else ⟨q, p, winding.reverse⟩

/-- By left ends, then by right ends. -/
def notAfter (s t : Segment) : Bool :=
  s.a.before t.a || (s.a == t.a && (s.b.before t.b || s.b == t.b))

/-- Join neighbours with equal ends into one segment, adding what they count. -/
def joinEqual : List Segment → List Segment
  | []     => []
  | s :: r =>
    match joinEqual r with
    | []     => [s]
    | t :: u => if s.a = t.a ∧ s.b = t.b then { t with winding := s.winding.add t.winding } :: u
                else s :: t :: u

/-- Sorted, with equal segments joined and those that cancel left out. -/
def normalize (segments : List Segment) : List Segment :=
  (joinEqual (sortBy notAfter segments)).filter fun s => !s.winding.isZero

end Segment

/-- The place of the first point that is aligned with its neighbours, the contour being closed. -/
def firstAligned? (contour : List Site) : Option Nat :=
  match contour.getLast?, contour.head? with
  | some last, some first =>
    let triples := ((last :: contour).zip contour).zip (contour.tail ++ [first])
    triples.findIdx? fun ((p, q), r) => Site.aligned p q r
  | _, _ => none

/-- Leave out, one after the other, points aligned with their neighbours. -/
def straighten (contour : List Site) : List Site :=
  match firstAligned? contour with
  | some i =>
    if i < contour.length then straighten (contour.eraseIdx i) else contour
  | none   => contour
termination_by contour.length
decreasing_by rw [List.length_eraseIdx_of_lt ‹_›]; omega

/-- The segments of a closed contour. -/
def segmentsOf (winding : Winding) (contour : List Site) : List Segment :=
  let corners := straighten contour
  match corners with
  | []         => []
  | first :: r =>
    if corners.length < 3 then []
    else (corners.zip (r ++ [first])).map fun (p, q) => Segment.travelled winding p q

end Overlay

end Prims
