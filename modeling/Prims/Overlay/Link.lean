import Prims.Overlay.Crossing

/-!
# Overlay — Link

Which segments bound the part of the subject outside the clip.  A point is in a polygon when it is
wound around an odd number of times; the winding below a segment is the sum over the segments that
pass under its left end.
-/

namespace Prims.Overlay

/-- A segment with the result on exactly one side. -/
structure Link where
  a : Site
  b : Site
  /-- The result lies above, or to the left of a vertical link. -/
  insideAbove : Bool
deriving DecidableEq

/-- `t` passes under `s` just right of the left end of `s`. -/
def Segment.passesUnder (t s : Segment) : Bool :=
  t.a.x ≤ s.a.x && s.a.x < t.b.x &&
    (0 < Site.area t.a t.b s.a || (Site.aligned t.a t.b s.a && 0 < Site.area t.a t.b s.b))

/-- In the subject and not in the clip, by parity. -/
def Winding.inside (w : Winding) : Bool := w.subject % 2 != 0 && w.clip % 2 == 0

/-- The winding just below a segment. -/
def windingBelow (segments : List Segment) (s : Segment) : Winding :=
  ((segments.filter fun t => t.passesUnder s).map Segment.winding).foldl Winding.add ⟨0, 0⟩

/-- The link along a segment, if it bounds the result. -/
def link? (segments : List Segment) (s : Segment) : Option Link :=
  let below := windingBelow segments s
  let above := below.add s.winding
  if below.inside != above.inside then some ⟨s.a, s.b, above.inside⟩ else none

/-- The boundary of the result, in sorted order. -/
def links (segments : List Segment) : List Link := segments.filterMap (link? segments)

end Prims.Overlay
