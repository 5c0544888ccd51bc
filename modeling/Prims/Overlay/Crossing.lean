import Prims.Overlay.Segment

/-!
# Overlay — Crossing

Where two segments meet and where they have to be split.  A proper crossing is moved to the grid;
when the grid point leaves one of the lines the crossing is inexact, and the pieces have to be
looked at again.
-/

namespace Prims.Overlay

/-- Points that split the first and the second of two segments. -/
structure Meeting where
  onFirst  : List Site
  onSecond : List Site
  exact    : Bool

namespace Meeting

/-- The segments need no split. -/
def none : Meeting := ⟨[], [], true⟩

end Meeting

/-- `1`, `0` or `-1`: the side of the line `a b` on which `c` lies. -/
def side (a b c : Site) : Int := (Site.area a b c).sign

/-- The quotient of a grid offset: to the nearest integer, a half going away from zero, as long as
the dividend fits one word of 64 bits; the quotient of a longer one is truncated. -/
def offsetQuotient (n d : Int) : Int :=
  if n.natAbs < Nat.pow 2 64 then roundDivAway (n * d.sign) d.natAbs else n.tdiv d

/-- The crossing point of two lines on the grid, as an offset from the left end of the first.
Where the first line is vertical or horizontal its free coordinate is truncated. -/
def crossingPoint (s t : Segment) : Site :=
  let a : Site := ⟨s.b.x - s.a.x, s.b.y - s.a.y⟩
  let p : Site := ⟨t.a.x - s.a.x, t.a.y - s.a.y⟩
  let q : Site := ⟨t.b.x - s.a.x, t.b.y - s.a.y⟩
  let dx := p.x - q.x
  let dy := p.y - q.y
  let det := p.x * q.y - p.y * q.x
  let offset : Site :=
    if a.x = 0 then ⟨0, det.tdiv dx⟩
    else if a.y = 0 then ⟨(-det).tdiv dy, 0⟩
    else
      let div := a.y * dx - a.x * dy
      ⟨offsetQuotient (a.x * det) div, offsetQuotient (a.y * det) div⟩
  ⟨s.a.x + offset.x, s.a.y + offset.y⟩

/-- A proper crossing.  An end within `radius` (a squared distance) of the grid point stands in
for it when the point is not on both lines. -/
def properCrossing (radius : Int) (s t : Segment) : Meeting :=
  let p := crossingPoint s t
  if Site.aligned s.a p s.b && Site.aligned t.a p t.b then ⟨[p], [p], true⟩
  else
    let toA := Site.distSq s.a p
    let toB := Site.distSq s.b p
    let toA' := Site.distSq t.a p
    let toB' := Site.distSq t.b p
    let nearest := min toA toB
    let nearest' := min toA' toB'
    if radius < nearest ∧ radius < nearest' then ⟨[p], [p], false⟩
    else if nearest ≤ nearest' then
      let e := if toA < toB then s.a else s.b
      if Site.aligned t.a e t.b then ⟨[p], [p], false⟩ else ⟨[], [e], false⟩
    else
      let e := if toA' < toB' then t.a else t.b
      if Site.aligned s.a e s.b then ⟨[p], [p], false⟩ else ⟨[e], [], false⟩

/-- The point of a line lies strictly between the ends of a segment of that line. -/
def between (s : Segment) (p : Site) : Bool := s.a.before p && p.before s.b

/-- How two segments meet. -/
def meet (radius : Int) (s t : Segment) : Meeting :=
  let ta := side s.a s.b t.a
  let tb := side s.a s.b t.b
  let sa := side t.a t.b s.a
  let sb := side t.a t.b s.b
  let zeros := [ta, tb, sa, sb].count 0
  if zeros = 4 then
    ⟨[t.a, t.b].filter (between s), [s.a, s.b].filter (between t), true⟩
  else if ta * tb = 1 ∨ sa * sb = 1 ∨ 1 < zeros then .none
  else if ta = 0 then ⟨[t.a], [], true⟩
  else if tb = 0 then ⟨[t.b], [], true⟩
  else if sa = 0 then ⟨[], [s.a], true⟩
  else if sb = 0 then ⟨[], [s.b], true⟩
  else properCrossing radius s t

/-- The vertical ranges of two segments are disjoint. -/
def apart (s t : Segment) : Bool :=
  max s.a.y s.b.y < min t.a.y t.b.y || max t.a.y t.b.y < min s.a.y s.b.y

/-- A segment and the points that split it. -/
structure Cut where
  segment : Segment
  points  : List Site

/-- One look at every pair of segments in sorted order; the second component says whether all
crossings were exact. -/
def cutAll (radius : Int) : List Segment → List Cut × Bool
  | []     => ([], true)
  | s :: r =>
    let (cuts, exact) := cutAll radius r
    let meetings := cuts.map fun cut =>
      if s.b.x < cut.segment.a.x || apart s cut.segment then Meeting.none
      else meet radius s cut.segment
    let onFirst := meetings.flatMap Meeting.onFirst
    let others := (cuts.zip meetings).map fun (cut, m) =>
      { cut with points := m.onSecond ++ cut.points }
    (⟨s, onFirst⟩ :: others, exact && meetings.all Meeting.exact)

/-- The order of points met on the way from the left end of a segment. -/
def Segment.along (s : Segment) (p q : Site) : Bool :=
  p.x < q.x || (p.x == q.x && if s.a.y ≤ s.b.y then p.y ≤ q.y else q.y ≤ p.y)

/-- The segments between consecutive points of a way; steps of no length are left out. -/
def Segment.chain (winding : Winding) : List Site → List Segment
  | p :: q :: r =>
    if p = q then chain winding (q :: r)
    else .travelled winding p q :: chain winding (q :: r)
  | _ => []

/-- The pieces of a segment between its ends and the points that split it. -/
def Cut.pieces (c : Cut) : List Segment :=
  let s := c.segment
  Segment.chain s.winding (s.a :: sortBy s.along c.points ++ [s.b])

/-- Split all segments where they meet, in rounds with a growing snap radius, until every crossing
is exact. -/
def splitRounds : Nat → Int → List Segment → List Segment
  | 0,        _,      segments => segments
  | fuel + 1, radius, segments =>
    let (cuts, exact) := cutAll radius segments
    let pieces := Segment.normalize (cuts.flatMap Cut.pieces)
    if exact then pieces else splitRounds fuel (2 * radius) pieces

/-- Split all segments where they meet; after sixty doublings the snap radius covers the grid. -/
def splitAll (segments : List Segment) : List Segment := splitRounds 64 1 segments

end Prims.Overlay
