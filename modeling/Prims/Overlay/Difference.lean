import Prims.Overlay.Trace

/-!
# Overlay — Difference

The part of one even-odd polygon outside another, as regions.  `difference` puts both polygons on
one grid, splits their segments where they meet, keeps those that bound the result and traces them.
-/

namespace Prims.Overlay

/-- An edge crosses the ray from `p` to the right; all in doubled coordinates. -/
def crossesRay (p : Site) (u v : Site) : Bool :=
  let u : Site := ⟨2 * u.x, 2 * u.y⟩
  let v : Site := ⟨2 * v.x, 2 * v.y⟩
  if u.y ≤ p.y && p.y < v.y then 0 < Site.area u v p
  else if v.y ≤ p.y && p.y < u.y then Site.area u v p < 0
  else false

/-- The midpoint of the first edge of `inner` lies in `outer`. -/
def encloses (outer inner : List Site) : Bool :=
  match outer, inner with
  | first :: r, p :: q :: _ =>
    (outer.zip (r ++ [first])).countP (fun e => crossesRay ⟨p.x + q.x, p.y + q.y⟩ e.1 e.2) % 2 == 1
  | _, _ => false

/-- The outer contour a hole belongs to: the last one found that encloses it.  Of nested outer
contours the inner one is found later. -/
def ownerOf (outers : List (List Site)) (hole : List Site) : Nat :=
  ((outers.zipIdx.filter fun o => encloses o.1 hole).map Prod.snd).getLast?.getD 0

/-- Every outer contour in the order found, each followed by its holes. -/
def group (traced : List Outline) : List (List (List Site)) :=
  let outers := (traced.filter fun o => !o.isHole).map Outline.points
  let holes := (traced.filter Outline.isHole).map Outline.points
  outers.zipIdx.map fun (outer, i) => outer :: holes.filter fun h => ownerOf outers h == i

/-- The regions of the subject outside the clip. -/
def difference (subject clip : List Contour) : List Region :=
  match subject.flatten ++ clip.flatten with
  | []              => []
  | first :: points =>
    let grid := Grid.around first points
    let segments (winding : Winding) (contours : List Contour) : List Segment :=
      contours.flatMap fun c => segmentsOf winding (c.map grid.toSite)
    let all := Segment.normalize (segments ⟨1, 0⟩ subject ++ segments ⟨0, 1⟩ clip)
    (group (outlines (links (splitAll all)))).map fun region =>
      region.map fun contour => contour.map grid.ofSite

end Prims.Overlay
