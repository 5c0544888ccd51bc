import Prims.Hull.Basic

/-!
# Hull — Containment

Even-odd containment: a ray from the point to the right is crossed by an odd number of edges.
-/

namespace Prims

namespace Ring

/-- Each vertex with its predecessor, the last vertex before the first. -/
def steps (ring : Ring) : List (Point × Point) :=
  match ring.getLast? with
  | none      => []
  | some last => (last :: ring).zip ring

/-- The edge crosses the ray from `p` to the right. -/
def crosses (p : Point) : Point × Point → Bool
  | (before, here) =>
    ((here.y > p.y : Bool) != (before.y > p.y : Bool)) &&
      p.x < (before.x - here.x) * (p.y - here.y) / (before.y - here.y) + here.x

/-- The point lies in the ring, by the parity of crossed edges; a ring of fewer than three vertices
encloses nothing. -/
def contains (ring : Ring) (p : Point) : Bool :=
  3 ≤ ring.length && (steps ring).countP (crosses p) % 2 == 1

end Ring

/-- The point lies in an odd number of rings. -/
def Hull.contains (h : Hull) (p : Point) : Bool :=
  h.rings.countP (fun ring => Ring.contains ring p) % 2 == 1

end Prims
