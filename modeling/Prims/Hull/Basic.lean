import Prims.Geometry.Vec

/-!
# Hull — Basic

The boundary of a profile: a sequence of vertices in which a mark closes each ring.  `rings` reads
the sequence as a list of rings; empty rings do not count.
-/

namespace Prims

/-- An entry of a hull. -/
inductive HullPoint where
  | vertex (p : Point)
  | ringEnd
deriving DecidableEq

namespace HullPoint

def vertex? : HullPoint → Option Point
  | .vertex p => some p
  | .ringEnd  => none

end HullPoint

/-- A closed polygon, given by its vertices in order. -/
abbrev Ring := List Point

/-- An ordered polygon boundary, possibly of several rings. -/
structure Hull where
  points : List HullPoint
deriving DecidableEq, Inhabited

namespace Hull

def empty : Hull := ⟨[]⟩

/-- Append a vertex to the ring being written; one equal to the entry before it is ignored. -/
def addVertex (h : Hull) (p : Point) : Hull :=
  match h.points.getLast? with
  | some (.vertex q) => if q.same p then h else ⟨h.points ++ [.vertex p]⟩
  | _                => ⟨h.points ++ [.vertex p]⟩

/-- Close the ring being written, unless it has no vertex yet. -/
def addBreak (h : Hull) : Hull :=
  match h.points.getLast? with
  | some (.vertex _) => ⟨h.points ++ [.ringEnd]⟩
  | _                => h

/-- Append the vertices of a ring. -/
def addRing (h : Hull) (ring : Ring) : Hull := ring.foldl addVertex h

/-- The hull of one ring. -/
def ofRing (ring : Ring) : Hull := empty.addRing ring

/-- The hull of one ring given in the profile plane. -/
def ofPlanar (ring : List (Float32 × Float32)) : Hull :=
  ofRing (ring.map fun (x, y) => Point.flat x y)

def vertices (h : Hull) : List Point := h.points.filterMap HullPoint.vertex?

def vertexCount (h : Hull) : Nat := h.vertices.length

def isEmpty (h : Hull) : Bool := h.vertexCount == 0

/-- The rings of a sequence whose first ring has begun with `started`, latest vertex first. -/
def ringsAfter : Ring → List HullPoint → List Ring
  | [],      []              => []
  | started, []              => [started.reverse]
  | started, .vertex p :: r  => ringsAfter (p :: started) r
  | [],      .ringEnd :: r   => ringsAfter [] r
  | started, .ringEnd :: r   => started.reverse :: ringsAfter [] r

/-- The rings in hull order. -/
def rings (h : Hull) : List Ring := ringsAfter [] h.points

def ringLengths (h : Hull) : List Nat := h.rings.map List.length

/-- Every vertex through `f`. -/
def mapVertices (f : Point → Point) (h : Hull) : Hull :=
  ⟨h.points.map fun
    | .vertex p => .vertex (f p)
    | .ringEnd  => .ringEnd⟩

/-- Turn the hull about the origin of the profile plane. -/
def rotateZ (h : Hull) (angle : Float32) : Hull := h.mapVertices (Point.rotateZ angle)

/-- Numerical equality, entry by entry. -/
def same (h k : Hull) : Bool :=
  h.points.length == k.points.length &&
    (h.points.zip k.points).all fun
      | (.vertex p, .vertex q) => p.same q
      | (.ringEnd, .ringEnd)   => true
      | _                      => false

end Hull

end Prims
