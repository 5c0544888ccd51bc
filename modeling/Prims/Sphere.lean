import Prims.Mesh.Edit

/-!
# Sphere

The unit sphere as a subdivided icosahedron.  A face is split into four until its edges are short;
the leaves of the subdivision are then joined to a mesh in which corners with the same coordinates,
rounded to millionths, are one vertex.
-/

namespace Prims.Sphere

def radius : Float32 := 0.5

/-- Faces are split until every edge is shorter. -/
def longestEdge : Float32 := 0.2

/-- A face and the splits of it. -/
inductive Subdivision where
  | face (corners : Corners)
  | split (first second third fourth : Subdivision)

namespace Subdivision

def leaves : Subdivision → List Corners
  | .face k        => [k]
  | .split a b c d => a.leaves ++ b.leaves ++ c.leaves ++ d.leaves

def splits : Subdivision → Nat
  | .face _        => 0
  | .split a b c d => a.splits + b.splits + c.splits + d.splits + 1

end Subdivision

/-- The midpoint, pushed out to the sphere. -/
def radialMidpoint (a b : Point) : Point :=
  let mid := (a + b).scale 0.5
  (mid.unscale (Point.norm mid)).scale radius

/-- All three edges are short. -/
def isFine (k : Corners) : Bool :=
  Point.norm (k.a - k.b) < longestEdge && Point.norm (k.b - k.c) < longestEdge &&
    Point.norm (k.c - k.a) < longestEdge

/-- Split a face until its parts are fine, at most `depth` times on top of each other. -/
def subdivide : Nat → Corners → Subdivision
  | 0,         k => .face k
  | depth + 1, k =>
    if isFine k then .face k
    else
      let ab := radialMidpoint k.a k.b
      let bc := radialMidpoint k.b k.c
      let ca := radialMidpoint k.c k.a
      .split (subdivide depth ⟨k.a, ab, ca⟩) (subdivide depth ⟨ab, k.b, bc⟩)
        (subdivide depth ⟨ca, bc, k.c⟩) (subdivide depth ⟨ab, bc, ca⟩)

/-- A coordinate in millionths, to the nearest one and within 64 bits. -/
def millionths (x : Float32) : Int :=
  let greatest : Int := largestWord 63
  let least : Int := -greatest - 1
  match Single.units? x with
  | some k => clampInt least greatest (roundDivAway (k * 1000000) Single.unitsPerOne)
  | none   => if x.isNaN then 0 else if 0 < x then greatest else least

/-- What decides whether two corners are one vertex. -/
def key (p : Point) : Vec Int := p.map millionths

/-- A mesh and the index of every key in it. -/
structure Builder where
  mesh  : Mesh
  index : List (Vec Int × UInt32)

namespace Builder

def empty : Builder := ⟨Mesh.empty, []⟩

/-- The index of a vertex, which is added when none has its key. -/
def vertex (b : Builder) (p : Point) : UInt32 × Builder :=
  match b.index.lookup (key p) with
  | some i => (i, b)
  | none   =>
    let i := b.mesh.nextIndex
    (i, ⟨b.mesh.addVertex p, (key p, i) :: b.index⟩)

def triangle (b : Builder) (k : Corners) : Builder :=
  let (i, b) := b.vertex k.a
  let (j, b) := b.vertex k.b
  let (l, b) := b.vertex k.c
  { b with mesh := b.mesh.addTriangle ⟨i, j, l⟩ }

/-- Add the leaves of a subdivision. -/
def add (b : Builder) (s : Subdivision) : Builder := s.leaves.foldl triangle b

end Builder

/-- The corners of the icosahedron. -/
def corners : List Point :=
  let phi : Float32 := (1 + Float32.sqrt 5) * 0.5
  let ratio : Float32 := (10 + 2 * Float32.sqrt 5).sqrt / (4 * phi)
  let a : Float32 := (radius / ratio) * 0.5
  let b : Float32 := (radius / ratio) / (2 * phi)
  [⟨0, b, -a⟩, ⟨b, a, 0⟩, ⟨-b, a, 0⟩, ⟨0, b, a⟩, ⟨0, -b, a⟩, ⟨-a, 0, b⟩, ⟨0, -b, -a⟩, ⟨a, 0, -b⟩,
    ⟨a, 0, b⟩, ⟨-a, 0, -b⟩, ⟨b, -a, 0⟩, ⟨-b, -a, 0⟩]

/-- The faces of the icosahedron, as places in the list of corners.  They wind inward. -/
def faces : List (Nat × Nat × Nat) :=
  [(0, 1, 2), (3, 2, 1), (3, 4, 5), (3, 8, 4), (0, 6, 7), (0, 9, 6), (4, 10, 11), (6, 11, 10),
    (2, 5, 9), (11, 9, 5), (1, 7, 8), (10, 8, 7), (3, 5, 2), (3, 1, 8), (0, 2, 9), (0, 7, 1),
    (6, 9, 11), (6, 10, 7), (4, 11, 5), (4, 8, 10)]

/-- Splits on top of each other that are tried before a face is taken as it is; two suffice. -/
def depth : Nat := 8

/-- The faces with their corners. -/
def unitFaces : List Corners :=
  let corner (i : Nat) : Point := corners.getD i Point.origin
  faces.map fun (i, j, k) => ⟨corner i, corner j, corner k⟩

/-- The subdivided faces. -/
def subdivisions : List Subdivision := unitFaces.map (subdivide depth)

/-- The sphere of radius one half, facing outward. -/
def unitMesh : Mesh := (subdivisions.foldl Builder.add Builder.empty).mesh.flip

end Prims.Sphere
