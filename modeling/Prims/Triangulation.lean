import Prims.Mesh.Edit

/-!
# Triangulation

Profile hulls as triangles.  Vertices are inserted one at a time into a large seed triangle: the
triangles whose circumcircle contains the new vertex go, and the edges of the hole they leave are
joined to it.  Afterwards the seeds and the triangles outside the hull are removed and the rest is
wound counter-clockwise.  The mesh keeps the vertices of the hull in hull order.
-/

namespace Prims

/-- The elements of a sorted list that occur in it once. -/
def onceIn {α : Type} [DecidableEq α] : List α → List α
  | []     => []
  | a :: r =>
    if r.head? = some a then onceIn (r.dropWhile (· == a)) else a :: onceIn r
termination_by l => l.length
decreasing_by
  · have := (List.dropWhile_sublist (· == a) (l := r)).length_le
    simp only [List.length_cons]; omega
  · simp

namespace Mesh

/-- The edges between the removed and the kept triangles: those of one removed triangle only, in
order. -/
def rim (removed : List Triangle) : List Edge := onceIn (Edge.sort (removed.flatMap Triangle.edges))

/-- The triangle over an edge with a new vertex at `p`; none when the three lie on a line. -/
def fan? (m : Mesh) (i : UInt32) (p : Point) (e : Edge) : Option (Option Triangle) := do
  let a ← m.vertex? e.low
  let b ← m.vertex? e.high
  return if Turn.of a b p = .straight then none else some ⟨e.low, e.high, i⟩

/-- Join a vertex of the mesh to its triangles.  A vertex in no circumcircle, such as one where
another vertex is, changes nothing. -/
def insertVertex? (m : Mesh) (i : UInt32) : Option Mesh := do
  let p ← m.vertex? i
  let corners ← m.allCorners?
  let faces := m.triangles.zip corners
  let removed := (faces.filter fun f => f.2.circumcircleContains p).map Prod.fst
  if removed.isEmpty then return m
  let kept := (faces.filter fun f => !f.2.circumcircleContains p).map Prod.fst
  let fan ← (rim removed).mapM (m.fan? i p)
  return { m with triangles := kept ++ fan.filterMap id, normals := [] }

/-- Wind every triangle counter-clockwise; the normals stay. -/
def orientUp? (m : Mesh) : Option Mesh := do
  let corners ← m.allCorners?
  return { m with
    triangles := (m.triangles.zip corners).map fun f =>
      if f.2.turn = .right then f.1.flip else f.1 }

end Mesh

/-- A triangulated profile.  Its vertices are those of the hull in hull order, so each ring is a
range of indices. -/
structure Triangulation where
  mesh        : Mesh
  ringLengths : List Nat

namespace Triangulation

/-- A triangle around every profile, as profiles lie in the unit square. -/
def seeds : List Point := [.flat 0 (-10), .flat (-10) 10, .flat 10 10]

/-- The mesh of the seed triangle. -/
def seedMesh : Mesh := ⟨seeds.toArray, [⟨0, 1, 2⟩], []⟩

/-- Insert `count` consecutive vertices from index `first` on. -/
def insertFrom? (m : Mesh) (first : Nat) : Nat → Option Mesh
  | 0         => some m
  | count + 1 => do
    let m ← m.insertVertex? first.toUInt32
    insertFrom? m (first + 1) count

/-- The hull's vertices inserted into the seed triangle, as far as 32-bit indices reach. -/
def inserted? (h : Hull) : Option Mesh :=
  let m := seedMesh.addHull h
  insertFrom? m seedMesh.vertexCount (m.nextIndex.toNat - seedMesh.vertexCount)

/-- The mesh without its first three vertices, the last of them first. -/
def withoutSeeds? (m : Mesh) : Option Mesh := do
  let m ← m.removeVertex? 2
  let m ← m.removeVertex? 1
  m.removeVertex? 0

/-- Pairs `start, end` of consecutive ranges of the given lengths; they count in 32 bits. -/
def rangesFrom (start : UInt32) : List Nat → List (UInt32 × UInt32)
  | []          => []
  | length :: r =>
    let stop := start + length.toUInt32
    (start, stop) :: rangesFrom stop r

/-- The range of indices of each ring. -/
def ringRanges (t : Triangulation) : List (UInt32 × UInt32) := rangesFrom 0 t.ringLengths

end Triangulation

end Prims
