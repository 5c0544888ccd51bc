import Prims.Geometry.Corners
import Prims.Hull.Containment
import Prims.Mesh.Triangle

/-!
# Mesh — Basic

Triangle meshes: positions, triangles over them, and normals kept beside the triangles.  A triangle
may name a vertex that is not there; the operations that have to look at its position then answer
`none`.
-/

namespace Prims

structure Mesh where
  positions : Array Point
  triangles : List Triangle
  /-- One per triangle after `withNormals?`; dropped when triangles are removed. -/
  normals   : List Point
deriving DecidableEq, Inhabited

namespace Mesh

def empty : Mesh := ⟨#[], [], []⟩

def vertexCount (m : Mesh) : Nat := m.positions.size

def triangleCount (m : Mesh) : Nat := m.triangles.length

/-- No vertices. -/
def isEmpty (m : Mesh) : Bool := m.positions.isEmpty

/-- The index of the next vertex to be added. -/
def nextIndex (m : Mesh) : UInt32 := m.vertexCount.toUInt32

def addVertex (m : Mesh) (p : Point) : Mesh := { m with positions := m.positions.push p }

/-- Add the vertices of a hull in hull order. -/
def addHull (m : Mesh) (h : Hull) : Mesh :=
  { m with positions := m.positions ++ h.vertices.toArray }

def addTriangle (m : Mesh) (t : Triangle) : Mesh := { m with triangles := m.triangles ++ [t] }

def vertex? (m : Mesh) (i : UInt32) : Option Point := m.positions[i.toNat]?

def setVertex? (m : Mesh) (i : UInt32) (p : Point) : Option Mesh :=
  if i.toNat < m.vertexCount then
    some { m with positions := m.positions.setIfInBounds i.toNat p }
  else none

/-- Every vertex through `f`. -/
def mapVertices (f : Point → Point) (m : Mesh) : Mesh := { m with positions := m.positions.map f }

/-- Scale every position, component by component. -/
def scale (m : Mesh) (size : Point) : Mesh := m.mapVertices fun p => p.times size

/-- Every index of every triangle names a vertex. -/
def InRange (m : Mesh) : Prop := ∀ t ∈ m.triangles, ∀ i ∈ t.indices, i.toNat < m.vertexCount

instance (m : Mesh) : Decidable m.InRange :=
  decidable_of_iff (m.triangles.all fun t => t.indices.all fun i => i.toNat < m.vertexCount)
    (by simp [InRange])

def corners? (m : Mesh) (t : Triangle) : Option Corners :=
  match m.vertex? t.v1, m.vertex? t.v2, m.vertex? t.v3 with
  | some a, some b, some c => some ⟨a, b, c⟩
  | _,      _,      _      => none

/-- The corners of every triangle. -/
def allCorners? (m : Mesh) : Option (List Corners) := m.triangles.mapM m.corners?

/-- Smallest and largest coordinates over all vertices, NaN skipped; the origin twice without
vertices. -/
def bounds (m : Mesh) : Point × Point :=
  if m.isEmpty then (Point.origin, Point.origin)
  else
    let join (f : Float32 → Float32 → Float32) (p q : Point) : Point :=
      ⟨f p.x q.x, f p.y q.y, f p.z q.z⟩
    let top := Single.largest
    (m.positions.foldl (join Single.least) ⟨top, top, top⟩,
      m.positions.foldl (join Single.greatest) ⟨-top, -top, -top⟩)

end Mesh

end Prims
