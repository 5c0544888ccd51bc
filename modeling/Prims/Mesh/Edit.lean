import Prims.Mesh.Basic

/-!
# Mesh — Edit

Removing triangles and vertices, normals and winding.  What removes triangles drops the normals.
-/

namespace Prims.Mesh

/-- Keep the triangles accepted by `keep`. -/
def retain (m : Mesh) (keep : Triangle → Bool) : Mesh :=
  { m with triangles := m.triangles.filter keep, normals := [] }

/-- Keep the triangles at which `flags` holds, position by position. -/
def retainFlagged (m : Mesh) (flags : List Bool) : Mesh :=
  { m with
    triangles := ((m.triangles.zip flags).filter Prod.snd).map Prod.fst
    normals   := [] }

/-- The index of a vertex after the vertex `removed` has gone. -/
def indexAfter (removed i : UInt32) : UInt32 := if removed < i then i - 1 else i

/-- Remove a vertex with the triangles that use it; indices above it move down by one. -/
def removeVertex? (m : Mesh) (i : UInt32) : Option Mesh :=
  if i.toNat < m.vertexCount then
    let kept := m.retain fun t => !t.uses i
    some { kept with
      positions := m.positions.eraseIdxIfInBounds i.toNat
      triangles := kept.triangles.map (Triangle.map (indexAfter i)) }
  else none

/-- Drop the triangles whose centroid lies outside the hull. -/
def removeOutside? (m : Mesh) (h : Hull) : Option Mesh := do
  let corners ← m.allCorners?
  return m.retainFlagged (corners.map fun k => h.contains k.centroid)

/-- The triangle has collapsed to a line or a point; equal indices settle it without a look at
positions. -/
def degenerate? (m : Mesh) (t : Triangle) : Option Bool :=
  if t.repeats then some true else (m.corners? t).map Corners.isFlat

/-- Drop collapsed triangles. -/
def removeDegenerate? (m : Mesh) : Option Mesh := do
  let flags ← m.triangles.mapM m.degenerate?
  return m.retainFlagged (flags.map not)

/-- The mesh with one unit normal per triangle, computed from the corners. -/
def withNormals? (m : Mesh) : Option Mesh := do
  let corners ← m.allCorners?
  return { m with normals := corners.map Corners.normal }

/-- Reverse the winding of every triangle and negate the normals. -/
def flip (m : Mesh) : Mesh :=
  { m with
    triangles := m.triangles.map Triangle.flip
    normals   := m.normals.map fun n => ⟨-n.x, -n.y, -n.z⟩ }

end Prims.Mesh
