import Prims.Build.Basic
import Prims.Triangulation

/-!
# Build — Triangulate

Triangulating a hull, with a dump after each of its three stages.
-/

namespace Prims

/-- The triangles of a hull, wound counter-clockwise. -/
def Hull.triangulate (h : Hull) (sink : DumpSink) (prim : String) : Build Triangulation :=
  if h.vertexCount < 3 then .fail (.tooFewVertices h.vertexCount)
  else do
    let all ← Build.ofOption (Triangulation.inserted? h)
    sink.dump all prim "Proto first Mesh"
    let unseeded ← Build.ofOption (Triangulation.withoutSeeds? all)
    sink.dump unseeded prim "Proto seeds removed"
    let inner ← Build.ofOption (unseeded.removeOutside? h)
    sink.dump inner prim "Proto outsides removed"
    if inner.triangles.isEmpty then .fail .noTriangles
    else do
      let upright ← Build.ofOption inner.orientUp?
      return ⟨upright, h.ringLengths⟩

end Prims
