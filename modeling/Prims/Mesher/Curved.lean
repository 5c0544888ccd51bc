import Prims.Mesher.Processor
import Prims.Sculpt
import Prims.Sphere

/-!
# Mesher — Curved

Spheres, which are full ellipsoids whatever else their shape says, and prims whose surface is a
sculpt map.  The decoder of sculpt maps is open.
-/

namespace Prims

/-- A sphere at its final size. -/
def spherePrim (_kind : PrimKind) (r : Request) (sink : DumpSink) : Build Mesh := do
  let mesh := Sphere.unitMesh.scale r.size
  sink.dump mesh r.name "Icosahedron"
  return mesh

def sphereProcessor : Processor where
  kinds := [.sphere]
  run   := spherePrim

/-- A decoder of images. -/
abbrev ImageDecoder := ByteArray → Option Raster

/-- The sculpt map of a request, within its budget. -/
def sculptMap (decode : ImageDecoder) (r : Request) : Except MeshError Raster :=
  match decode r.shape.sculptData with
  | none     => .error .undecodableMap
  | some map =>
    if map.width < 2 ∨ map.height < 2 then .error (.mapTooSmall map.width map.height)
    else .ok (Sculpt.shrink (Sculpt.budget r.detail) map)

/-- A sculpted prim; its map spans twice its size and is wound inside out. -/
def sculptPrim (decode : ImageDecoder) (_kind : PrimKind) (r : Request) (sink : DumpSink) :
    Build Mesh :=
  match sculptMap decode r with
  | .error e => .fail e
  | .ok map  => do
    let stitching := r.shape.stitching
    Build.report (.meshingMap r.name map.width map.height stitching)
    let mesh := ((Sculpt.grid map stitching).scale (r.size.scale 0.5)).flip
    sink.dump mesh r.name "Sculpt"
    return mesh

def sculptProcessor (decode : ImageDecoder) : Processor where
  kinds := [.sculpt]
  run   := sculptPrim decode

end Prims
