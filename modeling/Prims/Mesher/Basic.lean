import Prims.Image.Decode
import Prims.Mesher.Config
import Prims.Mesher.Curved
import Prims.Mesher.Extrusion

/-!
# Mesher — Basic

Requests go to the processor registered for their kind, and its mesh is finished: mirrored sizes
turn the winding, collapsed triangles go, and every triangle gets a normal.
-/

namespace Prims

structure Mesher where
  config     : Config
  sink       : DumpSink
  /-- Latest registration first. -/
  processors : List (PrimKind × Processor)

namespace Mesher

/-- Register a processor for its kinds, in place of earlier ones. -/
def register (m : Mesher) (p : Processor) : Mesher :=
  { m with processors := p.kinds.map (·, p) ++ m.processors }

/-- The processor registered last for a kind. -/
def processor? (m : Mesher) (kind : PrimKind) : Option Processor := m.processors.lookup kind

/-- Where a configuration sends its dumps. -/
def sinkOf (files : FileSystem) (config : Config) : DumpSink :=
  match config.dumpDirectory with
  | none     => .disabled
  | some dir => .directory (files dir)

/-- A mesher with a processor for every kind, over a polygon difference and an image decoder. -/
def standard (difference : Hull.PolygonDifference) (decode : ImageDecoder) (files : FileSystem)
    (config : Config) : Mesher :=
  ((({ config := config, sink := sinkOf files config, processors := [] : Mesher }.register
    (extrusionProcessor difference)).register sphereProcessor).register (sculptProcessor decode))

/-- The mesher of a configuration. -/
def ofConfig (files : FileSystem) (config : Config) : Mesher :=
  standard Overlay.difference Image.decode? files config

/-- The mesher of the two environment variables. -/
def ofEnvironment (files : FileSystem) (dumpDirectory reportShapes : Option ByteArray) : Mesher :=
  ofConfig files (.ofEnvironment dumpDirectory reportShapes)

/-- The kind of a shape; a shape without a kind of its own is reported. -/
def classify (s : Shape) : Build PrimKind :=
  match s.kind with
  | .error e => .fail (.shape e)
  | .ok kind => do
    Build.reportIf s.ownKind?.isNone (.noOwnKind s.profile? s.path?)
    return kind

/-- An odd number of negative components, by the sign of the product. -/
def mirrors (size : Point) : Bool := size.x * size.y * size.z < 0

/-- A processor's mesh made ready for delivery. -/
def finish (kind : PrimKind) (r : Request) (m : Mesh) : Build Mesh := do
  let wound := if mirrors r.size then m.flip else m
  let pruned ← Build.ofOption wound.removeDegenerate?
  let dropped := wound.triangleCount - pruned.triangleCount
  Build.reportIf (0 < dropped) (.degenerateDropped r.name dropped)
  let shaded ← Build.ofOption pruned.withNormals?
  Build.reportIf shaded.triangles.isEmpty (.emptyMesh r.name kind)
  return shaded

/-- Hand a request to a processor and finish its mesh. -/
def dispatch (m : Mesher) (kind : PrimKind) (r : Request) : Build Mesh :=
  match m.processor? kind with
  | none   => .fail (.noProcessor kind)
  | some p => do
    Build.report (.meshing r.name kind)
    let mesh ← p.run kind r m.sink
    finish kind r mesh

/-- The mesh of a request: at its size, without collapsed triangles, one normal per triangle. -/
def createMesh (m : Mesher) (r : Request) : Build Mesh :=
  if !r.size.all Float32.isFinite then .fail (.sizeNotFinite r.name r.size)
  else if !r.detail.isFinite then .fail (.detailNotFinite r.name r.detail)
  else do
    Build.reportIf m.config.reportShapes (.parameters r.name r.size r.detail r.shape)
    let kind ← classify r.shape
    m.dispatch kind r

/-- The meshes of several requests, in their order. -/
def createMeshes (m : Mesher) (requests : List Request) : List (Build Mesh) :=
  requests.map m.createMesh

end Mesher

/-- A file system that takes no files. -/
def noFiles : FileSystem := fun _ _ => false

/-- The mesh of a shape by a quiet mesher. -/
def buildMesh (shape : Shape) (size : Point) (detail : Float32) : Build Mesh :=
  (Mesher.ofConfig noFiles .quiet).createMesh ⟨"prim", shape, size, detail⟩

end Prims
