import Prims.Sweep.Layers
import Prims.Triangulation

/-!
# Sweep — Surface

Layers joined to a surface: walls along every ring between consecutive layers, and caps on the first
and last layer unless they coincide and the sweep closes on itself.  Indices count in 32 bits.
-/

namespace Prims

/-- Layers closer than this are welded. -/
def weldTolerance : Float32 := 1e-5

/-- Two layers coincide, vertex by vertex. -/
def layersCoincide (first last : List Point) : Bool :=
  (first.zip last).all fun (p, q) => Point.reach (p - q) ≤ weldTolerance

/-- More than two layers, of which the first and the last coincide. -/
def weldsShut (layers : List (List Point)) : Bool :=
  match layers.head?, layers.getLast? with
  | some first, some last => 2 < layers.length && layersCoincide first last
  | _,          _         => false

/-- The indices from `start` up to `stop`. -/
def indexRange (range : UInt32 × UInt32) : List UInt32 :=
  (List.range' range.1.toNat (range.2.toNat - range.1.toNat)).map Nat.toUInt32

/-- The edges of a ring of indices, the last index joined to the first. -/
def ringEdges (range : UInt32 × UInt32) : List (UInt32 × UInt32) :=
  (indexRange range).map fun a => (a, if a + 1 = range.2 then range.1 else a + 1)

/-- The two triangles over an edge between two layers, given by their first indices. -/
def wall (lower upper : UInt32) (edge : UInt32 × UInt32) : List Triangle :=
  let (a, b) := edge
  [⟨lower + a, lower + b, upper + b⟩, ⟨lower + a, upper + b, upper + a⟩]

/-- The caps over a triangle of the profile: reversed on the first layer, upright on the last. -/
def caps (top : UInt32) (t : Triangle) : List Triangle := [t.flip, t.map (top + ·)]

namespace Triangulation

/-- The first index of a layer. -/
def layerStart (t : Triangulation) (k : UInt32) : UInt32 := k * t.mesh.vertexCount.toUInt32

/-- The edges of all rings. -/
def outlineEdges (t : Triangulation) : List (UInt32 × UInt32) := t.ringRanges.flatMap ringEdges

/-- The walls of segment `k` of a surface of `count` layers. -/
def segment (t : Triangulation) (count k : UInt32) : List Triangle :=
  t.outlineEdges.flatMap (wall (t.layerStart k) (t.layerStart ((k + 1) % count)))

/-- The triangles of a surface of `count` layers. -/
def surface (t : Triangulation) (count : UInt32) (closed : Bool) : List Triangle :=
  let segments := if closed then count else count - 1
  let walls := (List.range segments.toNat).flatMap fun k => t.segment count k.toUInt32
  if closed then walls
  else walls ++ t.mesh.triangles.flatMap (caps (t.layerStart (count - 1)))

/-- The layers joined to a mesh. -/
def assemble (t : Triangulation) (layers : List (List Point)) : Mesh :=
  let closed := weldsShut layers
  let kept := if closed then layers.dropLast else layers
  ⟨kept.flatten.toArray, t.surface kept.length.toUInt32 closed, []⟩

/-- The profile swept along a path and scaled; none without vertices. -/
def extrude? (t : Triangulation) (path : SweepPath) (size : Point) : Option Mesh :=
  if t.mesh.isEmpty then none
  else some ((t.assemble (path.layers t.mesh.positions.toList)).scale size)

end Triangulation

end Prims
