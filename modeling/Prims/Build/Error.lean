import Prims.Hull.Difference
import Prims.Number.Decimal
import Prims.Shape.Kind

/-!
# Build — Error

Why a mesh was not made, and the texts that say so.  Each cause belongs to a category, whose heading
opens the text.
-/

namespace Prims

inductive ErrorCategory where
  | invalidShape
  | geometry
  | triangulation
  | invalidExtrusion
  | invalidSculpt
  | emptyMesh
  | descriptor
deriving DecidableEq

namespace ErrorCategory

def heading : ErrorCategory → String
  | .invalidShape     => "Invalid shape: "
  | .geometry         => "Geometry error: "
  | .triangulation    => "Triangulation failed: "
  | .invalidExtrusion => "Invalid extrusion parameters: "
  | .invalidSculpt    => "Invalid sculpt map: "
  | .emptyMesh        => "Empty mesh: "
  | .descriptor       => "Shape descriptor error: "

end ErrorCategory

inductive MeshError where
  | sizeNotFinite (prim : String) (size : Point)
  | detailNotFinite (prim : String) (detail : Float32)
  | noProcessor (kind : PrimKind)
  | notExtruded (kind : PrimKind)
  | difference (cause : DifferenceError)
  | tooFewVertices (count : Nat)
  | noTriangles
  | emptyProfile
  /-- The words of a processor that refuses a prim. -/
  | refused (reason : String)
  | undecodableMap
  | mapTooSmall (width height : Nat)
  | shape (cause : ShapeError)
deriving DecidableEq

/-- The three components as they stand in messages. -/
def Point.text (p : Point) : String :=
  "[[" ++ ", ".intercalate ([p.x, p.y, p.z].map Decimal.shortest) ++ "]]"

namespace MeshError

def category : MeshError → ErrorCategory
  | .sizeNotFinite _ _ | .detailNotFinite _ _ | .noProcessor _ | .notExtruded _ => .invalidShape
  | .difference _     => .geometry
  | .tooFewVertices _ => .triangulation
  | .noTriangles      => .emptyMesh
  | .emptyProfile | .refused _ => .invalidExtrusion
  | .undecodableMap | .mapTooSmall _ _ => .invalidSculpt
  | .shape _          => .descriptor

/-- What follows the heading. -/
def detail : MeshError → String
  | .sizeNotFinite prim size     => s!"prim {prim} has non-finite size {size.text}"
  | .detailNotFinite prim detail =>
    s!"prim {prim} has non-finite level of detail {Decimal.shortest detail}"
  | .noProcessor kind            => s!"no processor registered for {kind.name}"
  | .notExtruded kind            => s!"{kind.name} is not a profile extrusion"
  | .difference cause            => cause.message
  | .tooFewVertices count        => s!"hull has {count} vertices, need at least 3"
  | .noTriangles                 => "profile triangulation produced no triangles"
  | .emptyProfile                => "profile has no vertices"
  | .refused reason              => reason
  | .undecodableMap              => "image could not be decoded"
  | .mapTooSmall width height    => s!"sculpt map is {width}x{height}, need at least 2x2"
  | .shape cause                 => cause.message

def message (e : MeshError) : String := e.category.heading ++ e.detail

end MeshError

/-- Why a build ends without a result. -/
inductive Failure where
  | error (cause : MeshError)
  /-- A triangle names a vertex that its mesh does not have. -/
  | badIndex
deriving DecidableEq

end Prims
