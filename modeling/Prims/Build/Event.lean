import Prims.Build.Error

/-!
# Build — Event

What is reported while a mesh is made: for every event its level, its text and its named fields.
-/

namespace Prims

inductive Level where
  | trace
  | debug
  | warn
deriving DecidableEq

namespace Level

def name : Level → String
  | .trace => "TRACE"
  | .debug => "DEBUG"
  | .warn  => "WARN"

end Level

inductive Event where
  | parameters (prim : String) (size : Point) (detail : Float32) (shape : Shape)
  | noOwnKind (profile : Option ProfileShape) (path : Option PathCurve)
  | meshing (prim : String) (kind : PrimKind)
  | cutSkipped (prim : String) (cause : DifferenceError)
  | hollowOversized (prim : String) (hollow : UInt16)
  | hollowSkipped (prim : String) (cause : DifferenceError)
  | extruding (prim : String) (kind : PrimKind) (vertices triangles : Nat)
  | cutLeavesNothing (cutBegin cutEnd : Float32)
  | meshingMap (prim : String) (width height : Nat) (stitching : Stitching)
  | degenerateDropped (prim : String) (count : Nat)
  | emptyMesh (prim : String) (kind : PrimKind)
deriving DecidableEq

/-- The value of an event's field. -/
inductive FieldValue where
  | integer (n : Int)
  | single (x : Float32)
  | text (s : String)
deriving DecidableEq

namespace Event

def level : Event → Level
  | .parameters _ _ _ _ => .trace
  | .noOwnKind _ _ | .meshing _ _ | .extruding _ _ _ _ | .meshingMap _ _ _ _
  | .degenerateDropped _ _ => .debug
  | .cutSkipped _ _ | .hollowOversized _ _ | .hollowSkipped _ _ | .cutLeavesNothing _ _
  | .emptyMesh _ _ => .warn

def message : Event → String
  | .parameters _ _ _ _    => "prim parameters"
  | .noOwnKind _ _         => "no mesher for this prim, meshing as a box"
  | .meshing _ _           => "meshing prim"
  | .cutSkipped _ _        => "skipping profile cut"
  | .hollowOversized _ _   => "skipping oversized hollow"
  | .hollowSkipped _ _     => "skipping hollow"
  | .extruding _ _ _ _     => "extruding profile"
  | .cutLeavesNothing _ _  => "empty path cut, sweeping the whole path"
  | .meshingMap _ _ _ _    => "meshing sculpt map"
  | .degenerateDropped _ _ => "dropped degenerate triangles"
  | .emptyMesh _ _         => "prim produced an empty mesh"

/-- A name that may be missing. -/
def optionalName : Option String → String
  | some name => "Some(" ++ name ++ ")"
  | none      => "None"

/-- The packed fields of a shape that are reported. -/
def shapeFields (s : Shape) : List (String × FieldValue) :=
  [("profile_curve", .integer s.profileCurve.toNat),
    ("profile_begin", .integer s.profileBegin.toNat),
    ("profile_end", .integer s.profileEnd.toNat),
    ("profile_hollow", .integer s.profileHollow.toNat),
    ("path_curve", .integer s.pathCurve.toNat),
    ("path_begin", .integer s.pathBegin.toNat),
    ("path_end", .integer s.pathEnd.toNat),
    ("path_scale_x", .integer s.pathScaleX.toNat),
    ("path_scale_y", .integer s.pathScaleY.toNat),
    ("path_shear_x", .integer s.pathShearX.toNat),
    ("path_shear_y", .integer s.pathShearY.toNat),
    ("path_twist", .integer s.pathTwist.toInt),
    ("path_twist_begin", .integer s.pathTwistBegin.toInt),
    ("path_radius_offset", .integer s.pathRadiusOffset.toInt),
    ("path_taper_x", .integer s.pathTaperX.toInt),
    ("path_taper_y", .integer s.pathTaperY.toInt),
    ("path_revolutions", .integer s.pathRevolutions.toNat),
    ("path_skew", .integer s.pathSkew.toInt),
    ("sculpt_type", .integer s.sculptType.toNat),
    ("sculpt_bytes", .integer s.sculptData.size)]

def fields : Event → List (String × FieldValue)
  | .parameters prim size detail shape =>
    ("prim", .text prim) :: ("size", .text size.text) :: ("lod", .single detail) ::
      shapeFields shape
  | .noOwnKind profile path =>
    [("profile", .text (optionalName (profile.map ProfileShape.name))),
      ("path", .text (optionalName (path.map PathCurve.name)))]
  | .meshing prim kind => [("prim", .text prim), ("kind", .text kind.name)]
  | .cutSkipped prim cause | .hollowSkipped prim cause =>
    [("prim", .text prim), ("error", .text (MeshError.difference cause).message)]
  | .hollowOversized prim hollow => [("prim", .text prim), ("hollow", .integer hollow.toNat)]
  | .extruding prim kind vertices triangles =>
    [("prim", .text prim), ("kind", .text kind.name), ("profile_vertices", .integer vertices),
      ("profile_triangles", .integer triangles)]
  | .cutLeavesNothing cutBegin cutEnd =>
    [("cut_begin", .single cutBegin), ("cut_end", .single cutEnd)]
  | .meshingMap prim width height stitching =>
    [("prim", .text prim), ("width", .integer width), ("height", .integer height),
      ("sculpt_type", .text stitching.name)]
  | .degenerateDropped prim count => [("prim", .text prim), ("dropped", .integer count)]
  | .emptyMesh prim kind => [("prim", .text prim), ("kind", .text kind.name)]

end Event

end Prims
