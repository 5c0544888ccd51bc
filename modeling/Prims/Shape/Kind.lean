import Prims.Shape.Quanta
import Prims.Shape.Validity

/-!
# Shape — Kind

The kind of mesh a shape asks for.  Combinations of profile and path without a kind of their own are
boxes.
-/

namespace Prims

inductive PrimKind where
  | box
  | cylinder
  | prism
  | tube
  | torus
  | ring
  | sphere
  | sculpt
deriving DecidableEq, Inhabited

namespace PrimKind

def all : List PrimKind := [.box, .cylinder, .prism, .tube, .torus, .ring, .sphere, .sculpt]

def name : PrimKind → String
  | .box      => "Box"
  | .cylinder => "Cylinder"
  | .prism    => "Prism"
  | .tube     => "Tube"
  | .torus    => "Torus"
  | .ring     => "Ring"
  | .sphere   => "Sphere"
  | .sculpt   => "Sculpt"

end PrimKind

namespace Shape

/-- The largest unpacked scale of a torus. -/
def largestTorusScale : Float32 := 0.75

/-- The kind of a combination of profile and path, for the given unpacked scale. -/
def kindOf? (scale : Float32) : Option ProfileShape → Option PathCurve → Option PrimKind
  | some .square,              some .linear => some .box
  | some .square,              some .circle => some .tube
  | some .circle,              some .linear => some .cylinder
  | some .circle,              some .circle =>
    if scale ≤ largestTorusScale then some .torus else none
  | some .halfCircle,          some .circle => some .sphere
  | some .halfCircle,          some .curve2 => some .sphere
  | some .equilateralTriangle, some .linear => some .prism
  | some .equilateralTriangle, some .circle => some .ring
  | _,                         _            => none

/-- The kind of a valid shape, if it has one of its own. -/
def ownKind? (s : Shape) : Option PrimKind :=
  if s.isSculpted then some .sculpt
  else kindOf? (Quanta.unpackedScale s.pathScaleY) s.profile? s.path?

/-- The kind of mesh a shape asks for. -/
def kind (s : Shape) : Except ShapeError PrimKind :=
  match s.error? with
  | some e => .error e
  | none   => .ok (s.ownKind?.getD .box)

end Shape

end Prims
