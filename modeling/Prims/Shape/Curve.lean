/-!
# Shape — Curve

What the curve bytes of a shape name: the profile in the low three bits of the profile curve, the
hollow in its high half, the path, and the stitching of a sculpt map.
-/

namespace Prims

/-- Outline of a cross-section. -/
inductive ProfileShape where
  | circle
  | square
  | isometricTriangle
  | equilateralTriangle
  | rightTriangle
  | halfCircle
deriving DecidableEq, Inhabited

namespace ProfileShape

def all : List ProfileShape :=
  [.circle, .square, .isometricTriangle, .equilateralTriangle, .rightTriangle, .halfCircle]

def code : ProfileShape → UInt8
  | .circle              => 0
  | .square              => 1
  | .isometricTriangle   => 2
  | .equilateralTriangle => 3
  | .rightTriangle       => 4
  | .halfCircle          => 5

def name : ProfileShape → String
  | .circle              => "Circle"
  | .square              => "Square"
  | .isometricTriangle   => "IsometricTriangle"
  | .equilateralTriangle => "EquilateralTriangle"
  | .rightTriangle       => "RightTriangle"
  | .halfCircle          => "HalfCircle"

/-- The bits of a profile curve that name the profile. -/
def mask : UInt8 := 0x07

/-- The profile named by a profile curve; two of the eight codes name none. -/
def ofCurve? (curve : UInt8) : Option ProfileShape := all.find? fun p => p.code == curve &&& mask

end ProfileShape

/-- Outline of the hole in a profile. -/
inductive HollowShape where
  /-- The hole follows the profile. -/
  | same
  | circle
  | square
  | triangle
deriving DecidableEq, Inhabited

namespace HollowShape

def all : List HollowShape := [.same, .circle, .square, .triangle]

def code : HollowShape → UInt8
  | .same     => 0x00
  | .circle   => 0x10
  | .square   => 0x20
  | .triangle => 0x30

def name : HollowShape → String
  | .same     => "Same"
  | .circle   => "Circle"
  | .square   => "Square"
  | .triangle => "Triangle"

/-- The bits of a profile curve that name the hollow. -/
def mask : UInt8 := 0xf0

/-- The hollow named by a profile curve; unknown codes follow the profile. -/
def ofCurve (curve : UInt8) : HollowShape :=
  (all.find? fun h => h.code == curve &&& mask).getD .same

end HollowShape

/-- The way a profile is swept. -/
inductive PathCurve where
  /-- Straight along `z`. -/
  | linear
  /-- Around an axis. -/
  | circle
  | curve2
  | test
  | flexible
deriving DecidableEq, Inhabited

namespace PathCurve

def all : List PathCurve := [.linear, .circle, .curve2, .test, .flexible]

def code : PathCurve → UInt8
  | .linear   => 0x10
  | .circle   => 0x20
  | .curve2   => 0x30
  | .test     => 0x40
  | .flexible => 0x80

def name : PathCurve → String
  | .linear   => "Linear"
  | .circle   => "Circle"
  | .curve2   => "Curve2"
  | .test     => "Test"
  | .flexible => "Flexible"

def ofCurve? (curve : UInt8) : Option PathCurve := all.find? fun p => p.code == curve

end PathCurve

/-- How the borders of a sculpt map are joined. -/
inductive Stitching where
  | none
  | sphere
  | torus
  | plane
  | cylinder
deriving DecidableEq, Inhabited

namespace Stitching

def all : List Stitching := [.none, .sphere, .torus, .plane, .cylinder]

def code : Stitching → UInt8
  | .none     => 0
  | .sphere   => 1
  | .torus    => 2
  | .plane    => 3
  | .cylinder => 4

def name : Stitching → String
  | .none     => "None"
  | .sphere   => "Sphere"
  | .torus    => "Torus"
  | .plane    => "Plane"
  | .cylinder => "Cylinder"

/-- The bits of a sculpt byte that name the stitching. -/
def mask : UInt8 := 0x07

/-- The stitching named by a sculpt byte; unknown codes stitch as a plane. -/
def ofByte (byte : UInt8) : Stitching :=
  (all.find? fun s => s.code == byte &&& mask).getD .plane

/-- Left and right border are joined. -/
def wrapsU : Stitching → Bool
  | .sphere | .torus | .cylinder => true
  | .none | .plane               => false

/-- First and last row are joined. -/
def wrapsV : Stitching → Bool
  | .torus => true
  | .none | .sphere | .plane | .cylinder => false

end Stitching

end Prims
