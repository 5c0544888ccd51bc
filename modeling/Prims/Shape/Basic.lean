import Prims.Shape.Curve

/-!
# Shape — Basic

The packed description of a parametric prim.  Cuts and hollows count in fifty-thousandths of their
range, scales and tapers in percent with `100` as neutral, and a shear byte is negative from `128`
on.
-/

namespace Prims

/-- Byte arrays are equal when their contents are. -/
instance (priority := 2000) bytesDecidableEq : DecidableEq ByteArray := ByteArray.instDecidableEq

structure Shape where
  /-- Profile in the low three bits, hollow in the high half. -/
  profileCurve     : UInt8
  profileBegin     : UInt16
  profileEnd       : UInt16
  profileHollow    : UInt16
  pathCurve        : UInt8
  pathBegin        : UInt16
  pathEnd          : UInt16
  pathScaleX       : UInt8
  pathScaleY       : UInt8
  pathShearX       : UInt8
  pathShearY       : UInt8
  pathTwist        : Int16
  pathTwistBegin   : Int16
  pathRadiusOffset : Int8
  pathTaperX       : Int8
  pathTaperY       : Int8
  pathRevolutions  : UInt8
  pathSkew         : Int8
  sculptEntry      : Bool
  sculptType       : UInt8
  /-- An encoded image. -/
  sculptData       : ByteArray
deriving DecidableEq

/-- Full range of cuts and hollows. -/
def cutQuanta : UInt16 := 50000

/-- Neutral path scale. -/
def neutralScale : UInt8 := 100

/-- Largest meaningful path scale. -/
def largestScale : UInt8 := 200

namespace Shape

/-- The plain shape of a profile and a path. -/
def ofCurves (profile : ProfileShape) (path : PathCurve) : Shape where
  profileCurve     := profile.code
  profileBegin     := 0
  profileEnd       := 0
  profileHollow    := 0
  pathCurve        := path.code
  pathBegin        := 0
  pathEnd          := 0
  pathScaleX       := neutralScale
  pathScaleY       := neutralScale
  pathShearX       := 0
  pathShearY       := 0
  pathTwist        := 0
  pathTwistBegin   := 0
  pathRadiusOffset := 0
  pathTaperX       := 0
  pathTaperY       := 0
  pathRevolutions  := 0
  pathSkew         := 0
  sculptEntry      := false
  sculptType       := 0
  sculptData       := ByteArray.empty

def box : Shape := ofCurves .square .linear
def cylinder : Shape := ofCurves .circle .linear
def prism : Shape := ofCurves .equilateralTriangle .linear
def sphere : Shape := ofCurves .halfCircle .circle

/-- The path scale that leaves a hole of a quarter. -/
def quarterHole : UInt8 := 175

def torus : Shape := { ofCurves .circle .circle with pathScaleY := quarterHole }
def tube : Shape := { ofCurves .square .circle with pathScaleY := quarterHole }
def ring : Shape := { ofCurves .equilateralTriangle .circle with pathScaleY := quarterHole }

/-- A prim whose surface is an image. -/
def sculpt (stitching : Stitching) (data : ByteArray) : Shape :=
  { sphere with sculptEntry := true, sculptType := stitching.code, sculptData := data }

instance : Inhabited Shape := ⟨box⟩

def withProfileCut (s : Shape) (first last : UInt16) : Shape :=
  { s with profileBegin := first, profileEnd := last }

def withHollow (s : Shape) (hollow : UInt16) : Shape := { s with profileHollow := hollow }

/-- Replace the hollow and keep the profile; the other bits of the curve are cleared. -/
def withHollowShape (s : Shape) (hollow : HollowShape) : Shape :=
  { s with profileCurve := (s.profileCurve &&& ProfileShape.mask) ||| hollow.code }

def withPathCut (s : Shape) (first last : UInt16) : Shape :=
  { s with pathBegin := first, pathEnd := last }

def profile? (s : Shape) : Option ProfileShape := ProfileShape.ofCurve? s.profileCurve
def hollow (s : Shape) : HollowShape := HollowShape.ofCurve s.profileCurve
def path? (s : Shape) : Option PathCurve := PathCurve.ofCurve? s.pathCurve
def stitching (s : Shape) : Stitching := Stitching.ofByte s.sculptType

/-- The shape is to be meshed from its sculpt map. -/
def isSculpted (s : Shape) : Bool := s.sculptEntry && s.sculptType != 0 && !s.sculptData.isEmpty

end Shape

end Prims
