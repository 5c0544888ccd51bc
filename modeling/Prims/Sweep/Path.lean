import Prims.Shape.Quanta
import Prims.Geometry.Vec

/-!
# Sweep — Path

The paths a profile is swept along, and the paths of shapes.
-/

namespace Prims

/-- Straight from `z = -1/2` to `z = 1/2`. -/
structure LinearPath where
  taperTop    : Pair := ⟨1, 1⟩
  taperBottom : Pair := ⟨1, 1⟩
  /-- Offset of the top against the bottom. -/
  shear       : Pair := ⟨0, 0⟩
  twistTop    : Float32 := 0
  twistBottom : Float32 := 0
deriving DecidableEq

/-- Around the `x` axis. -/
structure CircularPath where
  /-- Size of the hole; its second part also sets the thickness of the profile. -/
  scale       : Pair := ⟨1, 1⟩
  /-- Where the sweep begins and ends, as fractions of all turns. -/
  cutBegin    : Float32 := 0
  cutEnd      : Float32 := 1
  skew        : Float32 := 0
  revolutions : Float32 := 1
  taper       : Pair := ⟨0, 0⟩
  radius      : Float32 := 0
  shearY      : Float32 := 0
  twistTop    : Float32 := 0
  twistBottom : Float32 := 0
deriving DecidableEq

inductive SweepPath where
  | linear (path : LinearPath)
  | circular (path : CircularPath)

namespace LinearPath

def ofShape (s : Shape) : LinearPath :=
  let taperX := Quanta.linearTaper s.pathScaleX
  let taperY := Quanta.linearTaper s.pathScaleY
  { taperTop    := ⟨taperX.top, taperY.top⟩
    taperBottom := ⟨taperX.bottom, taperY.bottom⟩
    shear       := ⟨Quanta.shearOffset s.pathShearX, Quanta.shearOffset s.pathShearY⟩
    twistTop    := Quanta.linearTwist s.pathTwist
    twistBottom := Quanta.linearTwist s.pathTwistBegin }

/-- Numerically the straight path without taper, shear and twist. -/
def isDefault (p : LinearPath) : Bool :=
  p.taperTop.x == 1 && p.taperTop.y == 1 && p.taperBottom.x == 1 && p.taperBottom.y == 1 &&
    p.shear.x == 0 && p.shear.y == 0 && p.twistTop == 0 && p.twistBottom == 0

end LinearPath

namespace CircularPath

def ofShape (s : Shape) : CircularPath where
  scale       := ⟨Quanta.circularScale s.pathScaleX, Quanta.circularScale s.pathScaleY⟩
  cutBegin    := Quanta.pathCutBegin s.pathBegin
  cutEnd      := Quanta.pathCutEnd s.pathEnd
  skew        := Quanta.signedPercent s.pathSkew
  revolutions := Quanta.revolutions s.pathRevolutions
  taper       := ⟨Quanta.signedPercent s.pathTaperX, Quanta.signedPercent s.pathTaperY⟩
  radius      := Quanta.signedPercent s.pathRadiusOffset
  shearY      := Quanta.shearOffset s.pathShearY
  twistTop    := Quanta.circularTwist s.pathTwist
  twistBottom := Quanta.circularTwist s.pathTwistBegin

/-- The scale of the flat profile before the sweep. -/
def profileScale (p : CircularPath) : Pair := ⟨p.scale.x * (1 - p.skew.abs), p.scale.y⟩

/-- The cut leaves something of the path. -/
def hasCut (p : CircularPath) : Bool := p.cutBegin < p.cutEnd

/-- The path with its cut, or whole when the cut leaves nothing of it. -/
def effective (p : CircularPath) : CircularPath :=
  if p.hasCut then p
  else { p with cutBegin := Quanta.pathCutBegin 0, cutEnd := Quanta.pathCutEnd 0 }

end CircularPath

end Prims
