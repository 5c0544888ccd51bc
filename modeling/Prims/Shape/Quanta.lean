import Prims.Number.Degrees
import Prims.Shape.Basic

/-!
# Shape — Quanta

The fixed-point fields of a shape as floats.  The same fields are read by every program that draws
prims, so each formula keeps the order of its operations.
-/

namespace Prims.Quanta

section
variable {α : Type} [Degrees α]
open Degrees (ofNat)

/-- Where the profile cut begins, in degrees. -/
def profileBeginDegrees (quanta : UInt16) : α :=
  ofNat quanta.toNat / ofNat cutQuanta.toNat * ofNat 360

/-- Where the profile cut ends, in degrees. -/
def profileEndDegrees (quanta : UInt16) : α :=
  ofNat 360 - ofNat quanta.toNat / ofNat cutQuanta.toNat * ofNat 360

end

/-- The hollow as a fraction of the profile. -/
def hollowFraction (hollow : UInt16) : Float32 := hollow.toFloat32 / 50000

/-- The hollow of a triangle, whose narrower outline leaves less room. -/
def triangleHollowFraction (hollow : UInt16) : Float32 := (hollow.toFloat32 / 1.9) / 50000

/-- Scale factors at the two ends of a straight path, along one axis. -/
structure Taper where
  top    : Float32
  bottom : Float32
deriving DecidableEq

/-- Scales above neutral narrow the top, scales below narrow the bottom. -/
def linearTaper (scale : UInt8) : Taper :=
  if neutralScale < scale then ⟨1 - ((scale - neutralScale).toFloat32 / 100), 1⟩
  else if scale < neutralScale then ⟨1, 1 - ((100 - scale.toFloat32) / 100)⟩
  else ⟨1, 1⟩

/-- Shear as an offset; bytes from `128` on are negative. -/
def shearOffset (shear : UInt8) : Float32 :=
  if shear = 0 then 0
  else if 128 ≤ shear then ((256 - shear.toUInt16).toFloat32 / 100) * -1
  else shear.toFloat32 / 100

/-- Twist of a straight path, in radians. -/
def linearTwist (twist : Int16) : Float32 := Float32.ofInt twist.toInt * Single.pi * 0.01

/-- Twist of a circular path, in radians. -/
def circularTwist (twist : Int16) : Float32 := Float32.ofInt twist.toInt * Single.pi * 0.02

/-- Number of turns of a circular path. -/
def revolutions (quanta : UInt8) : Float32 := 1 + quanta.toFloat32 * 3 / 200

/-- Fraction of the path at which the sweep begins. -/
def pathCutBegin (quanta : UInt16) : Float32 := 0.00002 * quanta.toFloat32

/-- Fraction of the path at which the sweep ends. -/
def pathCutEnd (quanta : UInt16) : Float32 := 0.00002 * Float32.ofInt (50000 - quanta.toNat)

/-- Scale of the profile on a circular path. -/
def circularScale (scale : UInt8) : Float32 := Float32.ofInt (200 - scale.toNat) * 0.01

/-- Scale that tells a torus from other circular sweeps. -/
def unpackedScale (scale : UInt8) : Float32 := Float32.ofInt (200 - scale.toNat) / 100

/-- Skew, radius offset and path taper as fractions. -/
def signedPercent (value : Int8) : Float32 := 0.01 * Float32.ofInt value.toInt

end Prims.Quanta
