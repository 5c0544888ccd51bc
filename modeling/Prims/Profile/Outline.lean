import Prims.Hull.Basic

/-!
# Profile — Outline

The outer hulls of the prim families.  All lie in the unit square around the origin and run
counter-clockwise, the ring triangle excepted in its slanted side.
-/

namespace Prims.Profile

/-- Corners of a 24-gon of radius one half, counter-clockwise from the positive `x` axis. -/
def circlePoints : List (Float32 × Float32) :=
  [(0.500000, 0.000000), (0.482963, 0.129410), (0.433013, 0.250000), (0.353553, 0.353553),
    (0.250000, 0.433013), (0.129410, 0.482963), (0.000000, 0.500000), (-0.129410, 0.482963),
    (-0.250000, 0.433013), (-0.353553, 0.353553), (-0.433013, 0.250000), (-0.482963, 0.129410),
    (-0.500000, 0.000000), (-0.482963, -0.129410), (-0.433013, -0.250000),
    (-0.353553, -0.353553), (-0.250000, -0.433013), (-0.129410, -0.482963),
    (0.000000, -0.500000), (0.129410, -0.482963), (0.250000, -0.433013), (0.353553, -0.353553),
    (0.433013, -0.250000), (0.482963, -0.129410)]

/-- Index of the corner at 45 degrees, where circles start. -/
def circleStart : Nat := 3

/-- The corners counter-clockwise from 45 degrees. -/
def circleFromStart : List (Float32 × Float32) := circlePoints.rotateLeft circleStart

def square : Hull := .ofPlanar [(0.5, 0.5), (-0.5, 0.5), (-0.5, -0.5), (0.5, -0.5)]

def circle : Hull := .ofPlanar circleFromStart

def prism : Hull := .ofPlanar [(-0.25, 0.45), (-0.25, -0.45), (0.5, 0.0)]

/-- The triangle swept along a circular path, pointing to negative `x`. -/
def ring : Hull := .ofPlanar [(0.255, -0.375), (0.25, 0.375), (-0.5, 0.0)]

end Prims.Profile
