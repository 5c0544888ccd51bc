import Prims.Sweep.Path

/-!
# Sweep — Layers

The copies of a profile along a path.  A path gives a number of steps and, for each step, a map of
profile points; the layers are the images of the profile from step zero to the last.
-/

namespace Prims

/-- Angle between layers of circular sweeps and of twisted straight ones. -/
def sweepStep : Float32 := Single.pi / 12

/-- Slack in the division into steps, so that rounding adds no layer. -/
def stepSlack : Float32 := 1e-4

/-- Number of steps that divide a sweep, at least one. -/
def stepCount (sweep step : Float32) : Nat := max (Single.ceilNat (sweep / step - stepSlack)) 1

/-- The quotient `k / n`. -/
def ratio (k n : Nat) : Float32 := Float32.ofNat k / Float32.ofNat n

/-- A turn about `z` that leaves points alone when the angle is zero. -/
def twisted (angle : Float32) : Point → Point :=
  if angle != 0 then Point.rotateZ angle else id

namespace LinearPath

def twistTotal (p : LinearPath) : Float32 := p.twistTop - p.twistBottom

def steps (p : LinearPath) : Nat :=
  if Single.epsilon < p.twistTotal.abs then stepCount p.twistTotal.abs sweepStep else 1

/-- The image of profile points at step `k` of `n`. -/
def place (p : LinearPath) (n k : Nat) : Point → Point :=
  let t := ratio k n
  let z := -0.5 + t
  let taperX := p.taperBottom.x + (p.taperTop.x - p.taperBottom.x) * t
  let taperY := p.taperBottom.y + (p.taperTop.y - p.taperBottom.y) * t
  let twist := twisted (p.twistBottom + p.twistTotal * t)
  let offsetX := p.shear.x * t
  let offsetY := p.shear.y * t
  fun v =>
    let q := twist (Point.flat (v.x * taperX) (v.y * taperY))
    ⟨q.x + offsetX, q.y + offsetY, z⟩

end LinearPath

namespace CircularPath

def twistTotal (p : CircularPath) : Float32 := p.twistTop - p.twistBottom

/-- The angle between layers; strong twists take smaller ones. -/
def step (p : CircularPath) : Float32 :=
  let twist := p.twistTotal.abs
  let step := if 1.5 < twist then sweepStep * 0.5 else sweepStep
  if 3 < twist then step * 0.5 else step

def startAngle (p : CircularPath) : Float32 :=
  Single.tau * p.cutBegin * p.revolutions - p.shearY * 0.9

def endAngle (p : CircularPath) : Float32 :=
  Single.tau * p.cutEnd * p.revolutions - p.shearY * 0.9

def sweep (p : CircularPath) : Float32 := p.endAngle - p.startAngle

def steps (p : CircularPath) : Nat := stepCount p.sweep p.step

/-- Tapers and radius offsets up to this size are ignored. -/
def smallest : Float32 := 0.001

/-- The scale of one profile axis at a fraction of the path. -/
def taperAt (taper percent : Float32) : Float32 :=
  if smallest < taper then 1 - percent * taper
  else if taper < -smallest then 1 + (1 - percent) * taper
  else 1

/-- The scale of the radius at a fraction of the path. -/
def radiusAt (radius percent : Float32) : Float32 :=
  if smallest < radius then 1 - radius * percent
  else if radius < -smallest then 1 + radius * (1 - percent)
  else 1

/-- The image of profile points at step `k` of `n`. -/
def place (p : CircularPath) (n k : Nat) : Point → Point :=
  let percent := ratio k n
  let angle := p.startAngle + p.sweep * percent
  let scaleX := taperAt p.taper.x percent
  let scaleY := taperAt p.taper.y percent
  let twist := twisted (p.twistBottom + p.twistTotal * percent)
  let pathLength := p.cutEnd - p.cutBegin
  let totalSkew := p.skew * 2 * pathLength
  let skewStart := -p.skew + p.cutBegin * 2 * p.skew
  let pathRadius := (0.5 - p.scale.y * 0.5) * radiusAt p.radius percent
  let offset : Point :=
    ⟨0.5 * (skewStart + totalSkew * percent),
      (angle + p.shearY * 0.9).cos * pathRadius,
      (angle + p.shearY * 0.9).sin * pathRadius⟩
  let aboutPath := Point.rotateX angle
  fun v => aboutPath (twist (Point.flat (v.x * scaleX) (v.y * scaleY))) + offset

end CircularPath

namespace SweepPath

/-- Number of steps of a path. -/
def steps : SweepPath → Nat
  | .linear p   => p.steps
  | .circular p => p.effective.steps

/-- The image of profile points at step `k`. -/
def place : SweepPath → Nat → Point → Point
  | .linear p,   k => p.place p.steps k
  | .circular p, k => p.effective.place p.effective.steps k

/-- The images of a profile from the first step to the last. -/
def layers (path : SweepPath) (profile : List Point) : List (List Point) :=
  (List.range (path.steps + 1)).map fun k => profile.map (path.place k)

end SweepPath

end Prims
