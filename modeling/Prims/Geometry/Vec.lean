import Prims.Number.Binary

/-!
# Geometry — Vec

Triples of numbers, read as points and as directions, and pairs of singles.  The operations fix
the order of every sum and product, since singles round at each step.
-/

namespace Prims

/-- Three coordinates. -/
structure Vec (α : Type) where
  x : α
  y : α
  z : α
deriving DecidableEq, Inhabited

/-- A position in single precision; profile work happens in the plane `z = 0`. -/
abbrev Point := Vec Float32

/-- A pair of factors or offsets, one per profile axis. -/
structure Pair where
  x : Float32
  y : Float32
deriving DecidableEq, Inhabited

namespace Vec

variable {α β : Type}

def map (f : α → β) (v : Vec α) : Vec β := ⟨f v.x, f v.y, f v.z⟩

instance [Add α] : Add (Vec α) := ⟨fun a b => ⟨a.x + b.x, a.y + b.y, a.z + b.z⟩⟩
instance [Sub α] : Sub (Vec α) := ⟨fun a b => ⟨a.x - b.x, a.y - b.y, a.z - b.z⟩⟩

/-- Every component times `k`. -/
def scale [Mul α] (v : Vec α) (k : α) : Vec α := ⟨v.x * k, v.y * k, v.z * k⟩

/-- Every component divided by `k`. -/
def unscale [Div α] (v : Vec α) (k : α) : Vec α := ⟨v.x / k, v.y / k, v.z / k⟩

/-- Componentwise product. -/
def times [Mul α] (v k : Vec α) : Vec α := ⟨v.x * k.x, v.y * k.y, v.z * k.z⟩

def cross [Sub α] [Mul α] (a b : Vec α) : Vec α :=
  ⟨a.y * b.z - a.z * b.y, a.z * b.x - a.x * b.z, a.x * b.y - a.y * b.x⟩

/-- The sum of the squares, from left to right. -/
def normSq [Add α] [Mul α] (v : Vec α) : α := v.x * v.x + v.y * v.y + v.z * v.z

/-- All components satisfy `p`. -/
def all (p : α → Bool) (v : Vec α) : Bool := p v.x && p v.y && p v.z

end Vec

namespace Point

def origin : Point := ⟨0, 0, 0⟩

/-- A point of the profile plane. -/
def flat (x y : Float32) : Point := ⟨x, y, 0⟩

/-- Numerical equality: the two zeros are one number and a NaN equals nothing. -/
def same (p q : Point) : Bool := p.x == q.x && p.y == q.y && p.z == q.z

def norm (v : Point) : Float32 := v.normSq.sqrt

/-- The larger of two absolute values, the second when they do not compare. -/
def larger (a b : Float32) : Float32 := if b ≤ a then a else b

/-- The largest absolute component. -/
def reach (v : Point) : Float32 := larger (larger v.x.abs v.y.abs) v.z.abs

/-- The direction of `v` with length one; none when its length is at most `least`. -/
def direction? (least : Float32) (v : Point) : Option Point :=
  let length := norm v
  if length ≤ least then none else some (v.unscale length)

def xAxis : Point := ⟨1, 0, 0⟩
def zAxis : Point := ⟨0, 0, 1⟩

/-- The rotation by `angle` about a unit axis: with `v = sin (angle / 2) • axis` and
`w = cos (angle / 2)` a point `p` goes to `p + 2w (v × p) + 2 v × (v × p)`. -/
def rotate (axis : Point) (angle : Float32) : Point → Point :=
  let v := axis.scale (angle / 2).sin
  let w := (angle / 2).cos
  fun p =>
    let t := (v.cross p).scale 2
    t.scale w + v.cross t + p

def rotateX (angle : Float32) : Point → Point := rotate xAxis angle
def rotateZ (angle : Float32) : Point → Point := rotate zAxis angle

/-- The unit vector of the profile plane at an angle in radians. -/
def atAngle (angle : Float) : Point :=
  ⟨Double.narrow angle.cos, Double.narrow angle.sin, 0⟩

/-- The same position in double precision. -/
def widen (p : Point) : Vec Float := p.map Single.widen

end Point

end Prims
