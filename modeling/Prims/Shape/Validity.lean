import Prims.Shape.Basic

/-!
# Shape — Validity

Shapes that describe no prim: a sculpt entry without a map, a cut beyond its range, a path scale
beyond its largest value.  They are looked for in this order, and the first one found is reported.
All else is meshed.
-/

namespace Prims

/-- Why a shape describes no prim. -/
inductive ShapeError where
  | emptySculptData
  | outOfRange (field : String) (value limit : Nat)
deriving DecidableEq

namespace ShapeError

def message : ShapeError → String
  | .emptySculptData              => "Sculpt entry has no sculpt data"
  | .outOfRange field value limit =>
    s!"Invalid shape parameter: {field} {value} exceeds {limit}"

end ShapeError

namespace Shape

/-- The cut ranges, in the order in which they are looked at. -/
def cuts (s : Shape) : List (String × UInt16) :=
  [("profile_begin", s.profileBegin), ("profile_end", s.profileEnd),
    ("path_begin", s.pathBegin), ("path_end", s.pathEnd)]

/-- The path scales, in the order in which they are looked at. -/
def scales (s : Shape) : List (String × UInt8) :=
  [("path_scale_x", s.pathScaleX), ("path_scale_y", s.pathScaleY)]

/-- The first cut beyond the full range. -/
def cutError? (s : Shape) : Option ShapeError :=
  (s.cuts.find? fun c => cutQuanta < c.2).map fun c =>
    .outOfRange c.1 c.2.toNat cutQuanta.toNat

/-- The first path scale beyond the largest. -/
def scaleError? (s : Shape) : Option ShapeError :=
  (s.scales.find? fun c => largestScale < c.2).map fun c =>
    .outOfRange c.1 c.2.toNat largestScale.toNat

/-- What is wrong with a shape, if anything is. -/
def error? (s : Shape) : Option ShapeError :=
  if s.sculptEntry && s.sculptData.isEmpty then some .emptySculptData
  else s.cutError? <|> s.scaleError?

end Shape

end Prims
