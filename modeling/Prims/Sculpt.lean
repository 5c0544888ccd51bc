import Prims.Image.Raster
import Prims.Mesh.Edit
import Prims.Shape.Curve

/-!
# Sculpt

Sculpt maps as meshes.  Every pixel of the map is a vertex whose channels hold its coordinates, and
neighbouring pixels are joined to a grid of quads; before that the map is halved until it fits the
budget of its level of detail.
-/

namespace Prims.Sculpt

/-- Smallest and largest side of a budget. -/
def leastDetail : Nat := 2
def mostDetail : Nat := 64

/-- The side of the budget of a level of detail. -/
def detailSide (detail : Float32) : Nat := max leastDetail (min (Single.floorNat detail) mostDetail)

/-- Number of pixels a map may have. -/
def budget (detail : Float32) : Nat := detailSide detail * detailSide detail

/-- Half of a side, at least two. -/
def halved (side : Nat) : Nat := max (side / 2) 2

/-- Halve a map while it is beyond the budget and a side is longer than two. -/
def shrink (budget : Nat) (map : Raster) : Raster :=
  if budget < map.width * map.height ∧ (2 < map.width ∨ 2 < map.height) then
    shrink budget (map.resize (halved map.width) (halved map.height))
  else map
termination_by (map.width - 2) + (map.height - 2)
decreasing_by
  simp only [Raster.resize_width, Raster.resize_height, halved]
  omega

/-- A channel as a coordinate between `-1` and `1`. -/
def coordinate (channel : UInt8) : Float32 := channel.toFloat32 / 255 * 2 - 1

def position (c : Rgb) : Point := ⟨coordinate c.r, coordinate c.g, coordinate c.b⟩

/-- Quads per row, and rows of quads, along a side that may be closed. -/
def cells (side : Nat) (wraps : Bool) : Nat := if wraps && 2 < side then side else side - 1

/-- The index of a pixel; columns and rows count modulo the sides. -/
def index (width height x y : Nat) : UInt32 :=
  ((y % height) * width + x % width).toUInt32

/-- The two triangles of a quad, given by its upper left pixel. -/
def quad (width height x y : Nat) : List Triangle :=
  let p00 := index width height x y
  let p01 := index width height (x + 1) y
  let p10 := index width height x (y + 1)
  let p11 := index width height (x + 1) (y + 1)
  [⟨p00, p01, p11⟩, ⟨p00, p11, p10⟩]

/-- The triangles over all pixels, row by row. -/
def gridTriangles (width height : Nat) (stitching : Stitching) : List Triangle :=
  (List.range (cells height stitching.wrapsV)).flatMap fun y =>
    (List.range (cells width stitching.wrapsU)).flatMap fun x => quad width height x y

/-- The quad grid of a map, closed where the stitching says so and the side is longer than two. -/
def grid (map : Raster) (stitching : Stitching) : Mesh :=
  ⟨map.pixels.map position, gridTriangles map.width map.height stitching, []⟩

end Prims.Sculpt
