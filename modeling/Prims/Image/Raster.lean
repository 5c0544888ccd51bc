import Prims.Number.Binary

/-!
# Image — Raster

Pixel arrays of red, green and blue, row by row from the top, and their reduction by picking
pixels.
-/

namespace Prims

structure Rgb where
  r : UInt8
  g : UInt8
  b : UInt8
deriving DecidableEq, Inhabited

structure Raster where
  width  : Nat
  height : Nat
  pixels : Array Rgb
  size_eq : pixels.size = width * height

namespace Raster

/-- The raster of a function of column and row. -/
def ofFn (width height : Nat) (f : Nat → Nat → Rgb) : Raster where
  width   := width
  height  := height
  pixels  := (Array.range (width * height)).map fun i => f (i % width) (i / width)
  size_eq := by simp

def pixel (m : Raster) (column row : Nat) : Rgb := m.pixels.getD (row * m.width + column) default

/-- The column or row that stands at place `o` when `size` of them are reduced to `n`. -/
def source (size n o : Nat) : Nat :=
  let ratio := Float32.ofNat size / Float32.ofNat n
  min (Single.floorNat ((Float32.ofNat o + 0.5) * ratio)) (size - 1)

/-- The raster of another size that takes the nearest pixel at every place. -/
def resize (m : Raster) (width height : Nat) : Raster :=
  if width = m.width ∧ height = m.height then m
  else ofFn width height fun x y => m.pixel (source m.width width x) (source m.height height y)

@[simp] theorem resize_width (m : Raster) (width height : Nat) :
    (m.resize width height).width = width := by
  unfold resize
  split
  case isTrue h => exact h.1.symm
  case isFalse => rfl

@[simp] theorem resize_height (m : Raster) (width height : Nat) :
    (m.resize width height).height = height := by
  unfold resize
  split
  case isTrue h => exact h.2.symm
  case isFalse => rfl

end Raster

end Prims
