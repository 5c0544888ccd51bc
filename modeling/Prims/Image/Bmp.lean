import Prims.Image.Bytes
import Prims.Image.Raster

/-!
# Image — BMP

Uncompressed bitmaps of 24 and 32 bits.  Rows are padded to four bytes and run from the bottom up,
or from the top down when the height is negative; a pixel is blue, green, red.
-/

namespace Prims.Bmp

def signature : List UInt8 := [0x42, 0x4d]

/-- Widths and heights above this are refused. -/
def largestSide : Nat := 0xffff

/-- The sizes of the headers that begin with the same fields. -/
def headerSizes : List Nat := [40, 52, 56, 108, 124]

structure Header where
  width    : Nat
  height   : Nat
  topDown  : Bool
  /-- Bytes of a pixel. -/
  depth    : Nat
  /-- Place of the first row. -/
  start    : Nat

/-- Bytes of a row with its padding. -/
def Header.stride (h : Header) : Nat := (h.width * h.depth + 3) / 4 * 4

def header? (b : ByteArray) : Option Header := do
  let start ← Bytes.little? b 10 4
  let headerSize ← Bytes.little? b 14 4
  let width := Bytes.signed32 (← Bytes.little? b 18 4)
  let height := Bytes.signed32 (← Bytes.little? b 22 4)
  let planes ← Bytes.little? b 26 2
  let bits ← Bytes.little? b 28 2
  let compression ← Bytes.little? b 30 4
  guard (headerSize ∈ headerSizes ∧ planes = 1 ∧ compression = 0 ∧ (bits = 24 ∨ bits = 32))
  guard (0 ≤ width ∧ width ≤ largestSide ∧ height.natAbs ≤ largestSide)
  return ⟨width.toNat, height.natAbs, height < 0, bits / 8, start⟩

/-- The image of a bitmap file. -/
def decode? (b : ByteArray) : Option Raster := do
  let h ← header? b
  let rows ← Bytes.slice? b h.start (h.stride * h.height)
  return Raster.ofFn h.width h.height fun x y =>
    let row := if h.topDown then y else h.height - 1 - y
    let byte (i : Nat) : UInt8 := (rows[row * h.stride + x * h.depth + i]?).getD 0
    ⟨byte 2, byte 1, byte 0⟩

end Prims.Bmp
