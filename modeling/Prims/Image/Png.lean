import Prims.Image.Inflate
import Prims.Image.Raster

/-!
# Image — PNG

Portable network graphics without interlacing: chunks with their check sums, row filters, and
samples of every colour type.  Transparency is dropped, grey becomes three equal channels, and
samples of sixteen bits are scaled to eight.
-/

namespace Prims.Png

def signature : List UInt8 := [0x89, 0x50, 0x4e, 0x47, 0x0d, 0x0a, 0x1a, 0x0a]

/-! ### Chunks -/

/-- One bit of the check sum. -/
def crcBit (crc : UInt32) : UInt32 :=
  if crc &&& 1 == 0 then crc >>> 1 else (crc >>> 1) ^^^ 0xedb88320

/-- One byte of the check sum. -/
def crcByte (crc : UInt32) (byte : UInt8) : UInt32 :=
  Nat.repeat crcBit 8 (crc ^^^ byte.toUInt32)

/-- The cyclic check sum of a chunk. -/
def crc (bytes : ByteArray) : UInt32 := (bytes.foldl crcByte 0xffffffff) ^^^ 0xffffffff

structure Chunk where
  name : List UInt8
  data : ByteArray

def nameOf (s : String) : List UInt8 := s.toUTF8.data.toList

/-- A reader must know the chunk: its name starts with a capital. -/
def isCritical (name : List UInt8) : Bool := name.head?.any fun c => c &&& 0x20 == 0

/-- The chunks from `start` up to the end chunk.  A chunk whose check sum is wrong is skipped, or
fails when it is critical. -/
def chunks? (b : ByteArray) : Nat → Nat → Option (List Chunk)
  | 0,        _     => none
  | fuel + 1, start => do
    let length ← Bytes.big? b start 4
    let body ← Bytes.slice? b (start + 4) (4 + length)
    let sum ← Bytes.big? b (start + 8 + length) 4
    let name := (body.extract 0 4).data.toList
    let sound := (crc body).toNat == sum
    guard (sound || !isCritical name)
    if name = nameOf "IEND" then return []
    let rest ← chunks? b fuel (start + 12 + length)
    return if sound then ⟨name, body.extract 4 body.size⟩ :: rest else rest

/-- The data of the first chunk of a name. -/
def chunk? (name : String) (chunks : List Chunk) : Option ByteArray :=
  (chunks.find? fun c => c.name == nameOf name).map Chunk.data

/-! ### Samples -/

inductive Colour where
  | grey
  | rgb
  | palette
  | greyAlpha
  | rgbAlpha
deriving DecidableEq

namespace Colour

def ofCode? : Nat → Option Colour
  | 0 => some .grey
  | 2 => some .rgb
  | 3 => some .palette
  | 4 => some .greyAlpha
  | 6 => some .rgbAlpha
  | _ => none

/-- Samples of a pixel. -/
def channels : Colour → Nat
  | .grey | .palette => 1
  | .greyAlpha       => 2
  | .rgb             => 3
  | .rgbAlpha        => 4

/-- The sample depths a colour type comes in. -/
def depths : Colour → List Nat
  | .grey    => [1, 2, 4, 8, 16]
  | .palette => [1, 2, 4, 8]
  | _        => [8, 16]

end Colour

structure Header where
  width  : Nat
  height : Nat
  /-- Bits of a sample. -/
  depth  : Nat
  colour : Colour

namespace Header

/-- Bytes of a row. -/
def stride (h : Header) : Nat := (h.width * h.colour.channels * h.depth + 7) / 8

/-- Distance in bytes to the pixel on the left, at least one. -/
def pixelBytes (h : Header) : Nat := max 1 (h.colour.channels * h.depth / 8)

def ofBytes? (b : ByteArray) : Option Header := do
  guard (b.size = 13)
  let width ← Bytes.big? b 0 4
  let height ← Bytes.big? b 4 4
  let depth ← Bytes.big? b 8 1
  let colour ← Colour.ofCode? (← Bytes.big? b 9 1)
  let rest ← Bytes.big? b 10 3
  guard (0 < width ∧ 0 < height ∧ depth ∈ colour.depths ∧ rest = 0)
  return ⟨width, height, depth, colour⟩

end Header

/-! ### Filters -/

/-- Of left, above and above left, the one nearest to `left + above - corner`. -/
def paeth (left above corner : UInt8) : UInt8 :=
  let a : Int := left.toNat
  let b : Int := above.toNat
  let c : Int := corner.toNat
  let toA := (b - c).natAbs
  let toB := (a - c).natAbs
  let toC := (a + b - 2 * c).natAbs
  if toA ≤ toB ∧ toA ≤ toC then left else if toB ≤ toC then above else corner

/-- What a filter adds to a byte. -/
def predict? : Nat → Option (UInt8 → UInt8 → UInt8 → UInt8)
  | 0 => some fun _ _ _ => 0
  | 1 => some fun left _ _ => left
  | 2 => some fun _ above _ => above
  | 3 => some fun left above _ => ((left.toNat + above.toNat) / 2).toUInt8
  | 4 => some paeth
  | _ => none

/-- Undo the filter of a row, given the row above. -/
def unfilter (predict : UInt8 → UInt8 → UInt8 → UInt8) (step : Nat) (above row : ByteArray) :
    ByteArray :=
  (List.range row.size).foldl (fun out i =>
    let before (b : ByteArray) : UInt8 := if i < step then 0 else (b[i - step]?).getD 0
    let guess := predict (before out) ((above[i]?).getD 0) (before above)
    out.push ((row[i]?).getD 0 + guess)) ByteArray.empty

/-- Undo the filters of `count` rows from `start` on, given the row above them. -/
def rows? (h : Header) (b : ByteArray) (start : Nat) (above : ByteArray) :
    Nat → Option (List ByteArray)
  | 0         => some []
  | count + 1 => do
    let filter ← b[start]?
    let predict ← predict? filter.toNat
    let row ← Bytes.slice? b (start + 1) h.stride
    let row := unfilter predict h.pixelBytes above row
    let rest ← rows? h b (start + 1 + h.stride) row count
    return row :: rest

/-! ### Pixels -/

/-- Sample `i` of a row. -/
def sample (h : Header) (row : ByteArray) (i : Nat) : Nat :=
  let byte (k : Nat) : Nat := ((row[k]?).getD 0).toNat
  if h.depth = 16 then 256 * byte (2 * i) + byte (2 * i + 1)
  else
    let place := i * h.depth
    (byte (place / 8) >>> (8 - h.depth - place % 8)) % Nat.pow 2 h.depth

/-- A sample scaled to eight bits. -/
def toByte (depth value : Nat) : UInt8 :=
  if depth = 16 then ((value + 128) / 257).toUInt8
  else (value * (255 / largestWord depth)).toUInt8

/-- Pixel `x` of a row. -/
def pixel (h : Header) (palette row : ByteArray) (x : Nat) : Rgb :=
  let channel (k : Nat) : UInt8 := toByte h.depth (sample h row (x * h.colour.channels + k))
  match h.colour with
  | .grey | .greyAlpha => ⟨channel 0, channel 0, channel 0⟩
  | .rgb | .rgbAlpha   => ⟨channel 0, channel 1, channel 2⟩
  | .palette           =>
    let entry (k : Nat) : UInt8 := (palette[3 * sample h row x + k]?).getD 0
    ⟨entry 0, entry 1, entry 2⟩

/-- The image of a file. -/
def decode? (b : ByteArray) : Option Raster := do
  let chunks ← chunks? b (b.size + 1) 8
  let first ← chunks.head?
  guard (first.name = nameOf "IHDR")
  let h ← Header.ofBytes? first.data
  let palette := chunk? "PLTE" chunks
  guard (h.colour ≠ .palette ∨ palette.isSome)
  let packed := (chunks.filter fun c => c.name == nameOf "IDAT").foldl
    (fun out c => out ++ c.data) ByteArray.empty
  let data ← Inflate.unwrap? packed
  let rows ← rows? h data 0 ByteArray.empty h.height
  let rows := rows.toArray
  return Raster.ofFn h.width h.height fun x y =>
    pixel h (palette.getD ByteArray.empty) (rows.getD y ByteArray.empty) x

end Prims.Png
