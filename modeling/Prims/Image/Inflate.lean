import Prims.Image.Bytes

/-!
# Image — Inflate

Decompression of deflated data: blocks of stored bytes, of fixed codes and of codes sent with the
block.  A reader is a place in the data counted in bits; every code takes at least one bit, so the
number of bits bounds every loop.
-/

namespace Prims.Inflate

/-- A place in the data. -/
structure Reader where
  data : ByteArray
  bit  : Nat

namespace Reader

/-- Number of bits in the data, and with it of steps that take a bit each. -/
def limit (r : Reader) : Nat := 8 * r.data.size

def bit? (r : Reader) : Option (Nat × Reader) :=
  (r.data[r.bit / 8]?).map fun byte =>
    ((byte.toNat >>> (r.bit % 8)) % 2, { r with bit := r.bit + 1 })

/-- The number of the next `count` bits, the first one weighing least. -/
def bits? (r : Reader) : Nat → Option (Nat × Reader)
  | 0         => some (0, r)
  | count + 1 => do
    let (low, r) ← r.bit?
    let (high, r) ← r.bits? count
    return (low + 2 * high, r)

/-- Skip to the next whole byte. -/
def align (r : Reader) : Reader := { r with bit := (r.bit + 7) / 8 * 8 }

end Reader

/-- A canonical code: how many codes there are of each length from one on, and the symbols in the
order of their codes. -/
structure Code where
  counts  : List Nat
  symbols : Array Nat

namespace Code

def longest : Nat := 15

/-- The code with the given length for each symbol; length zero means that a symbol is not used. -/
def ofLengths (lengths : List Nat) : Code :=
  let numbered := lengths.zipIdx
  let ofLength (n : Nat) : List Nat := (numbered.filter fun p => p.1 == n).map Prod.snd
  let perLength := (List.range' 1 longest).map ofLength
  ⟨perLength.map List.length, perLength.flatten.toArray⟩

/-- No more codes of any length than there is room for. -/
def isSound (c : Code) : Bool :=
  (c.counts.foldl (fun room count => room.bind fun room =>
    if count ≤ 2 * room then some (2 * room - count) else none) (some 1)).isSome

/-- Read a symbol: `value` are the bits so far, `first` the first code of this length and `index`
the place of its symbol. -/
def readFrom? (symbols : Array Nat) (r : Reader) (value first index : Nat) :
    List Nat → Option (Nat × Reader)
  | []              => none
  | count :: counts => do
    let (bit, r) ← r.bit?
    let value := 2 * value + bit
    if value < first + count then
      let symbol ← symbols[index + (value - first)]?
      return (symbol, r)
    readFrom? symbols r value (2 * (first + count)) (index + count) counts

def read? (c : Code) (r : Reader) : Option (Nat × Reader) := readFrom? c.symbols r 0 0 0 c.counts

end Code

/-- Smallest length and number of extra bits for each length symbol from 257 on. -/
def lengthTable : List (Nat × Nat) :=
  [(3, 0), (4, 0), (5, 0), (6, 0), (7, 0), (8, 0), (9, 0), (10, 0), (11, 1), (13, 1), (15, 1),
    (17, 1), (19, 2), (23, 2), (27, 2), (31, 2), (35, 3), (43, 3), (51, 3), (59, 3), (67, 4),
    (83, 4), (99, 4), (115, 4), (131, 5), (163, 5), (195, 5), (227, 5), (258, 0)]

/-- Smallest distance and number of extra bits for each distance symbol. -/
def distanceTable : List (Nat × Nat) :=
  [(1, 0), (2, 0), (3, 0), (4, 0), (5, 1), (7, 1), (9, 2), (13, 2), (17, 3), (25, 3), (33, 4),
    (49, 4), (65, 5), (97, 5), (129, 6), (193, 6), (257, 7), (385, 7), (513, 8), (769, 8),
    (1025, 9), (1537, 9), (2049, 10), (3073, 10), (4097, 11), (6145, 11), (8193, 12),
    (12289, 12), (16385, 13), (24577, 13)]

/-- A value of a table with its extra bits. -/
def extended? (table : List (Nat × Nat)) (symbol : Nat) (r : Reader) : Option (Nat × Reader) := do
  let (least, extra) ← table[symbol]?
  let (more, r) ← r.bits? extra
  return (least + more, r)

/-- Append `count` bytes, each a copy of the one `distance` before it. -/
def copyBack (out : ByteArray) (distance : Nat) : Nat → ByteArray
  | 0         => out
  | count + 1 => copyBack (out.push ((out[out.size - distance]?).getD 0)) distance count

/-- The symbols of a block up to its end. -/
def symbols? (literals distances : Code) : Nat → Reader → ByteArray → Option (ByteArray × Reader)
  | 0,        _, _   => none
  | fuel + 1, r, out => do
    let (symbol, r) ← literals.read? r
    if symbol < 256 then symbols? literals distances fuel r (out.push symbol.toUInt8)
    else if symbol = 256 then return (out, r)
    else
      let (count, r) ← extended? lengthTable (symbol - 257) r
      let (symbol, r) ← distances.read? r
      let (distance, r) ← extended? distanceTable symbol r
      if out.size < distance then none
      else symbols? literals distances fuel r (copyBack out distance count)

/-- A block of stored bytes. -/
def stored? (r : Reader) (out : ByteArray) : Option (ByteArray × Reader) := do
  let r := r.align
  let start := r.bit / 8
  let length ← Bytes.little? r.data start 2
  let check ← Bytes.little? r.data (start + 2) 2
  guard (length + check = 0xffff)
  let bytes ← Bytes.slice? r.data (start + 4) length
  return (out ++ bytes, { r with bit := 8 * (start + 4 + length) })

/-- The fixed code of literals and lengths. -/
def fixedLiterals : Code :=
  .ofLengths (List.replicate 144 8 ++ List.replicate 112 9 ++ List.replicate 24 7 ++
    List.replicate 8 8)

/-- The fixed code of distances. -/
def fixedDistances : Code := .ofLengths (List.replicate 30 5)

/-- The order in which the lengths of the code of code lengths are sent. -/
def lengthOrder : List Nat := [16, 17, 18, 0, 8, 7, 9, 6, 10, 5, 11, 4, 12, 3, 13, 2, 14, 1, 15]

/-- Code lengths, latest first, until there are `count` of them. -/
def codeLengths? (code : Code) (count : Nat) : Nat → Reader → List Nat → Option (List Nat × Reader)
  | 0,        _, _       => none
  | fuel + 1, r, lengths =>
    if lengths.length = count then some (lengths, r)
    else if count < lengths.length then none
    else do
      let (symbol, r) ← code.read? r
      if symbol < 16 then codeLengths? code count fuel r (symbol :: lengths)
      else if symbol = 16 then
        let (more, r) ← r.bits? 2
        let last ← lengths.head?
        codeLengths? code count fuel r (List.replicate (3 + more) last ++ lengths)
      else if symbol = 17 then
        let (more, r) ← r.bits? 3
        codeLengths? code count fuel r (List.replicate (3 + more) 0 ++ lengths)
      else
        let (more, r) ← r.bits? 7
        codeLengths? code count fuel r (List.replicate (11 + more) 0 ++ lengths)

/-- The lengths of the code of code lengths, three bits each. -/
def orderLengths? : Nat → Reader → Option (List Nat × Reader)
  | 0,         r => some ([], r)
  | count + 1, r => do
    let (n, r) ← r.bits? 3
    let (rest, r) ← orderLengths? count r
    return (n :: rest, r)

/-- The codes sent with a block. -/
def dynamicCodes? (r : Reader) : Option (Code × Code × Reader) := do
  let (moreLiterals, r) ← r.bits? 5
  let (moreDistances, r) ← r.bits? 5
  let (moreOrder, r) ← r.bits? 4
  let (sent, r) ← orderLengths? (moreOrder + 4) r
  let order := lengthOrder.zip sent
  let code := Code.ofLengths ((List.range 19).map fun s => (order.lookup s).getD 0)
  let literals := moreLiterals + 257
  let (latest, r) ← codeLengths? code (literals + moreDistances + 1) (r.limit + 1) r []
  let lengths := latest.reverse
  let literalCode := Code.ofLengths (lengths.take literals)
  let distanceCode := Code.ofLengths (lengths.drop literals)
  guard (code.isSound && literalCode.isSound && distanceCode.isSound)
  return (literalCode, distanceCode, r)

/-- Blocks until the last one. -/
def blocks? : Nat → Reader → ByteArray → Option ByteArray
  | 0,        _, _   => none
  | fuel + 1, r, out => do
    let (last, r) ← r.bit?
    let (kind, r) ← r.bits? 2
    let (out, r) ←
      match kind with
      | 0 => stored? r out
      | 1 => symbols? fixedLiterals fixedDistances (r.limit + 1) r out
      | 2 => do
        let (literals, distances, r) ← dynamicCodes? r
        symbols? literals distances (r.limit + 1) r out
      | _ => none
    if last = 1 then return out else blocks? fuel r out

/-- The bytes of deflated data. -/
def inflate? (data : ByteArray) : Option ByteArray :=
  blocks? (8 * data.size + 1) ⟨data, 0⟩ ByteArray.empty

/-- The bytes of deflated data with a two-byte header before it. -/
def unwrap? (data : ByteArray) : Option ByteArray := do
  let method ← data[0]?
  let flags ← data[1]?
  guard (method &&& 0x0f == 8 && method.toNat >>> 4 ≤ 7 &&
    (256 * method.toNat + flags.toNat) % 31 == 0 && flags &&& 0x20 == 0)
  inflate? (data.extract 2 data.size)

end Prims.Inflate
