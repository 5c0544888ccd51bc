/-!
# Image — Bytes

Numbers and pieces of byte arrays; what lies beyond the end has no value.
-/

namespace Prims.Bytes

/-- The bytes from `start` on, `count` of them. -/
def slice? (b : ByteArray) (start count : Nat) : Option ByteArray :=
  if start + count ≤ b.size then some (b.extract start (start + count)) else none

/-- The number of `count` bytes from `start` on, the first byte weighing least. -/
def little? (b : ByteArray) (start : Nat) : Nat → Option Nat
  | 0         => some 0
  | count + 1 => do
    let low ← b[start]?
    let high ← little? b (start + 1) count
    return low.toNat + 256 * high

/-- The number of `count` bytes from `start` on, the first byte weighing most. -/
def big? (b : ByteArray) (start count : Nat) : Option Nat :=
  (List.range count).foldlM (fun n i => (b[start + i]?).map fun byte => 256 * n + byte.toNat) 0

/-- A number of 32 bits as a signed one. -/
def signed32 (n : Nat) : Int := if n < Nat.pow 2 31 then n else (n : Int) - Nat.pow 2 32

end Prims.Bytes
