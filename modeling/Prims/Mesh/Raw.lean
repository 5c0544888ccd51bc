import Prims.Mesh.Basic
import Prims.Number.Decimal

/-!
# Mesh — Raw

The raw text of a mesh: a line per triangle with the coordinates of its corners, six decimals each.
-/

namespace Prims

/-- The nine coordinates, separated by spaces. -/
def Corners.rawLine (k : Corners) : String :=
  " ".intercalate ([k.a.x, k.a.y, k.a.z, k.b.x, k.b.y, k.b.z, k.c.x, k.c.y, k.c.z].map
    (Decimal.fixed 6))

/-- The lines of the raw text. -/
def Mesh.rawLines? (m : Mesh) : Option (List String) :=
  m.allCorners?.map (·.map Corners.rawLine)

/-- The raw text, a line end after every triangle. -/
def Mesh.rawText? (m : Mesh) : Option String :=
  m.rawLines?.map fun lines => String.join (lines.map (· ++ "\n"))

end Prims
