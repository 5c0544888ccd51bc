import Prims.Sorting

/-!
# Mesh — Triangle

Triangles as triples of vertex indices, and their undirected edges.
-/

namespace Prims

/-- An undirected edge, the smaller index first. -/
structure Edge where
  low  : UInt32
  high : UInt32
deriving DecidableEq, Inhabited

namespace Edge

/-- The edge between two vertices, whichever is named first. -/
def between (a b : UInt32) : Edge := if a ≤ b then ⟨a, b⟩ else ⟨b, a⟩

/-- Order by the smaller index, then by the larger. -/
def before (e f : Edge) : Bool := e.low < f.low || (e.low == f.low && e.high ≤ f.high)

def sort (edges : List Edge) : List Edge := sortBy before edges

end Edge

/-- Three vertex indices in winding order. -/
structure Triangle where
  v1 : UInt32
  v2 : UInt32
  v3 : UInt32
deriving DecidableEq, Inhabited

namespace Triangle

def indices (t : Triangle) : List UInt32 := [t.v1, t.v2, t.v3]

/-- The triangle uses the vertex. -/
def uses (t : Triangle) (v : UInt32) : Bool := t.v1 == v || t.v2 == v || t.v3 == v

def edges (t : Triangle) : List Edge :=
  [.between t.v1 t.v2, .between t.v2 t.v3, .between t.v3 t.v1]

/-- The directed edges, in winding order. -/
def arcs (t : Triangle) : List (UInt32 × UInt32) := [(t.v1, t.v2), (t.v2, t.v3), (t.v3, t.v1)]

/-- The same triangle with reversed winding. -/
def flip (t : Triangle) : Triangle := ⟨t.v1, t.v3, t.v2⟩

/-- Two of the indices are equal. -/
def repeats (t : Triangle) : Bool := t.v1 == t.v2 || t.v2 == t.v3 || t.v3 == t.v1

def map (f : UInt32 → UInt32) (t : Triangle) : Triangle := ⟨f t.v1, f t.v2, f t.v3⟩

end Triangle

end Prims
