import Mathlib.Tactic.Tauto
import Prims.Build.Basic
import Prims.Triangulation

/-!
# Mesh — Basic

The flat lists a mesh is handed out as, and looks at its vertices.  When every triangle names vertices
that are there (`Mesh.InRange`), each operation that looks succeeds, and there is an equation for its
result without options: `removeOutside?_eq`, `removeDegenerate?_eq`, `withNormals?_eq`,
`orientUp?_eq`, and `dump_result` for the raw text.
-/

namespace Prims

open Triangle

/-- The coordinates one after the other. -/
def Point.coordinates (p : Point) : List Float32 := [p.x, p.y, p.z]

/-- The corners, one after the other. -/
def Corners.points (k : Corners) : List Point := [k.a, k.b, k.c]

theorem Triangle.uses_iff {t : Triangle} {i : UInt32} : t.uses i = true ↔ i ∈ t.indices := by
  simp only [uses, indices, Bool.or_eq_true, beq_iff_eq, List.mem_cons, List.not_mem_nil, or_false,
    or_assoc, @eq_comm _ i]

namespace Mesh

/-! ### Flat lists -/

section Buffers

variable (m : Mesh)

def positionBuffer : List Float32 := m.positions.toList.flatMap Point.coordinates

def indexBuffer : List UInt32 := m.triangles.flatMap indices

def normalBuffer : List Float32 := m.normals.flatMap Point.coordinates

theorem length_positionBuffer : m.positionBuffer.length = 3 * m.vertexCount := by
  simp [positionBuffer, Point.coordinates, vertexCount, List.map_const', Nat.mul_comm]

theorem length_indexBuffer : m.indexBuffer.length = 3 * m.triangleCount := by
  simp [indexBuffer, indices, triangleCount, List.map_const', Nat.mul_comm]

theorem length_normalBuffer : m.normalBuffer.length = 3 * m.normals.length := by
  simp [normalBuffer, Point.coordinates, List.map_const', Nat.mul_comm]

theorem mem_indexBuffer {i : UInt32} : i ∈ m.indexBuffer ↔ ∃ t ∈ m.triangles, i ∈ t.indices :=
  List.mem_flatMap

end Buffers

/-! ### Looking at vertices -/

/-- The position of a vertex that is there. -/
def point (m : Mesh) (i : UInt32) : Point := (m.vertex? i).getD Point.origin

/-- The corners of a triangle whose vertices are there. -/
def cornersAt (m : Mesh) (t : Triangle) : Corners := ⟨m.point t.v1, m.point t.v2, m.point t.v3⟩

variable {m : Mesh} {i : UInt32}

theorem vertex?_eq (hi : i.toNat < m.vertexCount) : m.vertex? i = some (m.point i) := by
  unfold point vertex?
  rw [Array.getElem?_eq_getElem hi]
  rfl

/-- A look at elements that are all there. -/
theorem mapM_some {α β : Type} {f : α → Option β} {g : α → β} :
    ∀ {l : List α}, (∀ x ∈ l, f x = some (g x)) → l.mapM f = some (l.map g)
  | [], _ => rfl
  | a :: l, h => by
    rw [List.mapM_cons, h a List.mem_cons_self, mapM_some fun x hx => h x (List.mem_cons_of_mem _ hx)]
    rfl

/-- A look at the elements of a list, if it succeeds, finds one thing for each. -/
theorem length_of_mapM {α β : Type} {f : α → Option β} {l : List α} {r : List β}
    (h : l.mapM f = some r) : r.length = l.length := by
  induction l generalizing r with
  | nil =>
    cases h
    rfl
  | cons a l ih =>
    rw [List.mapM_cons] at h
    obtain ⟨b, -, h⟩ := Option.bind_eq_some_iff.mp h
    obtain ⟨bs, hbs, h⟩ := Option.bind_eq_some_iff.mp h
    cases h
    rw [List.length_cons, List.length_cons, ih hbs]

theorem corners?_eq {t : Triangle} (ht : ∀ i ∈ t.indices, i.toNat < m.vertexCount) :
    m.corners? t = some (m.cornersAt t) := by
  rw [corners?, vertex?_eq (ht t.v1 (by simp [indices])), vertex?_eq (ht t.v2 (by simp [indices])),
    vertex?_eq (ht t.v3 (by simp [indices]))]
  rfl

theorem allCorners?_eq (h : m.InRange) : m.allCorners? = some (m.triangles.map m.cornersAt) :=
  mapM_some fun t ht => corners?_eq (h t ht)

/-- A filter on faces, by their corners. -/
theorem filter_zip_map {α β : Type} (f : α → β) (p : β → Bool) (l : List α) :
    ((l.zip (l.map f)).filter fun x => p x.2).map Prod.fst = l.filter fun a => p (f a) := by
  induction l with
  | nil => rfl
  | cons a l ih =>
    rw [List.map_cons, List.zip_cons_cons, List.filter_cons, List.filter_cons]
    split
    · rw [List.map_cons, ih]
    · exact ih

theorem map_zip_map {α β γ : Type} (f : α → β) (g : α × β → γ) (l : List α) :
    (l.zip (l.map f)).map g = l.map fun a => g (a, f a) := by
  induction l with
  | nil => rfl
  | cons a l ih => rw [List.map_cons, List.zip_cons_cons, List.map_cons, List.map_cons, ih]

/-- Flags that are read off the triangles. -/
theorem retainFlagged_map (m : Mesh) (keep : Triangle → Bool) :
    m.retainFlagged (m.triangles.map keep) = m.retain keep := by
  unfold retainFlagged retain
  rw [filter_zip_map keep fun b => b]

/-! ### Operations that look at vertices -/

theorem removeOutside?_eq (hm : m.InRange) (h : Hull) :
    m.removeOutside? h = some (m.retain fun t => h.contains (m.cornersAt t).centroid) := by
  rw [removeOutside?, allCorners?_eq hm, ← retainFlagged_map]
  simp only [Option.bind_eq_bind, Option.bind_some, Option.pure_def, List.map_map]
  rfl

/-- The triangle uses a vertex twice, or its corners are on a line. -/
def collapsed (m : Mesh) (t : Triangle) : Bool := t.repeats || (m.cornersAt t).isFlat

theorem degenerate?_eq {t : Triangle} (ht : ∀ i ∈ t.indices, i.toNat < m.vertexCount) :
    m.degenerate? t = some (m.collapsed t) := by
  rw [degenerate?, collapsed, corners?_eq ht]
  cases t.repeats <;> rfl

theorem removeDegenerate?_eq (hm : m.InRange) :
    m.removeDegenerate? = some (m.retain fun t => !m.collapsed t) := by
  rw [removeDegenerate?, mapM_some fun t ht => degenerate?_eq (hm t ht), ← retainFlagged_map]
  simp only [Option.bind_eq_bind, Option.bind_some, Option.pure_def, List.map_map]
  rfl

theorem withNormals?_eq (hm : m.InRange) : m.withNormals? =
    some { m with normals := m.triangles.map fun t => (m.cornersAt t).normal } := by
  rw [withNormals?, allCorners?_eq hm]
  simp only [Option.bind_eq_bind, Option.bind_some, Option.pure_def, List.map_map]
  rfl

theorem orientUp?_eq (hm : m.InRange) : m.orientUp? = some { m with
    triangles := m.triangles.map fun t => if (m.cornersAt t).turn = .right then t.flip else t } := by
  unfold orientUp?
  rw [allCorners?_eq hm]
  simp only [Option.bind_eq_bind, Option.bind_some, Option.pure_def, map_zip_map]

/-- A whole mesh can be dumped. -/
theorem dump_result (hm : m.InRange) (sink : DumpSink) (prim stage : String) :
    (sink.dump m prim stage).result = .ok () := by
  cases sink with
  | disabled => rfl
  | directory takes =>
    unfold DumpSink.dump
    dsimp only
    split
    · rw [rawLines?, allCorners?_eq hm]
      rfl
    · rfl

/-! ### Indices in range -/

theorem toNat_pred {i : UInt32} (h : 0 < i.toNat) : (i - 1).toNat = i.toNat - 1 :=
  UInt32.toNat_sub_of_le _ _ (UInt32.le_iff_toNat_le.mpr h)

theorem indexAfter_of_lt {removed i : UInt32} (h : removed.toNat < i.toNat) :
    indexAfter removed i = i - 1 := if_pos (UInt32.lt_iff_toNat_lt.mpr h)

theorem indexAfter_of_le {removed i : UInt32} (h : i.toNat ≤ removed.toNat) :
    indexAfter removed i = i := if_neg fun h' => Nat.not_lt.mpr h (UInt32.lt_iff_toNat_lt.mp h')

theorem mem_flip_indices {t : Triangle} : i ∈ t.flip.indices ↔ i ∈ t.indices := by
  simp only [Triangle.flip, indices, List.mem_cons, List.not_mem_nil, or_false]
  tauto

/-- Fewer triangles and more vertices keep the triangles in range. -/
theorem InRange.mono {m' : Mesh} (hm : m.InRange) (hcount : m.vertexCount ≤ m'.vertexCount)
    (hsub : ∀ t ∈ m'.triangles, t ∈ m.triangles) : m'.InRange :=
  fun t ht i hi => Nat.lt_of_lt_of_le (hm t (hsub t ht) i hi) hcount

theorem InRange.addTriangle (hm : m.InRange) {t : Triangle}
    (ht : ∀ i ∈ t.indices, i.toNat < m.vertexCount) : (m.addTriangle t).InRange := by
  intro s hs
  rcases List.mem_append.mp hs with hs | hs
  · exact hm s hs
  · rw [List.mem_singleton.mp hs]
    exact ht

theorem InRange.retain (hm : m.InRange) (keep : Triangle → Bool) : (m.retain keep).InRange :=
  hm.mono (Nat.le_refl _) fun _ ht => (List.mem_filter.mp ht).1

theorem InRange.flip (hm : m.InRange) : m.flip.InRange := by
  intro t ht i hi
  obtain ⟨s, hs, rfl⟩ := List.mem_map.mp ht
  exact hm s hs i (mem_flip_indices.mp hi)

theorem InRange.mapVertices (hm : m.InRange) (f : Point → Point) : (m.mapVertices f).InRange :=
  hm.mono (by simp [Mesh.mapVertices, vertexCount]) fun _ ht => ht

end Mesh

end Prims
