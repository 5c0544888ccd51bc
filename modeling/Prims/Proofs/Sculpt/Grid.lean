import Prims.Proofs.Mesh.Basic
import Prims.Proofs.Sweep.Wall
import Prims.Proofs.Tiling.Rim
import Prims.Sculpt

/-!
# Sculpt — Grid

The quads of a sculpt map are walls over the links between its columns, between linked rows
(`arcsOf_grid`), and different pixels are different vertices (`pixelAt_inj`).  So no directed side is
used twice, and the reverse of a side is missing exactly along the first and the last row, unless the
last row is linked to the first, and along the first and the last column, unless those are linked
(`grid_topology`).
-/

namespace Prims.Sculpt

open Triangle

/-! ### Pixels -/

/-- The vertex of a pixel, given by its row and column. -/
def pixelAt (width : Nat) (v : Nat × Nat) : UInt32 := (v.1 * width + v.2).toUInt32

/-- A side of the grid, from the pixels at its ends. -/
def sideAt (width : Nat) : (Nat × Nat) × (Nat × Nat) → UInt32 × UInt32 :=
  Prod.map (pixelAt width) (pixelAt width)

/-- The pixel is on a map of this size. -/
def OnMap (width height : Nat) (v : Nat × Nat) : Prop := v.1 < height ∧ v.2 < width

variable {width height : Nat} {s : Stitching}

theorem toNat_pixelAt (hsize : width * height < 2 ^ 32) {v : Nat × Nat} (hv : OnMap width height v) :
    (pixelAt width v).toNat = width * v.1 + v.2 := by
  have hlt := row_major_lt hv.1 hv.2
  rw [← Nat.mul_comm v.1] at hlt ⊢
  exact Nat.mod_eq_of_lt (hlt.trans hsize)

/-- **Different pixels are different vertices.** -/
theorem pixelAt_inj (hsize : width * height < 2 ^ 32) {v v' : Nat × Nat} (hv : OnMap width height v)
    (hv' : OnMap width height v') (h : pixelAt width v = pixelAt width v') : v = v' := by
  have hnat := congrArg UInt32.toNat h
  rw [toNat_pixelAt hsize hv, toNat_pixelAt hsize hv'] at hnat
  obtain ⟨h₁, h₂⟩ := row_major_inj hv.2 hv'.2 hnat
  exact Prod.ext h₁ h₂

theorem index_eq (width height x y : Nat) :
    index width height x y = pixelAt width (y % height, x % width) := rfl

/-! ### Links between rows and between columns -/

/-- The last row or column is linked to the first. -/
def closes (side : Nat) (wraps : Bool) : Bool := wraps && 2 < side

theorem cells_eq (side : Nat) (wraps : Bool) :
    cells side wraps = if closes side wraps then side else side - 1 := rfl

theorem cells_le (side : Nat) (wraps : Bool) : cells side wraps ≤ side := by
  rw [cells_eq]
  split <;> omega

/-- The links of a side: a line, or a ring of three or more. -/
theorem cells_links {side : Nat} (h : 2 ≤ side) (wraps : Bool) :
    cells side wraps < side ∨ cells side wraps = side ∧ 3 ≤ side := by
  rw [cells_eq]
  split
  next hc =>
    simp only [closes, Bool.and_eq_true, decide_eq_true_eq] at hc
    omega
  next => omega

/-- Nothing is linked to the first row or column, unless the last one is. -/
theorem not_mem_stops {side : Nat} {wraps : Bool} {l : Nat × Nat} (hl : l ∈ links side (cells side wraps)) :
    l.1 ∉ (links side (cells side wraps)).map Prod.snd ↔ closes side wraps = false ∧ l.1 = 0 := by
  obtain ⟨a, b⟩ := l
  obtain ⟨ha, -⟩ := mem_links.mp hl
  have hle := cells_le side wraps
  simp only [mem_stops, mem_links]
  rw [cells_eq] at ha hle ⊢
  cases hc : closes side wraps <;> simp only [hc, if_true, if_false, Bool.false_eq_true] at ha hle ⊢
  · simp only [true_and]
    constructor
    · intro h
      by_contra h0
      exact h ⟨a - 1, by omega, by rw [Nat.sub_add_cancel (by omega), Nat.mod_eq_of_lt (by omega)]⟩
    · rintro rfl ⟨k, hk, e⟩
      rw [Nat.mod_eq_of_lt (by omega)] at e
      omega
  · refine iff_of_false (not_not.mpr ?_) (by simp)
    by_cases h0 : a = 0
    · exact ⟨side - 1, by omega, by rw [Nat.sub_add_cancel (by omega), Nat.mod_self, h0]⟩
    · exact ⟨a - 1, by omega, by rw [Nat.sub_add_cancel (by omega), Nat.mod_eq_of_lt (by omega)]⟩

/-- The last row or column is linked to nothing, unless it is to the first. -/
theorem not_mem_starts {side : Nat} {wraps : Bool} {l : Nat × Nat}
    (hl : l ∈ links side (cells side wraps)) :
    l.2 ∉ (links side (cells side wraps)).map Prod.fst ↔
      closes side wraps = false ∧ l.2 = side - 1 := by
  obtain ⟨a, b⟩ := l
  obtain ⟨ha, hb⟩ := mem_links.mp hl
  have hle := cells_le side wraps
  simp only [mem_starts, mem_links]
  rw [cells_eq] at ha hle ⊢
  have hlt : b < side := hb ▸ Nat.mod_lt _ (by omega)
  cases hc : closes side wraps <;> simp only [hc, if_true, if_false, Bool.false_eq_true] at ha hle ⊢
  · simp only [true_and]
    constructor
    · intro h
      by_contra h0
      exact h ⟨_, by omega, rfl⟩
    · rintro rfl ⟨k, hk, -⟩
      omega
  · exact iff_of_false (not_not.mpr ⟨_, hlt, rfl⟩) (by simp)

theorem exists_first {side : Nat} (h : 2 ≤ side) (wraps : Bool) :
    ∃ l ∈ links side (cells side wraps), l.1 = 0 := by
  refine ⟨(0, _), mem_links.mpr ⟨?_, rfl⟩, rfl⟩
  rw [cells_eq]
  split <;> omega

theorem exists_last {side : Nat} (h : 2 ≤ side) (wraps : Bool) :
    ∃ l ∈ links side (cells side wraps), l.2 = side - 1 := by
  refine ⟨(side - 2, _), mem_links.mpr ⟨?_, rfl⟩, ?_⟩
  · rw [cells_eq]
    split <;> omega
  · show (side - 2 + 1) % side = side - 1
    rw [Nat.mod_eq_of_lt (by omega)]
    omega

/-! ### The sides of the grid -/

/-- The sides of all quads, in coordinates. -/
def sides (width height : Nat) (s : Stitching) : List ((Nat × Nat) × (Nat × Nat)) :=
  gridSides (links height (cells height s.wrapsV)) (links width (cells width s.wrapsU))

theorem arcsOf_grid (width height : Nat) (s : Stitching) :
    arcsOf (gridTriangles width height s) = (sides width height s).map (sideAt width) := by
  unfold arcsOf gridTriangles sides gridSides links
  rw [List.flatMap_assoc, List.map_flatMap, List.flatMap_map]
  refine List.flatMap_congr fun y hy => ?_
  rw [List.flatMap_assoc, List.map_flatMap, List.flatMap_map]
  refine List.flatMap_congr fun x hx => ?_
  have hy : y % height = y :=
    Nat.mod_eq_of_lt ((List.mem_range.mp hy).trans_le (cells_le height s.wrapsV))
  have hx : x % width = x :=
    Nat.mod_eq_of_lt ((List.mem_range.mp hx).trans_le (cells_le width s.wrapsU))
  simp only [quad, index_eq, hx, hy]
  rfl

theorem onMap_sides {p : (Nat × Nat) × (Nat × Nat)} (hp : p ∈ sides width height s) :
    OnMap width height p.1 ∧ OnMap width height p.2 := by
  obtain ⟨l, hl, e, he, hp⟩ := mem_gridSides.mp hp
  obtain ⟨h₁, h₂⟩ := links_lt (cells_le _ _) l hl
  obtain ⟨h₃, h₄⟩ := links_lt (cells_le _ _) e he
  simp only [wallSides, List.mem_cons, List.not_mem_nil, or_false] at hp
  rcases hp with rfl | rfl | rfl | rfl | rfl | rfl <;>
    exact ⟨⟨by assumption, by assumption⟩, by assumption, by assumption⟩

/-- Every index of the grid is that of a pixel. -/
theorem gridTriangles_lt (hsize : width * height < 2 ^ 32) :
    ∀ t ∈ gridTriangles width height s, ∀ i ∈ t.indices, i.toNat < width * height := by
  intro t ht i hi
  obtain ⟨a, hmem, rfl⟩ := exists_arc_of_corner ht hi
  rw [arcsOf_grid] at hmem
  obtain ⟨p, hp, rfl⟩ := List.mem_map.mp hmem
  have hon := (onMap_sides hp).1
  show (pixelAt width p.1).toNat < _
  rw [toNat_pixelAt hsize hon]
  exact row_major_lt hon.1 hon.2

/-! ### Sides without a reverse -/

section Topology

variable (hsize : width * height < 2 ^ 32)

include hsize

theorem sideAt_inj {p q : (Nat × Nat) × (Nat × Nat)} (hp : OnMap width height p.1 ∧ OnMap width height p.2)
    (hq : OnMap width height q.1 ∧ OnMap width height q.2) (h : sideAt width p = sideAt width q) :
    p = q := by
  obtain ⟨h₁, h₂⟩ := Prod.mk.inj h
  exact Prod.ext (pixelAt_inj hsize hp.1 hq.1 h₁) (pixelAt_inj hsize hp.2 hq.2 h₂)

/-- The rim of the grid, in coordinates. -/
theorem mem_rim_grid {a : UInt32 × UInt32} : a ∈ rim (gridTriangles width height s) ↔
    ∃ p, (p ∈ sides width height s ∧ p.swap ∉ sides width height s) ∧ a = sideAt width p := by
  rw [mem_rim, arcsOf_grid]
  simp only [List.mem_map]
  constructor
  · rintro ⟨⟨p, hp, rfl⟩, hs⟩
    exact ⟨p, ⟨hp, fun h => hs ⟨p.swap, h, rfl⟩⟩, rfl⟩
  · rintro ⟨p, ⟨hp, hs⟩, rfl⟩
    refine ⟨⟨p, hp, rfl⟩, fun ⟨q, hq, h⟩ => hs ?_⟩
    have hon := onMap_sides hp
    rwa [← sideAt_inj hsize (onMap_sides hq) (q := p.swap) ⟨hon.2, hon.1⟩ h]

variable (hw : 2 ≤ width) (hh : 2 ≤ height)

include hw hh

/-- **No directed side of the grid is used twice.** -/
theorem arcsOf_grid_nodup (s : Stitching) : (arcsOf (gridTriangles width height s)).Nodup := by
  rw [arcsOf_grid]
  refine (gridSides_nodup (links_nodup _ _) (links_simple (cells_links hh _)) (links_nodup _ _)
    (links_simple (cells_links hw _))).map_on fun p hp q hq h => ?_
  exact sideAt_inj hsize (onMap_sides hp) (onMap_sides hq) h

/-- No side of the grid is a loop. -/
theorem ne_of_mem_grid {a : UInt32 × UInt32} (ha : a ∈ arcsOf (gridTriangles width height s)) :
    a.1 ≠ a.2 := by
  rw [arcsOf_grid] at ha
  obtain ⟨p, hp, rfl⟩ := List.mem_map.mp ha
  exact fun h => ne_gridSides (links_simple (cells_links hh _)) (links_simple (cells_links hw _)) hp
    (pixelAt_inj hsize (onMap_sides hp).1 (onMap_sides hp).2 h)

end Topology

/-! ### The border -/

/-- The sides along a row, left to right. -/
def rowSides (width height : Nat) (s : Stitching) (y : Nat) : List (UInt32 × UInt32) :=
  (List.range (cells width s.wrapsU)).map fun x => (index width height x y, index width height (x + 1) y)

/-- The sides along a column, downwards. -/
def columnSides (width height : Nat) (s : Stitching) (x : Nat) : List (UInt32 × UInt32) :=
  (List.range (cells height s.wrapsV)).map fun y => (index width height x y, index width height x (y + 1))

/-- The first row to the right and the last to the left. -/
def outerRows (width height : Nat) (s : Stitching) : List (UInt32 × UInt32) :=
  rowSides width height s 0 ++ (rowSides width height s (height - 1)).map Prod.swap

/-- The first column upwards and the last downwards. -/
def outerColumns (width height : Nat) (s : Stitching) : List (UInt32 × UInt32) :=
  (columnSides width height s 0).map Prod.swap ++ columnSides width height s (width - 1)

/-- The sides at which the grid is open: the outer rows when they are not linked, and the outer columns
when they are not. -/
def border (width height : Nat) (s : Stitching) : List (UInt32 × UInt32) :=
  (if closes height s.wrapsV then [] else outerRows width height s) ++
    if closes width s.wrapsU then [] else outerColumns width height s

theorem mem_rowSides {y : Nat} (hy : y < height) {a : UInt32 × UInt32} :
    a ∈ rowSides width height s y ↔
      ∃ e ∈ links width (cells width s.wrapsU), a = sideAt width ((y, e.1), (y, e.2)) := by
  simp only [rowSides, links, List.mem_map, List.mem_range, exists_exists_and_eq_and, index_eq,
    Nat.mod_eq_of_lt hy]
  constructor
  · rintro ⟨x, hx, rfl⟩
    exact ⟨x, hx, by rw [Nat.mod_eq_of_lt (hx.trans_le (cells_le _ _))]; rfl⟩
  · rintro ⟨x, hx, rfl⟩
    exact ⟨x, hx, by rw [Nat.mod_eq_of_lt (hx.trans_le (cells_le _ _))]; rfl⟩

theorem mem_columnSides {x : Nat} (hx : x < width) {a : UInt32 × UInt32} :
    a ∈ columnSides width height s x ↔
      ∃ l ∈ links height (cells height s.wrapsV), a = sideAt width ((l.1, x), (l.2, x)) := by
  simp only [columnSides, links, List.mem_map, List.mem_range, exists_exists_and_eq_and, index_eq,
    Nat.mod_eq_of_lt hx]
  constructor
  · rintro ⟨y, hy, rfl⟩
    exact ⟨y, hy, by rw [Nat.mod_eq_of_lt (hy.trans_le (cells_le _ _))]; rfl⟩
  · rintro ⟨y, hy, rfl⟩
    exact ⟨y, hy, by rw [Nat.mod_eq_of_lt (hy.trans_le (cells_le _ _))]; rfl⟩

theorem mem_outerRows (hh : 0 < height) {a : UInt32 × UInt32} : a ∈ outerRows width height s ↔
    ∃ e ∈ links width (cells width s.wrapsU), a = sideAt width ((0, e.1), (0, e.2)) ∨
      a = sideAt width ((height - 1, e.2), (height - 1, e.1)) := by
  simp only [outerRows, List.mem_append, List.mem_map, mem_rowSides hh, and_or_left, exists_or,
    mem_rowSides (Nat.sub_lt hh Nat.one_pos)]
  refine or_congr_right ⟨?_, ?_⟩
  · rintro ⟨_, ⟨e, he, rfl⟩, rfl⟩
    exact ⟨e, he, rfl⟩
  · rintro ⟨e, he, rfl⟩
    exact ⟨_, ⟨e, he, rfl⟩, rfl⟩

theorem mem_outerColumns (hw : 0 < width) {a : UInt32 × UInt32} : a ∈ outerColumns width height s ↔
    ∃ l ∈ links height (cells height s.wrapsV), a = sideAt width ((l.2, 0), (l.1, 0)) ∨
      a = sideAt width ((l.1, width - 1), (l.2, width - 1)) := by
  simp only [outerColumns, List.mem_append, List.mem_map, mem_columnSides hw, and_or_left, exists_or,
    mem_columnSides (Nat.sub_lt hw Nat.one_pos)]
  refine or_congr_left ⟨?_, ?_⟩
  · rintro ⟨_, ⟨l, hl, rfl⟩, rfl⟩
    exact ⟨l, hl, rfl⟩
  · rintro ⟨l, hl, rfl⟩
    exact ⟨_, ⟨l, hl, rfl⟩, rfl⟩

theorem mem_border {a : UInt32 × UInt32} : a ∈ border width height s ↔
    (closes height s.wrapsV = false ∧ a ∈ outerRows width height s) ∨
      (closes width s.wrapsU = false ∧ a ∈ outerColumns width height s) := by
  unfold border
  rw [List.mem_append]
  cases closes height s.wrapsV <;> cases closes width s.wrapsU <;> simp

/-- **The grid is open at its border.** -/
theorem mem_rim_iff_border (hw : 2 ≤ width) (hh : 2 ≤ height) (hsize : width * height < 2 ^ 32)
    {a : UInt32 × UInt32} :
    a ∈ rim (gridTriangles width height s) ↔ a ∈ border width height s := by
  have hopen := fun p => gridSides_open_iff (p := p)
    (links_simple (cells_links hh s.wrapsV)) (links_simple (cells_links hw s.wrapsU))
  rw [mem_rim_grid hsize, mem_border, mem_outerRows (by omega), mem_outerColumns (by omega)]
  simp only [sides, hopen]
  constructor
  · rintro ⟨p, ⟨l, hl, e, he, h⟩, rfl⟩
    rw [not_mem_stops hl, not_mem_starts hl, not_mem_stops he, not_mem_starts he] at h
    rcases h with ⟨⟨hc, h⟩, rfl⟩ | ⟨⟨hc, h⟩, rfl⟩ | ⟨⟨hc, h⟩, rfl⟩ | ⟨⟨hc, h⟩, rfl⟩
    · exact .inl ⟨hc, e, he, .inl (by rw [h])⟩
    · exact .inl ⟨hc, e, he, .inr (by rw [h])⟩
    · exact .inr ⟨hc, l, hl, .inr (by rw [h])⟩
    · exact .inr ⟨hc, l, hl, .inl (by rw [h])⟩
  · rintro (⟨hc, e, he, rfl | rfl⟩ | ⟨hc, l, hl, rfl | rfl⟩)
    · obtain ⟨l, hl, h⟩ := exists_first hh s.wrapsV
      exact ⟨_, ⟨l, hl, e, he, .inl ⟨(not_mem_stops hl).mpr ⟨hc, h⟩, rfl⟩⟩, by rw [h]⟩
    · obtain ⟨l, hl, h⟩ := exists_last hh s.wrapsV
      exact ⟨_, ⟨l, hl, e, he, .inr (.inl ⟨(not_mem_starts hl).mpr ⟨hc, h⟩, rfl⟩)⟩, by rw [h]⟩
    · obtain ⟨e, he, h⟩ := exists_first hw s.wrapsU
      exact ⟨_, ⟨l, hl, e, he, .inr (.inr (.inr ⟨(not_mem_stops he).mpr ⟨hc, h⟩, rfl⟩))⟩, by rw [h]⟩
    · obtain ⟨e, he, h⟩ := exists_last hw s.wrapsU
      exact ⟨_, ⟨l, hl, e, he, .inr (.inr (.inl ⟨(not_mem_starts he).mpr ⟨hc, h⟩, rfl⟩))⟩, by rw [h]⟩

/-! ### Maps -/

theorem grid_vertexCount (map : Raster) (s : Stitching) :
    (grid map s).vertexCount = map.width * map.height :=
  (Array.size_map ..).trans map.size_eq

theorem grid_inRange {map : Raster} (hsize : map.width * map.height < 2 ^ 32) (s : Stitching) :
    (grid map s).InRange := by
  rw [Mesh.InRange, grid_vertexCount]
  exact gridTriangles_lt hsize

/-- **The topology of sculpt grids.**  Every pixel is a vertex, indices are in range and no directed side
is used twice.  The reverse of a side is missing exactly at the border, that is, along the first and the
last row unless those are linked, and along the first and the last column unless those are.  So with more
than two rows and columns a torus is closed, each of its edges used twice in opposite directions; a sphere
and a cylinder are open along the first and the last row, and a plane all around. -/
theorem grid_topology {map : Raster} (s : Stitching) (hw : 2 ≤ map.width) (hh : 2 ≤ map.height)
    (hsize : map.width * map.height < 2 ^ 31) :
    let m := grid map s
    m.vertexCount = map.width * map.height ∧
    (∀ i ∈ m.indexBuffer, i.toNat < map.width * map.height) ∧
    (arcsOf m.triangles).Nodup ∧
    (∀ a, (a ∈ arcsOf m.triangles ∧ a.swap ∉ arcsOf m.triangles) ↔ a ∈ border map.width map.height s) ∧
    (2 < map.width → 2 < map.height →
      (s = .torus → ∀ a ∈ arcsOf m.triangles, (arcsOf m.triangles).count a = 1 ∧
        (arcsOf m.triangles).count a.swap = 1 ∧ (edgesOf m.triangles).count (Edge.ofArc a) = 2) ∧
      (s = .sphere ∨ s = .cylinder → ∀ a, (a ∈ arcsOf m.triangles ∧ a.swap ∉ arcsOf m.triangles) ↔
        a ∈ outerRows map.width map.height s) ∧
      (s = .plane ∨ s = .none → ∀ a, (a ∈ arcsOf m.triangles ∧ a.swap ∉ arcsOf m.triangles) ↔
        a ∈ outerRows map.width map.height s ∨ a ∈ outerColumns map.width map.height s)) := by
  intro m
  have hsize : map.width * map.height < 2 ^ 32 := hsize.trans (by decide)
  have hnodup : (arcsOf m.triangles).Nodup := arcsOf_grid_nodup hsize hw hh s
  have hrim : ∀ a, (a ∈ arcsOf m.triangles ∧ a.swap ∉ arcsOf m.triangles) ↔
      a ∈ border map.width map.height s :=
    fun a => mem_rim.symm.trans (mem_rim_iff_border hw hh hsize)
  refine ⟨grid_vertexCount map s, fun i hi => ?_, hnodup, hrim, fun hw' hh' => ⟨?_, ?_, ?_⟩⟩
  · obtain ⟨t, ht, hi⟩ := m.mem_indexBuffer.mp hi
    exact gridTriangles_lt hsize t ht i hi
  · rintro rfl a ha
    have hswap : a.swap ∈ arcsOf m.triangles := by
      by_contra h
      have hb := (hrim a).mp ⟨ha, h⟩
      rw [mem_border] at hb
      simp [closes, Stitching.wrapsU, Stitching.wrapsV, hw', hh'] at hb
    have hne : a.swap ≠ a := fun h => ne_of_mem_grid hsize hw hh ha (congrArg Prod.snd h)
    have h₁ := List.count_eq_one_of_mem hnodup ha
    have h₂ := List.count_eq_one_of_mem hnodup hswap
    exact ⟨h₁, h₂, by rw [edgesOf_eq, count_ofArc hne, h₁, h₂]⟩
  · intro hs a
    rw [hrim, mem_border]
    rcases hs with rfl | rfl <;> simp [closes, Stitching.wrapsU, Stitching.wrapsV, hw']
  · intro hs a
    rw [hrim, mem_border]
    rcases hs with rfl | rfl <;> simp [closes, Stitching.wrapsU, Stitching.wrapsV]

/-- The smallest torus. -/
theorem grid_topology_torus : (grid (Raster.ofFn 3 3 fun _ _ => default) .torus).triangleCount = 18 ∧
    ∀ a ∈ arcsOf (grid (Raster.ofFn 3 3 fun _ _ => default) .torus).triangles,
      (edgesOf (grid (Raster.ofFn 3 3 fun _ _ => default) .torus).triangles).count (Edge.ofArc a) = 2 := by
  refine ⟨by decide +kernel, fun a ha => ?_⟩
  obtain ⟨-, -, -, -, hclosed⟩ := @grid_topology (Raster.ofFn 3 3 fun _ _ => default) .torus
    (by decide) (by decide) (by decide)
  exact ((hclosed (by decide) (by decide)).1 rfl a ha).2.2

/-! ### Shrunken maps -/

/-- **Shrinking** keeps two rows and columns and ends within the budget, or at a map of two by two. -/
theorem shrink_sides (budget : Nat) (map : Raster) (hw : 2 ≤ map.width) (hh : 2 ≤ map.height) :
    2 ≤ (shrink budget map).width ∧ 2 ≤ (shrink budget map).height ∧
      (shrink budget map).width * (shrink budget map).height ≤ max budget 4 := by
  fun_induction shrink budget map with
  | case1 map h ih =>
    exact ih (by simp [halved]) (by simp [halved])
  | case2 map h =>
    refine ⟨hw, hh, ?_⟩
    rcases Nat.lt_or_ge budget (map.width * map.height) with hlt | hle
    · -- beyond the budget both sides are two
      have hw2 : map.width = 2 := by omega
      have hh2 : map.height = 2 := by omega
      rw [hw2, hh2]
      exact Nat.le_max_right _ _
    · exact hle.trans (Nat.le_max_left _ _)

theorem budget_le (detail : Float32) : budget detail ≤ 4096 := by
  have hside : detailSide detail ≤ 64 := by
    unfold detailSide leastDetail mostDetail
    omega
  exact Nat.mul_le_mul hside hside

/-- Within any budget of a level of detail the grid is in range. -/
theorem shrink_grid_inRange {map : Raster} (hw : 2 ≤ map.width) (hh : 2 ≤ map.height) (detail : Float32)
    (s : Stitching) : (grid (shrink (budget detail) map) s).InRange := by
  have hle := (shrink_sides (budget detail) map hw hh).2.2
  have hbudget := budget_le detail
  exact grid_inRange (by omega) s

end Prims.Sculpt
