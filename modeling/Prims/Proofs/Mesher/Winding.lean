import Prims.Proofs.Geometry.Corners
import Prims.Proofs.Mesher.Errors

/-!
# Mesher — Winding

Mirrored sizes.  Whatever processor is registered, the mesh that is delivered is its mesh, finished
(`createMesh_delivers`), and flipping neither moves a vertex nor collapses a triangle (`collapsed_flip`).  The
parity of the negative components is read off a product of singles, whose sign is right wherever it is not
rounded to zero (`mirrors_iff`); with components that are not tiny it never is (`not_volumeVanishes`).  Main
statement: `createMesh_winding_iff`, with a box that stays inside out for its size.
-/

namespace Prims

open Build Machine

/-! ### The parity of a size -/

namespace Point

variable {p : Point}

/-- How many components are negative. -/
def negatives (p : Point) : Nat := p.coordinates.countP (· < 0)

/-- The product of the components is rounded to zero. -/
def VolumeVanishes (p : Point) : Prop := (p.x * p.y * p.z == 0) = true

instance (p : Point) : Decidable p.VolumeVanishes := inferInstanceAs (Decidable (_ = true))

open Float.Model.UnpackedFloat in
/-- The sign of a volume, by the components. -/
theorem volume_sign? {x y z : Float32} {s t u : Sign} {m n k : ℕ} {e f g : ℤ} {hm : 0 < m} {hn : 0 < n}
    {hk : 0 < k} (hx : parts x = .finite s m e hm) (hy : parts y = .finite t n f hn)
    (hz : parts z = .finite u k g hk) : sign? (parts (x * y * z)) = some (s * t * u) :=
  mul_sign? (mul_sign? (by rw [hx]; rfl) hy) hz

/-- **Mirrored sizes** have an odd number of negative components, and a volume that does not vanish. -/
theorem mirrors_iff (hfinite : p.all Float32.isFinite = true) (hzero : p.all (· != 0) = true) :
    Mesher.mirrors p = true ↔ Odd p.negatives ∧ ¬ p.VolumeVanishes := by
  obtain ⟨x, y, z⟩ := p
  simp only [Vec.all, Bool.and_eq_true, bne, Bool.not_eq_true'] at hfinite hzero
  obtain ⟨⟨hfx, hfy⟩, hfz⟩ := hfinite
  obtain ⟨⟨hzx, hzy⟩, hzz⟩ := hzero
  obtain ⟨s, m, e, hm, hx⟩ := Single.exists_parts hfx hzx
  obtain ⟨t, n, f, hn, hy⟩ := Single.exists_parts hfy hzy
  obtain ⟨u, k, g, hk, hz⟩ := Single.exists_parts hfz hzz
  have hodd : Odd (negatives ⟨x, y, z⟩) ↔ s * t * u = .negative := by
    rw [negatives, coordinates, ← beq_iff_eq]
    simp only [List.countP_cons, List.countP_nil, Single.decide_lt_zero hx, Single.decide_lt_zero hy,
      Single.decide_lt_zero hz]
    cases s <;> cases t <;> cases u <;> decide
  rw [Mesher.mirrors, decide_eq_true_iff, Single.lt_zero_iff, volume_sign? hx hy hz, Option.some_inj, hodd,
    VolumeVanishes, Single.beq_zero_iff]

/-- The least size of a component at which no volume vanishes. -/
noncomputable def leastSide : ℝ := 1 / ((2 ^ 49 : ℕ) : ℝ)

/-- **Components that are not tiny** have a volume that does not vanish. -/
theorem not_volumeVanishes (h : ∀ c ∈ p.coordinates, leastSide ≤ |real c|) : ¬ p.VolumeVanishes := by
  obtain ⟨x, y, z⟩ := p
  simp only [coordinates, List.forall_mem_cons] at h
  obtain ⟨hx, hy, hz, -⟩ := h
  intro hvanish
  obtain ⟨s, hzero⟩ := Single.beq_zero_iff.mp hvanish
  have hfinite : IsFinite (x * y * z) := by
    rw [IsFinite, hzero]
    rfl
  obtain ⟨hxy, hzf⟩ := finite_of_mul hfinite
  have hpos : 0 < leastSide := by norm_num [leastSide]
  have hbase : leastSide * leastSide ≤ |real x * real y| := by
    rw [abs_mul]
    exact mul_le_mul hx hy hpos.le (abs_nonneg _)
  have herror := mul_error hxy
  rw [Single.roundoff_format, Single.underflow_format] at herror
  have hbase' : leastSide * leastSide / 2 ≤ |real (x * y)| := by
    have htri := abs_sub_abs_le_abs_sub (real x * real y) (real (x * y))
    rw [abs_sub_comm] at htri
    have hunder : 1 / (2 : ℝ) ^ 150 ≤ leastSide * leastSide / 4 := by norm_num [leastSide]
    linarith [abs_nonneg (real x * real y)]
  have hvolume : leastSide * leastSide / 2 * leastSide ≤ |real (x * y) * real z| := by
    rw [abs_mul]
    exact mul_le_mul hbase' hz hpos.le (abs_nonneg _)
  have hreal : real (x * y * z) = 0 := by rw [real, hzero, value_zero]
  have hsmall := ((mul_results hxy hzf).real_eq_zero_iff hfinite).mp hreal
  rw [Single.underflow_format] at hsmall
  have hgap : 1 / (2 : ℝ) ^ 150 < leastSide * leastSide / 2 * leastSide := by norm_num [leastSide]
  linarith

end Point

/-! ### Wound meshes -/

namespace Triangle

/-- A triangle without repeated vertices is not wound both ways. -/
theorem flip_ne {t : Triangle} (h : t.repeats = false) : t.flip ≠ t := by
  intro heq
  have hv : t.v3 = t.v2 := congrArg Triangle.v2 heq
  simp [repeats, hv] at h

end Triangle

namespace Mesh

variable {m : Mesh}

/-- **Flipping collapses no triangle.** -/
theorem collapsed_flip (m : Mesh) (t : Triangle) : m.flip.collapsed t.flip = m.collapsed t := by
  unfold collapsed
  rw [t.repeats_flip]
  exact congrArg (t.repeats || ·) (m.cornersAt t).isFlat_flip

/-- The triangles that have not collapsed. -/
def solid (m : Mesh) : List Triangle := m.triangles.filter fun t => m.degenerate? t = some false

theorem solid_eq (hm : m.InRange) : m.solid = m.triangles.filter fun t => !m.collapsed t := by
  refine List.filter_congr fun t ht => ?_
  simp [degenerate?_eq (hm t ht)]

/-- Flipping and pruning go together. -/
theorem solid_flip (hm : m.InRange) : m.flip.solid = m.solid.map Triangle.flip := by
  rw [solid_eq hm, solid_eq hm.flip]
  show (m.triangles.map Triangle.flip).filter _ = _
  rw [List.filter_map]
  refine congrArg (List.map Triangle.flip) (List.filter_congr fun t _ => ?_)
  exact congrArg not (m.collapsed_flip t)

theorem map_flip_solid_eq_iff (hm : m.InRange) : m.solid.map Triangle.flip = m.solid ↔ m.solid = [] := by
  constructor
  · intro h
    rw [solid_eq hm] at h ⊢
    refine List.eq_nil_iff_forall_not_mem.mpr fun t ht => ?_
    have hkept := (List.mem_filter.mp ht).2
    rw [Bool.not_eq_true', collapsed, Bool.or_eq_false_iff] at hkept
    exact Triangle.flip_ne hkept.1 (List.map_inj_left.mp (h.trans (List.map_id _).symm) t ht)
  · intro h
    rw [h]
    rfl

end Mesh

namespace Mesher

variable {m : Mesher} {r : Request} {kind : PrimKind} {p : Processor} {mesh : Mesh}

/-- **Any mesher delivers** the finished mesh of the processor registered for the kind. -/
theorem createMesh_delivers (hr : r.Finite) (hk : r.shape.kind = .ok kind) (hp : m.processor? kind = some p)
    (hrun : (p.run kind r m.sink).result = .ok mesh) (hm : mesh.InRange) :
    (m.createMesh r).result = .ok (finished r mesh) := by
  have hdispatch : (m.dispatch kind r).result = .ok (finished r mesh) := by
    unfold dispatch
    rw [hp]
    exact (result_bind_ok rfl _).trans ((result_bind_ok hrun _).trans (finish_result hm kind r))
  simp only [createMesh, hr.1, hr.2, Bool.not_true, Bool.false_eq_true, if_false]
  exact (result_bind_ok (result_reportIf _ _) _).trans
    ((result_bind_ok (classify_result hk) _).trans hdispatch)

theorem finished_positions (r : Request) (mesh : Mesh) : (finished r mesh).positions = mesh.positions := by
  show (if mirrors r.size then mesh.flip else mesh).positions = _
  split
  · rfl
  · rfl

/-- What is delivered are the solid triangles, reversed when the size is mirrored. -/
theorem finished_triangles (hm : mesh.InRange) (r : Request) : (finished r mesh).triangles =
    if mirrors r.size then mesh.solid.map Triangle.flip else mesh.solid := by
  show ((if mirrors r.size then mesh.flip else mesh).triangles.filter _) = _
  split
  · rw [← Mesh.solid_flip hm, Mesh.solid_eq hm.flip]
  · rw [Mesh.solid_eq hm]

/-- **Mirrored sizes turn the faces outward, unless the volume vanishes.**  For a finite size without a zero,
whatever processor answers with a mesh in range, what is delivered are its positions and its triangles that
have not collapsed, in their order.  They are reversed when an odd number of components is negative, as they
should be, exactly when the product of the components is not rounded to zero or no triangle is left; with
components of at least `2⁻⁴⁹` it never is. -/
theorem createMesh_winding_iff (hr : r.Finite) (hsize : r.size.all (· != 0) = true)
    (hk : r.shape.kind = .ok kind) (hp : m.processor? kind = some p)
    (hrun : (p.run kind r m.sink).result = .ok mesh) (hm : mesh.InRange) :
    ∃ delivered, (m.createMesh r).result = .ok delivered ∧ delivered.positions = mesh.positions ∧
      delivered.triangles = (if Odd r.size.negatives ∧ ¬ r.size.VolumeVanishes then
        mesh.solid.map Triangle.flip else mesh.solid) ∧
      (delivered.triangles = (if Odd r.size.negatives then mesh.solid.map Triangle.flip else mesh.solid) ↔
        (Odd r.size.negatives → r.size.VolumeVanishes → mesh.solid = [])) ∧
      ((∀ c ∈ r.size.coordinates, Point.leastSide ≤ |real c|) → ¬ r.size.VolumeVanishes) := by
  have hmirrors := Point.mirrors_iff hr.1 hsize
  have htriangles : (finished r mesh).triangles = (if Odd r.size.negatives ∧ ¬ r.size.VolumeVanishes then
      mesh.solid.map Triangle.flip else mesh.solid) := by
    rw [finished_triangles hm, if_congr hmirrors rfl rfl]
  refine ⟨_, createMesh_delivers hr hk hp hrun hm, finished_positions r mesh, htriangles, ?_,
    Point.not_volumeVanishes⟩
  rw [htriangles]
  by_cases hodd : Odd r.size.negatives
  · rw [if_pos hodd]
    by_cases hvanish : r.size.VolumeVanishes
    · rw [if_neg fun h => h.2 hvanish, eq_comm, Mesh.map_flip_solid_eq_iff hm]
      exact ⟨fun h _ _ => h, fun h => h hodd hvanish⟩
    · rw [if_pos ⟨hodd, hvanish⟩]
      exact iff_of_true rfl fun _ h => absurd h hvanish
  · rw [if_neg hodd, if_neg fun h => hodd h.1]
    exact iff_of_true rfl fun h => absurd h hodd

/-- The hollow prism is mirrored, and its faces are reversed. -/
theorem createMesh_winding_iff_hollowPrism : hollowPrism.Finite ∧ hollowPrism.size.all (· != 0) = true ∧
    hollowPrism.shape.kind = .ok .prism ∧ Odd hollowPrism.size.negatives ∧ ¬ hollowPrism.size.VolumeVanishes ∧
    ∃ mesh delivered, (extrudePrim Overlay.difference .prism hollowPrism .disabled).result = .ok mesh ∧
      mesh.InRange ∧ ((ofConfig noFiles .quiet).createMesh hollowPrism).result = .ok delivered ∧
      delivered.positions = mesh.positions ∧ delivered.triangles = mesh.solid.map Triangle.flip := by
  have hr : hollowPrism.Finite := by decide +kernel
  have hsize : hollowPrism.size.all (· != 0) = true := by decide +kernel
  have hk : hollowPrism.shape.kind = .ok .prism := by decide +kernel
  have hodd : Odd hollowPrism.size.negatives := by decide +kernel
  have hvolume : ¬ hollowPrism.size.VolumeVanishes := by decide +kernel
  have hmesh : ∃ mesh ∈ (extrudePrim Overlay.difference .prism hollowPrism .disabled).result.toOption,
      mesh.InRange := by
    decide +kernel
  obtain ⟨mesh, hmesh, hrange⟩ := hmesh
  have hmesh := mem_toOption.mp hmesh
  obtain ⟨delivered, hdelivered, hpositions, htriangles, -⟩ :=
    createMesh_winding_iff (m := ofConfig noFiles .quiet) hr hsize hk rfl hmesh hrange
  exact ⟨hr, hsize, hk, hodd, hvolume, mesh, delivered, hmesh, hrange, hdelivered, hpositions,
    htriangles.trans (if_pos ⟨hodd, hvolume⟩)⟩

/-- A box of the given size. -/
def boxOf (size : Point) : Request := ⟨"box", Shape.box, size, 4⟩

/-- A box mirrored along one axis, of side `2⁻⁵³`. -/
def tinyBox : Request :=
  boxOf ⟨Float32.ofBits 0xa5000000, Float32.ofBits 0x25000000, Float32.ofBits 0x25000000⟩

/-- **The tiny box is delivered inside out**: its volume vanishes, and none of its faces is reversed. -/
theorem tinyBox_inside_out : tinyBox.Finite ∧ tinyBox.size.all (· != 0) = true ∧ Odd tinyBox.size.negatives ∧
    ∃ mesh delivered, (extrudePrim Overlay.difference .box tinyBox .disabled).result = .ok mesh ∧
      mesh.InRange ∧ ((ofConfig noFiles .quiet).createMesh tinyBox).result = .ok delivered ∧
      delivered.triangles = mesh.solid ∧ mesh.solid.length = 12 ∧
      delivered.triangles ≠ mesh.solid.map Triangle.flip := by
  have hdelivered : ∃ mesh ∈ (extrudePrim Overlay.difference .box tinyBox .disabled).result.toOption,
      ∃ delivered ∈ ((ofConfig noFiles .quiet).createMesh tinyBox).result.toOption, mesh.InRange ∧
        delivered.triangles = mesh.solid ∧ mesh.solid.length = 12 ∧
        delivered.triangles ≠ mesh.solid.map Triangle.flip := by
    decide +kernel
  obtain ⟨mesh, hmesh, delivered, hdelivered, hrange, hrest⟩ := hdelivered
  exact ⟨by decide +kernel, by decide +kernel, by decide +kernel, mesh, delivered, mem_toOption.mp hmesh,
    hrange, mem_toOption.mp hdelivered, hrest⟩

end Mesher

end Prims
