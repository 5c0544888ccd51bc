import Prims.Proofs.Geometry.Normal
import Prims.Proofs.Mesher.Winding

/-!
# Mesher — Normals

What is left after collapsed triangles have gone gets its normals (`shaded_of_pruned`), one for each
triangle.  A normal is of use when the squared length of the cross product is a positive finite single, which
it is for triangles of moderate size (`Point.Shades`).  It is not so for all: a tiny triangle is left although
its normal is zero, and so are huge ones (`rightTriangle_without_normal`).  Main statement:
`createMesh_shaded`, for every mesh that is pruned and then shaded, and for every mesh that a mesher delivers.
-/

namespace Prims

open Build Machine

/-- The normal serves the corners: it is of use exactly when their cross product can be measured, and is of
length one, but for a few roundings, when they are of moderate size. -/
structure Point.Shades (n : Point) (k : Corners) : Prop where
  usable_iff : n.Usable ↔ k.normalCross.Measurable
  unit : k.Moderate → n.Usable ∧ |n.exact.normSq - 1| ≤ 1 / 2 ^ 19

theorem Corners.normal_shades {k : Corners} (hflat : k.isFlat = false) : k.normal.Shades k :=
  ⟨k.usable_normal_iff, fun h => k.normal_unit h hflat⟩

namespace Mesh

variable {m pruned shaded : Mesh} {t : Triangle}

/-- One normal per triangle, each of which serves the corners; so all are of use exactly when all cross
products can be measured. -/
structure Shaded (m : Mesh) : Prop where
  each : List.Forall₂ (fun t n => n.Shades (m.cornersAt t)) m.triangles m.normals
  usable_iff : (∀ n ∈ m.normals, n.Usable) ↔ ∀ t ∈ m.triangles, (m.cornersAt t).normalCross.Measurable

theorem Shaded.of_each (h : List.Forall₂ (fun t n => n.Shades (m.cornersAt t)) m.triangles m.normals) :
    m.Shaded := by
  refine ⟨h, ?_⟩
  generalize m.triangles = triangles, m.normals = normals at h
  induction h with
  | nil => exact iff_of_true nofun nofun
  | cons hn _ ih => rw [List.forall_mem_cons, List.forall_mem_cons, hn.1, ih]

/-! ### Pruning and shading -/

/-- What a look at the elements of a list has found, when it succeeds. -/
theorem mapM_eq_some {α β : Type} {f : α → Option β} {g : α → β} (hg : ∀ a b, f a = some b → g a = b)
    {l : List α} {r : List β} (h : l.mapM f = some r) : r = l.map g := by
  induction l generalizing r with
  | nil =>
    cases h
    rfl
  | cons a l ih =>
    rw [List.mapM_cons] at h
    obtain ⟨b, hb, h⟩ := Option.bind_eq_some_iff.mp h
    obtain ⟨bs, hbs, h⟩ := Option.bind_eq_some_iff.mp h
    cases h
    rw [List.map_cons, hg a b hb, ← ih hbs]

theorem cornersAt_eq {k : Corners} (h : m.corners? t = some k) : m.cornersAt t = k := by
  unfold corners? at h
  split at h
  next a b c ha hb hc =>
    cases h
    rw [cornersAt, point, point, point, ha, hb, hc]
    rfl
  · cases h

/-- Pruning keeps the solid triangles. -/
theorem pruned_eq (h : m.removeDegenerate? = some pruned) :
    pruned.positions = m.positions ∧ pruned.triangles = m.solid := by
  obtain ⟨flags, hflags, h⟩ := Option.bind_eq_some_iff.mp h
  have hflags := mapM_eq_some (g := fun t => (m.degenerate? t).getD true)
    (fun t b hb => by rw [hb, Option.getD_some]) hflags
  cases h
  refine ⟨rfl, ?_⟩
  rw [hflags, List.map_map, retainFlagged_map]
  refine List.filter_congr fun t _ => ?_
  show (!(m.degenerate? t).getD true) = _
  rcases m.degenerate? t with _ | _ | _ <;> rfl

/-- Shading computes the normal of each triangle. -/
theorem shaded_eq (h : m.withNormals? = some shaded) :
    shaded = { m with normals := m.triangles.map fun t => (m.cornersAt t).normal } := by
  obtain ⟨corners, hcorners, h⟩ := Option.bind_eq_some_iff.mp h
  have hcorners := mapM_eq_some (g := m.cornersAt) (fun _ _ => cornersAt_eq) hcorners
  cases h
  rw [hcorners, List.map_map]
  rfl

/-- Solid triangles are not flat. -/
theorem isFlat_of_solid (h : t ∈ m.solid) : (m.cornersAt t).isFlat = false := by
  have hdegenerate := of_decide_eq_true (List.mem_filter.mp h).2
  unfold degenerate? at hdegenerate
  split at hdegenerate
  · cases hdegenerate
  · obtain ⟨k, hk, hflat⟩ := Option.map_eq_some_iff.mp hdegenerate
    rwa [cornersAt_eq hk]

/-- **What is left gets its normals.** -/
theorem shaded_of_pruned (hp : m.removeDegenerate? = some pruned) (hs : pruned.withNormals? = some shaded) :
    shaded.positions = m.positions ∧ shaded.triangles = m.solid ∧ shaded.Shaded := by
  obtain ⟨hpositions, htriangles⟩ := pruned_eq hp
  cases shaded_eq hs
  refine ⟨hpositions, htriangles, .of_each ?_⟩
  rw [List.forall₂_map_right_iff, List.forall₂_same]
  intro t ht
  refine Corners.normal_shades ?_
  rw [show pruned.cornersAt t = m.cornersAt t by
    unfold cornersAt point vertex?
    rw [hpositions]]
  exact isFlat_of_solid (htriangles ▸ ht)

end Mesh

/-! ### Delivered meshes -/

namespace Build

variable {α β : Type} {x : Build α} {f : α → Build β} {b : β}

/-- A build in two parts succeeds when both do. -/
theorem exists_of_bind (h : (x >>= f).result = .ok b) : ∃ a, x.result = .ok a ∧ (f a).result = .ok b := by
  rw [result_bind] at h
  cases hx : x.result with
  | error e =>
    rw [hx] at h
    cases h
  | ok a =>
    rw [hx] at h
    exact ⟨a, rfl, h⟩

theorem eq_some_of_ofOption {o : Option α} {a : α} (h : (ofOption o).result = .ok a) : o = some a := by
  cases o with
  | none => cases h
  | some a' =>
    cases h
    rfl

end Build

namespace Mesher

variable {m : Mesher} {r : Request} {mesh delivered : Mesh}

/-- A mesh that is delivered has been pruned and shaded. -/
theorem exists_of_createMesh (h : (m.createMesh r).result = .ok delivered) : ∃ wound pruned : Mesh,
    wound.removeDegenerate? = some pruned ∧ pruned.withNormals? = some delivered := by
  unfold createMesh at h
  split at h
  · cases h
  · split at h
    · cases h
    · obtain ⟨_, -, h⟩ := exists_of_bind h
      obtain ⟨kind, -, h⟩ := exists_of_bind h
      unfold dispatch at h
      split at h
      · cases h
      · obtain ⟨_, -, h⟩ := exists_of_bind h
        obtain ⟨mesh, -, h⟩ := exists_of_bind h
        obtain ⟨pruned, hpruned, h⟩ := exists_of_bind h
        obtain ⟨_, -, h⟩ := exists_of_bind h
        obtain ⟨shaded, hshaded, h⟩ := exists_of_bind h
        obtain ⟨_, -, h⟩ := exists_of_bind h
        cases h
        exact ⟨_, pruned, eq_some_of_ofOption hpruned, eq_some_of_ofOption hshaded⟩

/-- **Normals.**  A mesh in range can be pruned of its collapsed triangles and then shaded.  Each triangle
that is left gets a normal; it is finite and not zero exactly when the squared length of the cross product, in
singles, is positive and finite, and it has length one whenever the longest edge of the triangle is of
moderate length.  The same holds of every mesh that a mesher delivers. -/
theorem createMesh_shaded (hm : mesh.InRange) (m : Mesher) (r : Request) :
    (∃ pruned shaded, mesh.removeDegenerate? = some pruned ∧ pruned.withNormals? = some shaded ∧
      shaded.positions = mesh.positions ∧ shaded.triangles = mesh.solid ∧ shaded.Shaded) ∧
    ∀ delivered, (m.createMesh r).result = .ok delivered → delivered.Shaded := by
  refine ⟨?_, fun delivered h => ?_⟩
  · have hpruned := Mesh.removeDegenerate?_eq hm
    have hshaded := Mesh.withNormals?_eq (hm.retain fun t => !mesh.collapsed t)
    exact ⟨_, _, hpruned, hshaded, Mesh.shaded_of_pruned hpruned hshaded⟩
  · obtain ⟨wound, pruned, hpruned, hshaded⟩ := exists_of_createMesh h
    exact (Mesh.shaded_of_pruned hpruned hshaded).2.2

/-- A right triangle with legs of the given length. -/
def rightTriangle (leg : Float32) : Mesh := ⟨#[⟨0, 0, 0⟩, ⟨leg, 0, 0⟩, ⟨0, leg, 0⟩], [⟨0, 1, 2⟩], []⟩

/-- With legs of length one the triangle is of moderate size. -/
theorem rightTriangle_moderate : ((rightTriangle 1).cornersAt ⟨0, 1, 2⟩).Moderate := by
  have hcorners : (rightTriangle 1).cornersAt ⟨0, 1, 2⟩ = ⟨⟨0, 0, 0⟩, ⟨1, 0, 0⟩, ⟨0, 1, 0⟩⟩ := rfl
  have hzero : real (0 : Float32) = 0 := value_zero _
  have hexact (x y : Float32) : (⟨x, y, 0⟩ : Point).exact = ⟨real x, real y, 0⟩ :=
    congrArg (Vec.mk (real x) (real y)) hzero
  have hsub (x y x' y' : ℝ) : ((⟨x, y, 0⟩ : Vec ℝ) - ⟨x', y', 0⟩).normSq =
      (x - x') * (x - x') + (y - y') * (y - y') + (0 - 0) * (0 - 0) := rfl
  have hspan : ((rightTriangle 1).cornersAt ⟨0, 1, 2⟩).span = 2 := by
    rw [hcorners, Corners.span, hexact, hexact, hexact, hsub, hsub, hsub, hzero, Single.real_one.2]
    norm_num
  refine ⟨⟨⟨rfl, rfl, rfl⟩, ⟨Single.real_one.1, rfl, rfl⟩, rfl, Single.real_one.1, rfl⟩, ?_, ?_⟩
  · rw [hspan]
    norm_num
  · rw [hspan]
    norm_num

/-- The triangle gets a normal of length one, and a box of side one is delivered with normals of use. -/
theorem createMesh_shaded_units :
    (∃ pruned shaded, (rightTriangle 1).removeDegenerate? = some pruned ∧ pruned.withNormals? = some shaded ∧
      ∃ n, shaded.normals = [n] ∧ n.Usable ∧ |n.exact.normSq - 1| ≤ 1 / 2 ^ 19) ∧
    ∃ delivered, ((ofConfig noFiles .quiet).createMesh (boxOf ⟨1, 1, 1⟩)).result = .ok delivered ∧
      delivered.triangles.length = 12 ∧ ∀ n ∈ delivered.normals, n.Usable := by
  have hrange : (rightTriangle 1).InRange := by decide +kernel
  obtain ⟨⟨pruned, shaded, hpruned, hshaded, hpositions, htriangles, h⟩, hall⟩ :=
    createMesh_shaded hrange (ofConfig noFiles .quiet) (boxOf ⟨1, 1, 1⟩)
  have hsolid : (rightTriangle 1).solid = [⟨0, 1, 2⟩] := by decide +kernel
  obtain ⟨delivered, hdelivered, hlength, hmeasurable⟩ :
      ∃ delivered ∈ ((ofConfig noFiles .quiet).createMesh (boxOf ⟨1, 1, 1⟩)).result.toOption,
        delivered.triangles.length = 12 ∧
        ∀ t ∈ delivered.triangles, (delivered.cornersAt t).normalCross.Measurable := by
    decide +kernel
  have hdelivered := mem_toOption.mp hdelivered
  refine ⟨⟨pruned, shaded, hpruned, hshaded, ?_⟩, delivered, hdelivered, hlength,
    (hall delivered hdelivered).usable_iff.mpr hmeasurable⟩
  have heach := h.each
  rw [htriangles, hsolid, List.forall₂_cons_left_iff] at heach
  obtain ⟨n, normals, hn, hnormals, hlist⟩ := heach
  rw [List.forall₂_nil_left_iff] at hnormals
  refine ⟨n, by rw [hlist, hnormals], hn.2 ?_⟩
  rw [show shaded.cornersAt ⟨0, 1, 2⟩ = (rightTriangle 1).cornersAt ⟨0, 1, 2⟩ by
    unfold Mesh.cornersAt Mesh.point Mesh.vertex?
    rw [hpositions]]
  exact rightTriangle_moderate

/-- **Triangles that are left without a normal of use**: those of a tiny triangle and of a huge box. -/
theorem rightTriangle_without_normal :
    (∀ p ∈ (rightTriangle 1e-20).positions.toList, p.all Float32.isFinite = true) ∧
    (rightTriangle 1e-20).InRange ∧
    (∃ pruned shaded, (rightTriangle 1e-20).removeDegenerate? = some pruned ∧
      pruned.withNormals? = some shaded ∧ shaded.normals = [Point.origin]) ∧
    (boxOf ⟨1e10, 1e10, 1e10⟩).Finite ∧
    ∃ delivered, ((ofConfig noFiles .quiet).createMesh (boxOf ⟨1e10, 1e10, 1e10⟩)).result = .ok delivered ∧
      delivered.normals.length = 12 ∧ ∀ n ∈ delivered.normals, ¬ n.Usable := by
  have hpruned : ∃ pruned ∈ (rightTriangle 1e-20).removeDegenerate?, ∃ shaded ∈ pruned.withNormals?,
      shaded.normals = [Point.origin] := by
    decide +kernel
  have hdelivered : ∃ delivered ∈
      ((ofConfig noFiles .quiet).createMesh (boxOf ⟨1e10, 1e10, 1e10⟩)).result.toOption,
      delivered.normals.length = 12 ∧ ∀ n ∈ delivered.normals, ¬ n.Usable := by
    decide +kernel
  obtain ⟨pruned, hpruned, shaded, hshaded, hnormals⟩ := hpruned
  obtain ⟨delivered, hdelivered, hlength, hnone⟩ := hdelivered
  exact ⟨by decide +kernel, by decide +kernel, ⟨pruned, shaded, hpruned, hshaded, hnormals⟩,
    by decide +kernel, delivered, mem_toOption.mp hdelivered, hlength, hnone⟩

end Mesher

end Prims
