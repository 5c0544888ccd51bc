import Prims.Mesher.Basic
import Prims.Proofs.Sculpt.Grid
import Prims.Proofs.Sphere.Builder
import Prims.Proofs.Sweep.Layout
import Prims.Proofs.Triangulation.Result

/-!
# Mesher — Delivery

What a mesher with the standard processors delivers, whatever the polygon difference and the image decoder
answer.  Every processor ends with a mesh in range or with one of its own errors (`extrudePrim_ends`,
`spherePrim_ends`, `sculptPrim_ends`), and a mesh in range is always finished, free of collapsed triangles
and with the normal of each triangle (`finish_ends`).  So every request ends (`createMesh_cases`), no build
looks at a vertex that is not there, and every mesh that is delivered is well formed
(`createMesh_wellFormed`).
-/

namespace Prims

/-! ### How builds end -/

theorem mem_toOption {ε α : Type} {x : Except ε α} {a : α} : a ∈ x.toOption ↔ x = .ok a := by
  cases x <;> simp [Except.toOption]

namespace Build

variable {α β : Type} {E E' : MeshError → Prop} {P P' : α → Prop} {Q : β → Prop} {x : Build α}

/-- The build ends with a result that has `P` or an error that has `E`, and not at a vertex that is not
there. -/
def Ends (x : Build α) (E : MeshError → Prop) (P : α → Prop) : Prop :=
  (∃ a, x.result = .ok a ∧ P a) ∨ ∃ e, x.result = .error (.error e) ∧ E e

namespace Ends

theorem of_ok {a : α} (h : x.result = .ok a) (ha : P a) : x.Ends E P := .inl ⟨a, h, ha⟩

theorem fail {e : MeshError} (he : E e) : (Build.fail e : Build α).Ends E P := .inr ⟨e, rfl, he⟩

theorem mono (h : x.Ends E P) (hE : ∀ e, E e → E' e) (hP : ∀ a, P a → P' a) : x.Ends E' P' := by
  rcases h with ⟨a, h, ha⟩ | ⟨e, h, he⟩
  · exact .inl ⟨a, h, hP a ha⟩
  · exact .inr ⟨e, h, hE e he⟩

theorem bind {f : α → Build β} (h : x.Ends E P) (hf : ∀ a, x.result = .ok a → P a → (f a).Ends E Q) :
    (x >>= f).Ends E Q := by
  rcases h with ⟨a, h, ha⟩ | ⟨e, h, he⟩
  · rcases hf a h ha with ⟨b, hb, hQ⟩ | ⟨e, hb, he⟩
    · exact .inl ⟨b, (result_bind_ok h f).trans hb, hQ⟩
    · exact .inr ⟨e, (result_bind_ok h f).trans hb, he⟩
  · refine .inr ⟨e, ?_, he⟩
    rw [result_bind, h]
    rfl

theorem ne_badIndex (h : x.Ends E P) : x.result ≠ .error .badIndex := by
  rintro hx
  rcases h with ⟨a, h, -⟩ | ⟨e, h, -⟩ <;> cases hx.symm.trans h

theorem of_result (h : x.Ends E P) {a : α} (hx : x.result = .ok a) : P a := by
  rcases h with ⟨b, h, hb⟩ | ⟨e, h, -⟩
  · cases hx.symm.trans h
    exact hb
  · cases hx.symm.trans h

end Ends

end Build

open Build

/-! ### Extrusions -/

namespace Family

variable {f : Family} {difference : Hull.PolygonDifference} {kind : PrimKind} {r : Request}

/-- A cut that cannot be subtracted is skipped, -/
theorem cutOutline_result (f : Family) (difference : Hull.PolygonDifference) (kind : PrimKind)
    (r : Request) : ∃ h, (f.cutOutline difference kind r).result = .ok h := by
  unfold cutOutline
  split
  · exact ⟨_, rfl⟩
  · split
    · exact ⟨_, rfl⟩
    · exact ⟨_, rfl⟩

/-- and so is a hollow. -/
theorem hollowOut_result (f : Family) (difference : Hull.PolygonDifference) (r : Request) (h : Hull) :
    ∃ h', (f.hollowOut difference r h).result = .ok h' := by
  unfold hollowOut
  split
  · exact ⟨_, rfl⟩
  · split
    · exact ⟨_, rfl⟩
    · split
      · exact ⟨_, rfl⟩
      · exact ⟨_, rfl⟩

/-- **Subtraction never fails a prim.** -/
theorem hull_result (f : Family) (difference : Hull.PolygonDifference) (kind : PrimKind) (r : Request) :
    ∃ h, (f.hull difference kind r).result = .ok h := by
  obtain ⟨h, hh⟩ := f.cutOutline_result difference kind r
  obtain ⟨h', hh'⟩ := f.hollowOut_result difference r h
  exact ⟨h', (result_bind_ok hh _).trans hh'⟩

end Family

/-- Scaling a profile for its path moves vertices only. -/
theorem SweepPath.fit_cases (path : SweepPath) (t : Triangulation) :
    ∃ f, path.fit t = { t with mesh := t.mesh.mapVertices f } := by
  cases path with
  | linear p => exact ⟨id, by simp [SweepPath.fit, Mesh.mapVertices]⟩
  | circular p => exact ⟨_, rfl⟩

/-- Triangulation ends with a triangulation of the hull, or with too few vertices or triangles. -/
theorem Hull.triangulate_ends (h : Hull) (sink : DumpSink) (prim : String) : (h.triangulate sink prim).Ends
    (fun e => (∃ n, e = .tooFewVertices n) ∨ e = .noTriangles)
    fun t => 3 ≤ h.vertexCount ∧ t.Represents h := by
  rcases h.triangulate_cases sink prim with ⟨-, hr⟩ | ⟨-, hr⟩ | ⟨h3, t, hr, ht, -⟩
  · exact .inr ⟨_, hr, .inl ⟨_, rfl⟩⟩
  · exact .inr ⟨_, hr, .inr rfl⟩
  · exact .inl ⟨t, hr, h3, ht⟩

/-- **A triangulated hull can be swept**, once it is scaled for its path. -/
theorem Triangulation.Represents.extrude?_fit {t : Triangulation} {h : Hull} (ht : t.Represents h)
    (h3 : 3 ≤ h.vertexCount) (path : SweepPath) (size : Point) :
    ∃ m, (path.fit t).extrude? path size = some m ∧ m.InRange := by
  obtain ⟨f, hf⟩ := path.fit_cases t
  have hcount : (path.fit t).mesh.vertexCount = h.vertexCount := by
    rw [hf]
    show (t.mesh.positions.map f).size = _
    rw [Array.size_map, ht.positions, List.size_toArray, Hull.vertexCount]
  have hsum : (path.fit t).ringLengths.sum = (path.fit t).mesh.vertexCount := by
    rw [hcount, hf]
    show t.ringLengths.sum = _
    rw [ht.ringLengths, Hull.sum_ringLengths]
  have hin : (path.fit t).mesh.InRange := by
    rw [hf]
    exact ht.inRange.mapVertices f
  exact (path.fit t).extrude?_inRange hsum (by omega) hin path size

/-- **Prims of the profile kinds** end with a mesh in range, or with a profile without triangles. -/
theorem extrudePrim_ends {difference : Hull.PolygonDifference} {kind : PrimKind} {r : Request} {f : Family}
    (hf : Family.ofKind? kind = some f) (sink : DumpSink) : (extrudePrim difference kind r sink).Ends
      (fun e => (∃ n, e = .tooFewVertices n) ∨ e = .noTriangles) Mesh.InRange := by
  obtain ⟨h, hh⟩ := f.hull_result difference kind r
  unfold extrudePrim
  rw [hf]
  refine Ends.bind (Ends.of_ok (P := fun _ => True) hh trivial) fun h' _ _ => ?_
  refine Ends.bind (h'.triangulate_ends sink r.name) fun t _ ⟨h3, ht⟩ => ?_
  obtain ⟨m, hm, hr⟩ := ht.extrude?_fit h3 (f.path r.shape) r.size
  refine Ends.of_ok (a := m) ?_ hr
  rw [result_bind_ok (a := ()) rfl, result_bind_ok (Triangulation.extrude_result hm),
    result_bind_ok (Mesh.dump_result hr sink _ _)]
  rfl

/-! ### Spheres and sculpted prims -/

/-- **Spheres** always end with a mesh in range. -/
theorem spherePrim_ends (kind : PrimKind) (r : Request) (sink : DumpSink) :
    (spherePrim kind r sink).Ends (fun _ => False) Mesh.InRange := by
  have hr : (Sphere.unitMesh.scale r.size).InRange := Sphere.unitMesh_inRange.mapVertices _
  refine Ends.of_ok (a := Sphere.unitMesh.scale r.size) ?_ hr
  unfold spherePrim
  rw [result_bind_ok (Mesh.dump_result hr sink _ _)]
  rfl

/-- The errors of sculpt maps. -/
def mapError (e : MeshError) : Prop := e = .undecodableMap ∨ ∃ width height, e = .mapTooSmall width height

/-- The surface of a sculpted prim, wound inside out. -/
def sculptedMesh (r : Request) (map : Raster) : Mesh :=
  ((Sculpt.grid map r.shape.stitching).scale (r.size.scale 0.5)).flip

/-- A map is none or too small, or it has two rows and two columns and its surface is in range. -/
theorem sculptMap_cases (decode : ImageDecoder) (r : Request) :
    (∃ e, sculptMap decode r = .error e ∧ mapError e) ∨
    ∃ map, sculptMap decode r = .ok map ∧ (sculptedMesh r map).InRange := by
  unfold sculptMap
  split
  · exact .inl ⟨_, rfl, .inl rfl⟩
  · split
    · exact .inl ⟨_, rfl, .inr ⟨_, _, rfl⟩⟩
    next hsides =>
      exact .inr ⟨_, rfl, ((Sculpt.shrink_grid_inRange (by omega) (by omega) _ _).mapVertices _).flip⟩

/-- **Sculpted prims** end with a mesh in range, or with a map that is none or too small. -/
theorem sculptPrim_ends (decode : ImageDecoder) (kind : PrimKind) (r : Request) (sink : DumpSink) :
    (sculptPrim decode kind r sink).Ends mapError Mesh.InRange := by
  unfold sculptPrim
  rcases sculptMap_cases decode r with ⟨e, hmap, he⟩ | ⟨map, hmap, hr⟩
  · rw [hmap]
    exact Ends.fail he
  · rw [hmap]
    refine Ends.of_ok (a := sculptedMesh r map) ?_ hr
    dsimp only
    rw [result_bind_ok (a := ()) rfl]
    exact result_bind_ok (Mesh.dump_result hr sink r.name _) _

/-! ### Finished meshes -/

/-- A mesh fit to be handed out: lists of whole triples, indices in range, no triangle collapsed, and for
every triangle its normal. -/
structure Mesh.WellFormed (m : Mesh) : Prop where
  positions : 3 ∣ m.positionBuffer.length
  indices : 3 ∣ m.indexBuffer.length
  inRange : ∀ i ∈ m.indexBuffer, i.toNat < m.vertexCount
  distinct : ∀ t ∈ m.triangles, t.repeats = false
  solid : ∀ t ∈ m.triangles, m.degenerate? t = some false
  length_normals : m.normalBuffer.length = m.indexBuffer.length
  normals : m.allCorners?.map (·.map Corners.normal) = some m.normals

namespace Mesher

variable {difference : Hull.PolygonDifference} {decode : ImageDecoder} {files : FileSystem}
  {config : Config} {kind : PrimKind} {r : Request} {m : Mesh}

/-- The mesh that `finish` delivers, when nothing is out of range. -/
def finished (r : Request) (m : Mesh) : Mesh :=
  let wound := if mirrors r.size then m.flip else m
  let pruned := wound.retain fun t => !wound.collapsed t
  { pruned with normals := pruned.triangles.map fun t => (pruned.cornersAt t).normal }

/-- A mirrored mesh is wound the other way round. -/
theorem wound_inRange (hm : m.InRange) (size : Point) : (if mirrors size then m.flip else m).InRange := by
  split
  · exact hm.flip
  · exact hm

theorem finish_result (hm : m.InRange) (kind : PrimKind) (r : Request) :
    (finish kind r m).result = .ok (finished r m) := by
  have hw := wound_inRange hm r.size
  unfold finish
  dsimp only
  rw [Mesh.removeDegenerate?_eq hw, result_bind_ok (a := _) rfl, result_bind_ok (result_reportIf _ _),
    Mesh.withNormals?_eq (hw.retain _), result_bind_ok (a := _) rfl, result_bind_ok (result_reportIf _ _)]
  rfl

theorem finished_wellFormed (hm : m.InRange) (r : Request) : (finished r m).WellFormed := by
  have hr : (finished r m).InRange := (wound_inRange hm r.size).retain _
  have hsolid : ∀ t ∈ (finished r m).triangles, (finished r m).collapsed t = false := by
    intro t ht
    have hkept := (List.mem_filter.mp ht).2
    rw [Bool.not_eq_true'] at hkept
    exact hkept
  refine ⟨⟨_, Mesh.length_positionBuffer _⟩, ⟨_, Mesh.length_indexBuffer _⟩, fun i hi => ?_, fun t ht => ?_,
    fun t ht => ?_, ?_, ?_⟩
  · obtain ⟨t, ht, hi⟩ := (Mesh.mem_indexBuffer _).mp hi
    exact hr t ht i hi
  · have := hsolid t ht
    rw [Mesh.collapsed, Bool.or_eq_false_iff] at this
    exact this.1
  · rw [Mesh.degenerate?_eq (hr t ht), hsolid t ht]
  · rw [Mesh.length_normalBuffer, Mesh.length_indexBuffer]
    exact congrArg (3 * ·) (List.length_map _)
  · rw [Mesh.allCorners?_eq hr, Option.map_some, List.map_map]
    rfl

/-- **A mesh in range is finished to a well-formed one.** -/
theorem finish_ends (hm : m.InRange) (kind : PrimKind) (r : Request) :
    (finish kind r m).Ends (fun _ => False) Mesh.WellFormed :=
  Ends.of_ok (finish_result hm kind r) (finished_wellFormed hm r)

/-! ### The standard mesher -/

/-- The processor of a kind before any other is registered for it. -/
def initialProcessor (difference : Hull.PolygonDifference) (decode : ImageDecoder) : PrimKind → Processor
  | .sphere => sphereProcessor
  | .sculpt => sculptProcessor decode
  | .box | .cylinder | .prism | .tube | .torus | .ring => extrusionProcessor difference

/-- Every kind has a processor. -/
theorem standard_processor? (kind : PrimKind) :
    (standard difference decode files config).processor? kind =
      some (initialProcessor difference decode kind) := by
  cases kind <;> rfl

/-- The errors of the processors. -/
def processorError : PrimKind → MeshError → Prop
  | .sphere, _ => False
  | .sculpt, e => mapError e
  | _,       e => (∃ n, e = .tooFewVertices n) ∨ e = .noTriangles

theorem dispatch_ends (difference : Hull.PolygonDifference) (decode : ImageDecoder)
    (files : FileSystem) (config : Config) (kind : PrimKind) (r : Request) :
    ((standard difference decode files config).dispatch kind r).Ends (processorError kind)
      Mesh.WellFormed := by
  have hrun : ∀ p, (standard difference decode files config).processor? kind = some p →
      (p.run kind r (standard difference decode files config).sink).Ends (processorError kind)
        Mesh.InRange := by
    intro p hp
    rw [standard_processor?] at hp
    cases hp
    cases kind with
    | sphere => exact spherePrim_ends .sphere r _
    | sculpt => exact sculptPrim_ends decode .sculpt r _
    | box | cylinder | prism | tube | torus | ring =>
      exact extrudePrim_ends rfl _
  unfold dispatch
  split
  next hp =>
    rw [standard_processor?] at hp
    cases hp
  next p hp =>
    refine Ends.bind (Ends.of_ok (P := fun _ => True) rfl trivial) fun _ _ _ => ?_
    refine (hrun p hp).bind fun m _ hm => (finish_ends hm kind r).mono (fun _ he => he.elim) fun _ h => h

theorem classify_result {s : Shape} {kind : PrimKind} (h : s.kind = .ok kind) :
    (classify s).result = .ok kind := by
  rw [classify, h]
  exact result_bind_ok (result_reportIf _ _) _

/-- With finite numbers, a request for a valid shape ends as its processor does. -/
theorem createMesh_result (hsize : r.size.all Float32.isFinite = true) (hdetail : r.detail.isFinite = true)
    (hkind : r.shape.kind = .ok kind) :
    ((standard difference decode files config).createMesh r).result =
      ((standard difference decode files config).dispatch kind r).result := by
  simp only [createMesh, hsize, hdetail, Bool.not_true, Bool.false_eq_true, if_false]
  exact (result_bind_ok (result_reportIf _ _) _).trans (result_bind_ok (classify_result hkind) _)

/-- **How a request ends**: at a size or a level of detail that is not finite, at a shape that is not valid,
or as the processor of its kind does. -/
theorem createMesh_cases (difference : Hull.PolygonDifference) (decode : ImageDecoder)
    (files : FileSystem) (config : Config) (r : Request) :
    let build := (standard difference decode files config).createMesh r
    (r.size.all Float32.isFinite = false ∧ build.result = .error (.error (.sizeNotFinite r.name r.size))) ∨
    (r.size.all Float32.isFinite = true ∧ r.detail.isFinite = false ∧
      build.result = .error (.error (.detailNotFinite r.name r.detail))) ∨
    (r.size.all Float32.isFinite = true ∧ r.detail.isFinite = true ∧
      ((∃ e, r.shape.kind = .error e ∧ build.result = .error (.error (.shape e))) ∨
        ∃ kind, r.shape.kind = .ok kind ∧ build.Ends (processorError kind) Mesh.WellFormed)) := by
  intro build
  cases hsize : r.size.all Float32.isFinite with
  | false => exact .inl ⟨rfl, by simp only [build, createMesh, hsize]; rfl⟩
  | true =>
    cases hdetail : r.detail.isFinite with
    | false => exact .inr (.inl ⟨rfl, rfl, by simp only [build, createMesh, hsize, hdetail]; rfl⟩)
    | true =>
      refine .inr (.inr ⟨rfl, rfl, ?_⟩)
      cases hkind : r.shape.kind with
      | error e =>
        refine .inl ⟨e, rfl, ?_⟩
        simp only [build, createMesh, hsize, hdetail, Bool.not_true, Bool.false_eq_true, if_false]
        rw [result_bind_ok (result_reportIf _ _), classify, hkind]
        rfl
      | ok kind =>
        refine .inr ⟨kind, rfl, ?_⟩
        unfold Ends
        rw [createMesh_result hsize hdetail hkind]
        exact dispatch_ends difference decode files config kind r

/-- Every request ends, with a well-formed mesh or with an error. -/
theorem createMesh_ends (difference : Hull.PolygonDifference) (decode : ImageDecoder)
    (files : FileSystem) (config : Config) (r : Request) :
    ((standard difference decode files config).createMesh r).Ends (fun _ => True) Mesh.WellFormed := by
  rcases createMesh_cases difference decode files config r with
    ⟨-, h⟩ | ⟨-, -, h⟩ | ⟨-, -, ⟨e, -, h⟩ | ⟨kind, -, h⟩⟩
  · exact .inr ⟨_, h, trivial⟩
  · exact .inr ⟨_, h, trivial⟩
  · exact .inr ⟨_, h, trivial⟩
  · exact h.mono (fun _ _ => trivial) fun _ h => h

/-- **Every delivered mesh is well formed.**  Whatever the shape, the size and the level of detail, and
whatever the polygon difference and the image decoder answer, no build of the standard mesher looks at a
vertex that is not there, and a mesh that it returns has lists of whole triples, indices in range, no
collapsed triangle and the normal of each triangle. -/
theorem createMesh_wellFormed (difference : Hull.PolygonDifference) (decode : ImageDecoder)
    (files : FileSystem) (config : Config) (r : Request) :
    ((standard difference decode files config).createMesh r).result ≠ .error .badIndex ∧
    ∀ m, ((standard difference decode files config).createMesh r).result = .ok m → m.WellFormed := by
  have hends := createMesh_ends difference decode files config r
  exact ⟨hends.ne_badIndex, fun m hm => hends.of_result hm⟩

/-- A prism with half of its width hollow, mirrored by its size. -/
def hollowPrism : Request := ⟨"prism", Shape.prism.withHollow 25000, ⟨1, 2, -3⟩, 4⟩

theorem createMesh_wellFormed_hollowPrism :
    ∃ m, ((standard Overlay.difference Image.decode? noFiles .quiet).createMesh hollowPrism).result = .ok m ∧
      m.triangleCount = 24 ∧ m.WellFormed := by
  have hcount : ∃ m ∈ ((standard Overlay.difference Image.decode? noFiles .quiet).createMesh
      hollowPrism).result.toOption, m.triangleCount = 24 := by
    decide +kernel
  obtain ⟨m, hm, hcount⟩ := hcount
  have hm := mem_toOption.mp hm
  exact ⟨m, hm, hcount, (createMesh_wellFormed _ _ _ _ _).2 m hm⟩

end Mesher

end Prims
