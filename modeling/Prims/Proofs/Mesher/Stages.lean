import Prims.Proofs.Mesher.Errors

/-!
# Mesher — Stages

What a build shows of itself on its way.  A stage is a mesh that is handed to the sink, and which stages
there are depends on the request alone (`Request.stages`).  A build `Shows` stages when those of them that
its sink takes are what it dumps; this composes along the concatenation of stages.  Every stage is in range,
also the meshes that still have their seeds, so writing one never fails and a build ends in the same way
whatever its mesher is configured to dump and to report (`createMesh_configured`).
-/

namespace Prims

/-- A mesh on its way, as a dump names it. -/
structure Stage where
  name : String
  mesh : Mesh

/-- The file that a sink makes of a stage, if it takes it. -/
def DumpSink.written (sink : DumpSink) (prim : String) (s : Stage) : List RawDump :=
  match sink with
  | .disabled => []
  | .directory takes =>
    let file := fileName prim s.name
    if takes file then s.mesh.rawLines?.toList.map fun lines => ⟨file, lines⟩ else []

namespace Build

variable {α β : Type} {x : Build α} {f : α → Build β} {a : α} {sink : DumpSink} {prim : String}
  {stages stages' : List Stage}

theorem dumps_bind_ok (h : x.result = .ok a) (f : α → Build β) :
    (x >>= f).trace.dumps = x.trace.dumps ++ (f a).trace.dumps := by
  obtain ⟨r, t⟩ := x
  subst h
  rfl

theorem dumps_bind_error {e : Failure} (h : x.result = .error e) (f : α → Build β) :
    (x >>= f).trace.dumps = x.trace.dumps := by
  obtain ⟨r, t⟩ := x
  subst h
  rfl

/-! ### Steps without dumps -/

/-- The build leaves events at most. -/
def Silent (x : Build α) : Prop := x.trace.dumps = []

namespace Silent

theorem pure (a : α) : (Pure.pure a : Build α).Silent := rfl

theorem fail (e : MeshError) : (Build.fail e : Build α).Silent := rfl

theorem report (e : Event) : (Build.report e).Silent := rfl

theorem reportIf (b : Bool) (e : Event) : (Build.reportIf b e).Silent := by
  cases b <;> rfl

theorem ofOption (o : Option α) : (Build.ofOption o).Silent := by
  cases o <;> rfl

theorem bind (hx : x.Silent) (hf : ∀ a, (f a).Silent) : (x >>= f).Silent := by
  unfold Silent
  cases h : x.result with
  | error e => exact (dumps_bind_error h f).trans hx
  | ok a => rw [dumps_bind_ok h, hx, hf a, List.nil_append]

end Silent

/-! ### Steps with dumps -/

/-- The build has the result, and dumps those of the stages that the sink takes. -/
structure Shows (x : Build α) (sink : DumpSink) (prim : String) (result : Except Failure α)
    (stages : List Stage) : Prop where
  result : x.result = result
  dumps : x.trace.dumps = stages.flatMap (sink.written prim)

namespace Shows

theorem of_silent (h : x.Silent) : x.Shows sink prim x.result [] := ⟨rfl, h⟩

theorem bind {result : Except Failure β} (h : x.Shows sink prim (.ok a) stages)
    (h' : (f a).Shows sink prim result stages') :
    (x >>= f).Shows sink prim result (stages ++ stages') where
  result := (result_bind_ok h.result f).trans h'.result
  dumps := by rw [dumps_bind_ok h.result, h.dumps, h'.dumps, List.flatMap_append]

theorem bind_error {e : Failure} (h : x.Shows sink prim (.error e) stages) (f : α → Build β) :
    (x >>= f).Shows sink prim (.error e) stages where
  result := by
    rw [result_bind, h.result]
    rfl
  dumps := (dumps_bind_error h.result f).trans h.dumps

/-- Silent steps show nothing of their own. -/
theorem after_silent {result : Except Failure β} (hsilent : x.Silent) (hx : x.result = .ok a)
    (h : (f a).Shows sink prim result stages) : (x >>= f).Shows sink prim result stages :=
  (⟨hx, hsilent⟩ : x.Shows sink prim (.ok a) []).bind h

/-- **A mesh in range is shown whole.** -/
theorem dump {m : Mesh} (hm : m.InRange) (sink : DumpSink) (prim stage : String) :
    (sink.dump m prim stage).Shows sink prim (.ok ()) [⟨stage, m⟩] where
  result := Mesh.dump_result hm sink prim stage
  dumps := by
    rw [List.flatMap_singleton]
    cases sink with
    | disabled => rfl
    | directory takes =>
      unfold DumpSink.dump DumpSink.written
      dsimp only
      split
      · rw [Mesh.rawLines?, Mesh.allCorners?_eq hm]
        rfl
      · rfl

end Shows

/-- Whatever its sink, the build shows the stages, which are in range, and ends in one way. -/
def Staged (build : DumpSink → Build α) (prim : String) (stages : List Stage) : Prop :=
  (∀ s ∈ stages, s.mesh.InRange) ∧ ∃ result, ∀ sink, (build sink).Shows sink prim result stages

namespace Staged

variable {build : DumpSink → Build α}

theorem of_silent (h : x.Silent) (prim : String) : Staged (fun _ => x) prim [] :=
  ⟨fun _ hs => (List.not_mem_nil hs).elim, _, fun _ => .of_silent h⟩

/-- Silent steps after a build show nothing more. -/
theorem bind_silent (h : Staged build prim stages) (hf : ∀ a, (f a).Silent) :
    Staged (fun sink => build sink >>= f) prim stages := by
  obtain ⟨hin, result, hb⟩ := h
  cases result with
  | error e => exact ⟨hin, _, fun sink => (hb sink).bind_error f⟩
  | ok a =>
    refine ⟨hin, (f a).result, fun sink => ?_⟩
    have := (hb sink).bind (.of_silent (hf a))
    rwa [List.append_nil] at this

end Staged

end Build

open Build

/-! ### Stages of an extrusion -/

/-- The stages of a triangulation: with its seeds, without them, and within the hull. -/
def Hull.stages (h : Hull) : List Stage :=
  if h.vertexCount < 3 then []
  else
    let all := Triangulation.inserted? h
    let unseeded := all.bind Triangulation.withoutSeeds?
    let inner := unseeded.bind (·.removeOutside? h)
    [("Proto first Mesh", all), ("Proto seeds removed", unseeded), ("Proto outsides removed", inner)].filterMap
      fun s => s.2.map (⟨s.1, ·⟩)

/-- The mesh after all insertions and what is left of it, when it is in range. -/
theorem Hull.stages_of_inserted {h : Hull} {m : Mesh} (h3 : 3 ≤ h.vertexCount)
    (hm : Triangulation.inserted? h = some m)
    (hp : m.positions = (Triangulation.seedMesh.addHull h).positions) (hr : m.InRange) :
    h.stages = [⟨"Proto first Mesh", m⟩,
      ⟨"Proto seeds removed", h.meshWith (Triangulation.unseeded m.triangles)⟩,
      ⟨"Proto outsides removed", h.meshWith (h.inner m)⟩] := by
  rw [stages, if_neg (by omega), hm]
  simp only [Option.bind_some, Triangulation.withoutSeeds?_eq hp, meshWith_removeOutside? hr hp,
    List.filterMap_cons, Option.map_some, List.filterMap_nil]

theorem Hull.stages_inRange (h : Hull) : ∀ s ∈ h.stages, s.mesh.InRange := by
  rcases Nat.lt_or_ge h.vertexCount 3 with h3 | h3
  · rw [stages, if_pos h3]
    exact fun s hs => (List.not_mem_nil hs).elim
  · obtain ⟨m, -, hm, hp, -, hr⟩ := Triangulation.inserted?_grown h
    rw [stages_of_inserted h3 hm hp hr]
    simp [hr, meshWith_inRange hr hp, inner_inRange hr hp]

/-- **Triangulation shows its stages** and ends alike for all sinks. -/
theorem Hull.triangulate_shows (h : Hull) (sink : DumpSink) (prim : String) :
    (h.triangulate sink prim).Shows sink prim (h.triangulate .disabled "").result h.stages := by
  rcases Nat.lt_or_ge h.vertexCount 3 with h3 | h3
  · rw [stages, triangulate, triangulate, if_pos h3, if_pos h3, if_pos h3]
    exact .of_silent (.fail _)
  · obtain ⟨m, -, hm, hp, -, hr⟩ := Triangulation.inserted?_grown h
    have hun := meshWith_inRange hr hp
    have hin := inner_inRange hr hp
    rw [triangulate_of_inserted h3 hm hp hr .disabled "", stages_of_inserted h3 hm hp hr, triangulate,
      if_neg (by omega), hm]
    refine .after_silent (.pure _) rfl (.bind (.dump hr sink prim _) ?_)
    rw [Triangulation.withoutSeeds?_eq hp]
    refine .after_silent (.pure _) rfl (.bind (.dump hun sink prim _) ?_)
    rw [meshWith_removeOutside? hr hp]
    refine .after_silent (.pure _) rfl (.bind (.dump hin sink prim _) ?_)
    rw [Mesh.orientUp?_eq hin]
    show Shows (if (h.inner m).isEmpty then _ else _) sink prim _ _
    split
    · exact .of_silent (.fail _)
    · exact .of_silent (.bind (.ofOption _) fun _ => .pure _)

namespace Family

variable {difference : Hull.PolygonDifference} {kind : PrimKind} {r : Request}

theorem cutOutline_silent (f : Family) (difference : Hull.PolygonDifference) (kind : PrimKind)
    (r : Request) : (f.cutOutline difference kind r).Silent := by
  unfold cutOutline
  split
  · exact .pure _
  · split
    · exact .pure _
    · exact .bind (.report _) fun _ => .pure _

theorem hollowOut_silent (f : Family) (difference : Hull.PolygonDifference) (r : Request) (h : Hull) :
    (f.hollowOut difference r h).Silent := by
  unfold hollowOut
  split
  · exact .bind (.report _) fun _ => .pure _
  · split
    · exact .pure _
    · split
      · exact .pure _
      · exact .bind (.report _) fun _ => .pure _

theorem hull_silent (f : Family) (difference : Hull.PolygonDifference) (kind : PrimKind) (r : Request) :
    (f.hull difference kind r).Silent :=
  .bind (f.cutOutline_silent difference kind r) (f.hollowOut_silent difference r)

/-- The stages of a prim of a profile kind: those of its profile, and the swept profile. -/
def stages (f : Family) (difference : Hull.PolygonDifference) (kind : PrimKind) (r : Request) :
    List Stage :=
  match (f.hull difference kind r).result with
  | .error _ => []
  | .ok h    =>
    h.stages ++
      match (h.triangulate .disabled "").result with
      | .error _ => []
      | .ok t    =>
        let path := f.path r.shape
        ((path.fit t).extrude? path r.size).toList.map (⟨"Z extruded", ·⟩)

end Family

theorem Triangulation.extrude_silent (t : Triangulation) (path : SweepPath) (size : Point) :
    (t.extrude path size).Silent := by
  unfold extrude
  split
  · exact .fail _
  · refine .bind ?_ fun _ => .pure _
    cases path with
    | linear p => exact .pure _
    | circular p => exact .reportIf _ _

/-- **A prim of a profile kind shows its stages.** -/
theorem extrudePrim_staged {f : Family} {kind : PrimKind} (hf : Family.ofKind? kind = some f)
    (difference : Hull.PolygonDifference) (r : Request) :
    Staged (extrudePrim difference kind r) r.name (f.stages difference kind r) := by
  obtain ⟨h, hh⟩ := f.hull_result difference kind r
  have hsilent := f.hull_silent difference kind r
  unfold extrudePrim
  rw [Family.stages, hh, hf]
  dsimp only
  rcases h.triangulate_ends .disabled "" with ⟨t, ht, h3, hrep⟩ | ⟨e, ht, -⟩
  · obtain ⟨m, hm, hr⟩ := hrep.extrude?_fit h3 (f.path r.shape) r.size
    rw [ht]
    dsimp only
    rw [hm]
    refine ⟨List.forall_mem_append.mpr ⟨h.stages_inRange, List.forall_mem_singleton.mpr hr⟩, .ok m,
      fun sink => ?_⟩
    refine .after_silent hsilent hh (.bind (ht ▸ h.triangulate_shows sink r.name) ?_)
    refine .after_silent (.report _) rfl ?_
    refine .after_silent (Triangulation.extrude_silent _ _ _) (Triangulation.extrude_result hm) ?_
    exact .bind (.dump hr sink r.name _) (.of_silent (.pure _))
  · rw [ht]
    refine ⟨List.forall_mem_append.mpr ⟨h.stages_inRange, fun _ hs => (List.not_mem_nil hs).elim⟩,
      .error (.error e), fun sink => ?_⟩
    rw [List.append_nil]
    exact .after_silent hsilent hh (.bind_error (ht ▸ h.triangulate_shows sink r.name) _)

/-! ### Stages of a request -/

/-- The stages of a valid request of a kind. -/
def Request.stagesOf (difference : Hull.PolygonDifference) (decode : ImageDecoder) (r : Request)
    (kind : PrimKind) : List Stage :=
  match kind with
  | .sphere => [⟨"Icosahedron", Sphere.unitMesh.scale r.size⟩]
  | .sculpt =>
    match sculptMap decode r with
    | .error _ => []
    | .ok map  => [⟨"Sculpt", sculptedMesh r map⟩]
  | kind    =>
    match Family.ofKind? kind with
    | none   => []
    | some f => f.stages difference kind r

/-- **The stages of a request**; one that is refused has none. -/
def Request.stages (difference : Hull.PolygonDifference) (decode : ImageDecoder) (r : Request) :
    List Stage :=
  if r.Finite then
    match r.shape.kind with
    | .error _ => []
    | .ok kind => r.stagesOf difference decode kind
  else []

theorem spherePrim_staged (kind : PrimKind) (r : Request) :
    Staged (spherePrim kind r) r.name [⟨"Icosahedron", Sphere.unitMesh.scale r.size⟩] := by
  have hr : (Sphere.unitMesh.scale r.size).InRange := Sphere.unitMesh_inRange.mapVertices _
  exact ⟨List.forall_mem_singleton.mpr hr, _, fun sink => .bind (.dump hr sink r.name _) (.of_silent (.pure _))⟩

theorem sculptPrim_staged (difference : Hull.PolygonDifference) (decode : ImageDecoder) (kind : PrimKind)
    (r : Request) : Staged (sculptPrim decode kind r) r.name (r.stagesOf difference decode .sculpt) := by
  unfold sculptPrim Request.stagesOf
  dsimp only
  rcases sculptMap_cases decode r with ⟨e, hmap, -⟩ | ⟨map, hmap, hr⟩
  · rw [hmap]
    exact .of_silent (.fail e) r.name
  · rw [hmap]
    exact ⟨List.forall_mem_singleton.mpr hr, _, fun sink => .after_silent (.report _) rfl
      (.bind (.dump hr sink r.name _) (.of_silent (.pure (sculptedMesh r map))))⟩

namespace Mesher

theorem finish_silent (kind : PrimKind) (r : Request) (m : Mesh) : (finish kind r m).Silent :=
  .bind (.ofOption _) fun _ => .bind (.reportIf _ _) fun _ => .bind (.ofOption _) fun _ =>
    .bind (.reportIf _ _) fun _ => .pure _

variable {difference : Hull.PolygonDifference} {decode : ImageDecoder}

/-- The stages of a processor are those of its kind, -/
theorem processor_staged {kind : PrimKind} {p : Processor} {files : FileSystem} {config : Config}
    (hp : (standard difference decode files config).processor? kind = some p) (r : Request) :
    Staged (p.run kind r) r.name (r.stagesOf difference decode kind) := by
  rw [standard_processor?] at hp
  cases hp
  cases kind with
  | sphere => exact spherePrim_staged .sphere r
  | sculpt => exact sculptPrim_staged difference decode .sculpt r
  | box | cylinder | prism | tube | torus | ring => exact extrudePrim_staged rfl difference r

/-- and finishing a mesh adds none. -/
theorem dispatch_shows (difference : Hull.PolygonDifference) (decode : ImageDecoder) (kind : PrimKind)
    (r : Request) : (∀ s ∈ r.stagesOf difference decode kind, s.mesh.InRange) ∧
    ∃ result, ∀ files config, ((standard difference decode files config).dispatch kind r).Shows
      (sinkOf files config) r.name result (r.stagesOf difference decode kind) := by
  have hp : (standard difference decode noFiles .quiet).processor? kind = some _ := standard_processor? kind
  obtain ⟨hin, result, hb⟩ := (processor_staged hp r).bind_silent (finish_silent kind r)
  refine ⟨hin, result, fun files config => ?_⟩
  unfold dispatch
  rw [standard_processor?]
  exact .after_silent (.report _) rfl (hb _)

theorem classify_silent (s : Shape) : (classify s).Silent := by
  unfold classify
  split
  · exact .fail _
  · exact .bind (.reportIf _ _) fun _ => .pure _

/-- **What a request shows** depends on the request alone, and so does how it ends. -/
theorem createMesh_shows (difference : Hull.PolygonDifference) (decode : ImageDecoder) (r : Request) :
    (∀ s ∈ r.stages difference decode, s.mesh.InRange) ∧
    ∃ result, ∀ files config, ((standard difference decode files config).createMesh r).Shows
      (sinkOf files config) r.name result (r.stages difference decode) := by
  have hnone : ∀ s ∈ ([] : List Stage), s.mesh.InRange := fun _ hs => (List.not_mem_nil hs).elim
  unfold Request.stages createMesh
  cases hsize : r.size.all Float32.isFinite with
  | false =>
    rw [if_neg fun h => Bool.false_ne_true (hsize.symm.trans h.1)]
    exact ⟨hnone, _, fun files config => .of_silent (.fail _)⟩
  | true =>
    cases hdetail : r.detail.isFinite with
    | false =>
      rw [if_neg fun h => Bool.false_ne_true (hdetail.symm.trans h.2)]
      exact ⟨hnone, _, fun files config => .of_silent (.fail _)⟩
    | true =>
      rw [if_pos ⟨hsize, hdetail⟩]
      cases hkind : r.shape.kind with
      | error e =>
        refine ⟨hnone, .error (.error (.shape e)), fun files config => ?_⟩
        refine .after_silent (.reportIf _ _) (result_reportIf _ _) ?_
        rw [classify, hkind]
        exact .bind_error (.of_silent (.fail _)) _
      | ok kind =>
        obtain ⟨hin, result, h⟩ := dispatch_shows difference decode kind r
        refine ⟨hin, result, fun files config => ?_⟩
        refine .after_silent (.reportIf _ _) (result_reportIf _ _) ?_
        exact .after_silent (classify_silent _) (classify_result hkind) (h files config)

/-- **What is dumped and reported changes no result.** -/
theorem createMesh_configured (difference : Hull.PolygonDifference) (decode : ImageDecoder)
    (files files' : FileSystem) (config config' : Config) (r : Request) :
    ((standard difference decode files config).createMesh r).result =
      ((standard difference decode files' config').createMesh r).result ∧
    ((standard difference decode files config).createMesh r).result ≠ .error .badIndex ∧
    (∀ s ∈ r.stages difference decode, ∀ t ∈ s.mesh.triangles, ∀ i ∈ t.indices,
      i.toNat < s.mesh.vertexCount) ∧
    ((standard difference decode files config).createMesh r).trace.dumps =
      (r.stages difference decode).flatMap ((sinkOf files config).written r.name) := by
  obtain ⟨hin, result, h⟩ := createMesh_shows difference decode r
  exact ⟨(h files config).result.trans (h files' config').result.symm,
    (createMesh_ends difference decode files config r).ne_badIndex, hin, (h files config).dumps⟩

end Mesher

end Prims
