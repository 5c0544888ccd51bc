import Prims.Proofs.Mesher.Errors

/-!
# Mesher — Influence

What of a shape its mesh depends on.  Every kind reads fields of its own (`Request.Agree`), so two requests
of one kind that agree on them are built alike, whatever else their shapes say (`dispatch_congr`).  In
particular no build looks at the curve bytes again once the kind is known: a shape without a kind of its own
is built as the box that has its fields (`Shape.asBox`).  Main statement: `createMesh_influence`.
-/

namespace Prims

namespace Shape

/-- The fields of the profile: which hollow it has, where it is cut and how far it is hollow. -/
structure SameProfile (s s' : Shape) : Prop where
  hollow        : s.hollow = s'.hollow
  profileBegin  : s.profileBegin = s'.profileBegin
  profileEnd    : s.profileEnd = s'.profileEnd
  profileHollow : s.profileHollow = s'.profileHollow

/-- The fields of a straight path. -/
structure SameLinear (s s' : Shape) : Prop where
  pathScaleX     : s.pathScaleX = s'.pathScaleX
  pathScaleY     : s.pathScaleY = s'.pathScaleY
  pathShearX     : s.pathShearX = s'.pathShearX
  pathShearY     : s.pathShearY = s'.pathShearY
  pathTwist      : s.pathTwist = s'.pathTwist
  pathTwistBegin : s.pathTwistBegin = s'.pathTwistBegin

/-- The fields of a circular path. -/
structure SameCircular (s s' : Shape) : Prop where
  pathBegin        : s.pathBegin = s'.pathBegin
  pathEnd          : s.pathEnd = s'.pathEnd
  pathScaleX       : s.pathScaleX = s'.pathScaleX
  pathScaleY       : s.pathScaleY = s'.pathScaleY
  pathShearY       : s.pathShearY = s'.pathShearY
  pathTwist        : s.pathTwist = s'.pathTwist
  pathTwistBegin   : s.pathTwistBegin = s'.pathTwistBegin
  pathRadiusOffset : s.pathRadiusOffset = s'.pathRadiusOffset
  pathTaperX       : s.pathTaperX = s'.pathTaperX
  pathTaperY       : s.pathTaperY = s'.pathTaperY
  pathRevolutions  : s.pathRevolutions = s'.pathRevolutions
  pathSkew         : s.pathSkew = s'.pathSkew

variable {s s' : Shape}

theorem SameLinear.path (h : s.SameLinear s') : LinearPath.ofShape s = LinearPath.ofShape s' := by
  unfold LinearPath.ofShape
  rw [h.pathScaleX, h.pathScaleY, h.pathShearX, h.pathShearY, h.pathTwist, h.pathTwistBegin]

theorem SameCircular.path (h : s.SameCircular s') : CircularPath.ofShape s = CircularPath.ofShape s' := by
  unfold CircularPath.ofShape
  rw [h.pathBegin, h.pathEnd, h.pathScaleX, h.pathScaleY, h.pathShearY, h.pathTwist, h.pathTwistBegin,
    h.pathRadiusOffset, h.pathTaperX, h.pathTaperY, h.pathRevolutions, h.pathSkew]

theorem SameProfile.hole (h : s.SameProfile s') (f : Family) : f.hole? s = f.hole? s' := by
  unfold Family.hole?
  rw [h.hollow, h.profileHollow]

end Shape

/-- The requests agree on all that meshes of the kind depend on, besides name and size.  Of a sphere that is
nothing, and of the level of detail only sculpted prims know the side of its budget. -/
def Request.Agree (kind : PrimKind) (r r' : Request) : Prop :=
  match kind with
  | .sphere                   => True
  | .box | .cylinder | .prism => r.shape.SameProfile r'.shape ∧ r.shape.SameLinear r'.shape
  | .tube | .torus | .ring    => r.shape.SameProfile r'.shape ∧ r.shape.SameCircular r'.shape
  | .sculpt                   =>
    r.shape.sculptData = r'.shape.sculptData ∧ r.shape.stitching = r'.shape.stitching ∧
      Sculpt.detailSide r.detail = Sculpt.detailSide r'.detail

/-! ### Builds of requests that agree -/

section

variable {r r' : Request} {kind : PrimKind} {f : Family} {difference : Hull.PolygonDifference}
  {decode : ImageDecoder}

theorem Family.hull_congr (hname : r.name = r'.name) (h : r.shape.SameProfile r'.shape) (f : Family)
    (difference : Hull.PolygonDifference) (kind : PrimKind) :
    f.hull difference kind r = f.hull difference kind r' := by
  unfold Family.hull Family.cutOutline Family.hollowOut
  rw [hname, h.profileBegin, h.profileEnd, h.profileHollow, h.hole f]

/-- Of the fields of a profile kind, those of the other path do not matter. -/
theorem Request.Agree.extruded (h : r.Agree kind r') (hf : Family.ofKind? kind = some f) :
    r.shape.SameProfile r'.shape ∧ f.path r.shape = f.path r'.shape := by
  cases kind with
  | sphere | sculpt => cases hf
  | box | cylinder | prism =>
    cases hf
    exact ⟨h.1, congrArg SweepPath.linear h.2.path⟩
  | tube | torus | ring =>
    cases hf
    exact ⟨h.1, congrArg SweepPath.circular h.2.path⟩

/-- **Prims of the profile kinds** depend on their profile and on the path they are swept along. -/
theorem extrudePrim_congr (hname : r.name = r'.name) (hsize : r.size = r'.size) (h : r.Agree kind r')
    (hf : Family.ofKind? kind = some f) (sink : DumpSink) :
    extrudePrim difference kind r sink = extrudePrim difference kind r' sink := by
  obtain ⟨hprofile, hpath⟩ := h.extruded hf
  unfold extrudePrim
  rw [hf]
  dsimp only
  rw [f.hull_congr hname hprofile, hname, hsize, hpath]

/-- **Sculpted prims** depend on their map, its stitching and the side of its budget. -/
theorem sculptPrim_congr (hname : r.name = r'.name) (hsize : r.size = r'.size) (h : r.Agree .sculpt r')
    (sink : DumpSink) : sculptPrim decode .sculpt r sink = sculptPrim decode .sculpt r' sink := by
  obtain ⟨hdata, hstitching, hside⟩ := h
  unfold sculptPrim sculptMap Sculpt.budget
  rw [hname, hsize, hdata, hstitching, hside]

/-- **Spheres** depend on nothing else. -/
theorem spherePrim_congr (kind : PrimKind) (hname : r.name = r'.name) (hsize : r.size = r'.size)
    (sink : DumpSink) :
    spherePrim kind r sink = spherePrim kind r' sink := by
  unfold spherePrim
  rw [hname, hsize]

end

namespace Mesher

variable {r r' : Request} {kind : PrimKind} {difference : Hull.PolygonDifference} {decode : ImageDecoder}
  {files : FileSystem} {config : Config}

theorem processor_congr {p : Processor}
    (hp : (standard difference decode files config).processor? kind = some p)
    (hname : r.name = r'.name) (hsize : r.size = r'.size) (h : r.Agree kind r') (sink : DumpSink) :
    p.run kind r sink = p.run kind r' sink := by
  rw [standard_processor?] at hp
  cases hp
  cases kind with
  | sphere => exact spherePrim_congr .sphere hname hsize sink
  | sculpt => exact sculptPrim_congr hname hsize h sink
  | box | cylinder | prism | tube | torus | ring => exact extrudePrim_congr hname hsize h rfl sink

/-- **Requests that agree are built alike**, down to what the builds report and dump. -/
theorem dispatch_congr (hname : r.name = r'.name) (hsize : r.size = r'.size) (h : r.Agree kind r') :
    (standard difference decode files config).dispatch kind r =
      (standard difference decode files config).dispatch kind r' := by
  have hp : (standard difference decode files config).processor? kind = some _ := standard_processor? kind
  unfold dispatch finish
  rw [hp]
  dsimp only
  rw [processor_congr hp hname hsize h, hname, hsize]

/-- **Two requests of one kind** that agree on what it depends on have the same result. -/
theorem createMesh_congr (hk : r.shape.kind = .ok kind) (hk' : r'.shape.kind = .ok kind)
    (hname : r.name = r'.name) (hsize : r.size = r'.size)
    (hdetail : r.detail = r'.detail ∨ r.detail.isFinite = true ∧ r'.detail.isFinite = true)
    (h : r.Agree kind r') :
    ((standard difference decode files config).createMesh r).result =
      ((standard difference decode files config).createMesh r').result := by
  cases hs : r.size.all Float32.isFinite with
  | false => rw [createMesh_of_size hs, createMesh_of_size (hsize ▸ hs), hname, hsize]
  | true =>
    cases hd : r.detail.isFinite with
    | false =>
      rcases hdetail with hdetail | ⟨hfinite, -⟩
      · rw [createMesh_of_detail hs hd, createMesh_of_detail (hsize ▸ hs) (hdetail ▸ hd), hname, hdetail]
      · cases hd.symm.trans hfinite
    | true =>
      have hd' : r'.detail.isFinite = true := hdetail.elim (fun hdetail => hdetail ▸ hd) And.right
      rw [createMesh_result hs hd hk, createMesh_result (hsize ▸ hs) hd' hk', dispatch_congr hname hsize h]

end Mesher

/-! ### Shapes without a kind of their own -/

namespace Shape

/-- The box that has the fields of a shape. -/
def asBox (s : Shape) : Shape :=
  { box.withHollowShape s.hollow with
    profileBegin   := s.profileBegin
    profileEnd     := s.profileEnd
    profileHollow  := s.profileHollow
    pathScaleX     := s.pathScaleX
    pathScaleY     := s.pathScaleY
    pathShearX     := s.pathShearX
    pathShearY     := s.pathShearY
    pathTwist      := s.pathTwist
    pathTwistBegin := s.pathTwistBegin }

variable {s : Shape}

theorem asBox_sameProfile (s : Shape) : s.SameProfile s.asBox where
  hollow := by
    show s.hollow = (box.withHollowShape s.hollow).hollow
    cases s.hollow <;> rfl
  profileBegin := rfl
  profileEnd := rfl
  profileHollow := rfl

theorem asBox_sameLinear (s : Shape) : s.SameLinear s.asBox := ⟨rfl, rfl, rfl, rfl, rfl, rfl⟩

/-- The box of a valid shape is valid and a box. -/
theorem asBox_kind (h : s.error? = none) : s.asBox.kind = .ok .box := by
  have hlimits := (error?_eq_none_iff.mp h).2
  have hvalid : s.asBox.error? = none := by
    refine error?_eq_none_iff.mpr ⟨fun hmap => Bool.false_ne_true hmap.1, ?_⟩
    simp only [limitedFields, LimitedField.Beyond, List.forall_mem_cons] at hlimits ⊢
    obtain ⟨hbegin, hend, -, -, hscales⟩ := hlimits
    exact ⟨hbegin, hend, Nat.not_lt_zero _, Nat.not_lt_zero _, hscales⟩
  have hown : s.asBox.ownKind? = some .box := by
    have hprofile : s.asBox.profile? = some .square := by
      show (box.withHollowShape s.hollow).profile? = some .square
      cases s.hollow <;> rfl
    rw [ownKind?, hprofile]
    rfl
  exact kind_eq_ok_iff.mpr ⟨hvalid, by rw [hown, Option.getD_some]⟩

end Shape

namespace Mesher

/-- **What a mesh depends on**: its name, its size, the kind of its shape and the fields of that kind.  Two
requests that agree on them have the same result, whatever else their shapes say; and a valid shape that is
not sculpted and has no kind of its own has the result of the box with its fields. -/
theorem createMesh_influence (difference : Hull.PolygonDifference) (decode : ImageDecoder)
    (files : FileSystem) (config : Config) :
    (∀ (kind : PrimKind) (r r' : Request), r.shape.kind = .ok kind → r'.shape.kind = .ok kind →
      r.name = r'.name → r.size = r'.size →
      (r.detail = r'.detail ∨ r.detail.isFinite = true ∧ r'.detail.isFinite = true) → r.Agree kind r' →
      ((standard difference decode files config).createMesh r).result =
        ((standard difference decode files config).createMesh r').result) ∧
    ∀ r : Request, r.shape.error? = none → r.shape.isSculpted = false →
      Shape.kindOf? (Quanta.unpackedScale r.shape.pathScaleY) r.shape.profile? r.shape.path? = none →
      ((standard difference decode files config).createMesh r).result =
        ((standard difference decode files config).createMesh { r with shape := r.shape.asBox }).result := by
  refine ⟨fun kind r r' hk hk' hname hsize hdetail h => createMesh_congr hk hk' hname hsize hdetail h,
    fun r hvalid hsculpted hnone => ?_⟩
  have hown : r.shape.ownKind? = none := by
    rw [Shape.ownKind?, hsculpted, hnone]
    rfl
  have hk : r.shape.kind = .ok .box := Shape.kind_eq_ok_iff.mpr ⟨hvalid, by rw [hown]; rfl⟩
  have hagree : r.Agree .box { r with shape := r.shape.asBox } :=
    ⟨r.shape.asBox_sameProfile, r.shape.asBox_sameLinear⟩
  exact createMesh_congr hk (Shape.asBox_kind hvalid) rfl rfl (.inl rfl) hagree

/-- The hollow prism, with a path cut, a skew and a sculpt type that prisms do not have. -/
def wordyPrism : Request := { hollowPrism with
  shape := { hollowPrism.shape.withPathCut 100 200 with pathSkew := -7, sculptType := 3 }, detail := 64 }

/-- The hollow prism on a flexible path, which has no kind of its own. -/
def flexiblePrism : Request := { hollowPrism with
  shape := { hollowPrism.shape with pathCurve := PathCurve.flexible.code } }

theorem createMesh_influence_prisms :
    let mesher := ofConfig noFiles .quiet
    (wordyPrism.shape ≠ hollowPrism.shape ∧
      (mesher.createMesh wordyPrism).result = (mesher.createMesh hollowPrism).result) ∧
    (flexiblePrism.shape.asBox = Shape.box.withHollow 25000 ∧
      (mesher.createMesh flexiblePrism).result =
        (mesher.createMesh { hollowPrism with shape := Shape.box.withHollow 25000 }).result) := by
  intro mesher
  obtain ⟨hagree, hbox⟩ := createMesh_influence Overlay.difference Image.decode? noFiles .quiet
  refine ⟨⟨by decide, ?_⟩, by decide, ?_⟩
  · exact hagree .prism _ _ (by decide +kernel) (by decide +kernel) rfl rfl
      (.inr ⟨by decide +kernel, by decide +kernel⟩) ⟨⟨by decide, rfl, rfl, rfl⟩, ⟨rfl, rfl, rfl, rfl, rfl, rfl⟩⟩
  · exact hbox flexiblePrism (by decide) (by decide) (by decide +kernel)

end Mesher

end Prims
