import Prims.Proofs.Mesher.Delivery
import Prims.Proofs.Shape.Fault

/-!
# Mesher — Errors

Which errors a request to the standard mesher ends with.  The size is looked at first, then the level of
detail, then the shape, and each has its own error (`createMesh_errors`).  A request that passes all three
can only fail in the way of its kind (`createMesh_mayFail`): sculpted prims by their map, prims of the profile
kinds by a profile without enough vertices or without triangles, and spheres not at all.  What the
polygon difference answers for a cut or a hollow is never an error, and no profile is too empty to be swept.
-/

namespace Prims

namespace Build

variable {α : Type} {x : Build α} {E : MeshError → Prop} {P : α → Prop} {c : ErrorCategory}

/-- The build ends with an error of the category. -/
def FailsWith (x : Build α) (c : ErrorCategory) : Prop :=
  ∃ e, x.result = .error (.error e) ∧ e.category = c

theorem failsWith_iff {e : MeshError} (h : x.result = .error (.error e)) : x.FailsWith c ↔ e.category = c := by
  unfold FailsWith
  constructor
  · rintro ⟨e', he, hc⟩
    cases h.symm.trans he
    exact hc
  · exact fun hc => ⟨e, h, hc⟩

/-- The category of an error is that of one the build may end with. -/
theorem Ends.failsWith (h : x.Ends E P) (hc : x.FailsWith c) : ∃ e, E e ∧ e.category = c := by
  obtain ⟨e, he, hc⟩ := hc
  rcases h with ⟨a, hx, -⟩ | ⟨e', hx, hE⟩
  · cases hx.symm.trans he
  · cases hx.symm.trans he
    exact ⟨e, hE, hc⟩

end Build

/-- The kinds of prims that are swept profiles. -/
def PrimKind.swept : List PrimKind := [.box, .cylinder, .prism, .tube, .torus, .ring]

namespace Request

/-- Size and level of detail are numbers that a mesh can be made for. -/
def Finite (r : Request) : Prop := r.size.all Float32.isFinite = true ∧ r.detail.isFinite = true

instance (r : Request) : Decidable r.Finite := inferInstanceAs (Decidable (_ ∧ _))

/-- The requests that may end with an error of a category. -/
def MayFail (r : Request) : ErrorCategory → Prop
  | .invalidShape     => ¬ r.Finite
  | .descriptor       => r.Finite ∧ ∃ e, r.shape.error? = some e
  | .invalidSculpt    => r.Finite ∧ r.shape.isSculpted = true
  | .triangulation    => r.Finite ∧ ∃ kind ∈ PrimKind.swept, r.shape.kind = .ok kind
  | .emptyMesh        => r.Finite ∧ ∃ kind ∈ PrimKind.swept, r.shape.kind = .ok kind
  | .geometry         => False
  | .invalidExtrusion => False

end Request

namespace Mesher

open Build

variable {e : MeshError} {kind : PrimKind}

section

variable {difference : Hull.PolygonDifference} {decode : ImageDecoder} {files : FileSystem}
  {config : Config} {r : Request} {c : ErrorCategory}

/-- The errors of a processor are among those that a request of its kind may end with. -/
theorem mayFail_of_processorError (hr : r.Finite) (hk : r.shape.kind = .ok kind)
    (h : processorError kind e) : r.MayFail e.category := by
  cases kind with
  | sphere => exact h.elim
  | sculpt =>
    have hs := (Shape.kind_eq_sculpt_iff (Shape.kind_eq_ok_iff.mp hk).1).mp hk
    rcases h with rfl | ⟨_, _, rfl⟩ <;> exact ⟨hr, hs⟩
  | box | cylinder | prism | tube | torus | ring =>
    rcases h with ⟨_, rfl⟩ | rfl <;> exact ⟨hr, _, by decide, hk⟩

/-- **Who fails, and how.** -/
theorem createMesh_mayFail (h : ((standard difference decode files config).createMesh r).FailsWith c) :
    r.MayFail c := by
  rcases createMesh_cases difference decode files config r with
    ⟨hsize, hx⟩ | ⟨-, hdetail, hx⟩ | ⟨hsize, hdetail, ⟨e, hkind, hx⟩ | ⟨kind, hkind, hends⟩⟩
  · obtain rfl := (failsWith_iff hx).mp h
    exact fun hr => Bool.false_ne_true (hsize.symm.trans hr.1)
  · obtain rfl := (failsWith_iff hx).mp h
    exact fun hr => Bool.false_ne_true (hdetail.symm.trans hr.2)
  · obtain rfl := (failsWith_iff hx).mp h
    exact ⟨⟨hsize, hdetail⟩, e, Shape.kind_eq_error_iff.mp hkind⟩
  · obtain ⟨e, he, rfl⟩ := hends.failsWith h
    exact mayFail_of_processorError ⟨hsize, hdetail⟩ hkind he

/-- A size that is not finite is refused before anything else, -/
theorem createMesh_of_size (h : r.size.all Float32.isFinite = false) :
    ((standard difference decode files config).createMesh r).result =
      .error (.error (.sizeNotFinite r.name r.size)) := by
  rcases createMesh_cases difference decode files config r with ⟨-, hx⟩ | ⟨hsize, -⟩ | ⟨hsize, -⟩
  · exact hx
  · cases h.symm.trans hsize
  · cases h.symm.trans hsize

/-- and a level of detail that is not finite next. -/
theorem createMesh_of_detail (hsize : r.size.all Float32.isFinite = true) (h : r.detail.isFinite = false) :
    ((standard difference decode files config).createMesh r).result =
      .error (.error (.detailNotFinite r.name r.detail)) := by
  rcases createMesh_cases difference decode files config r with ⟨hno, -⟩ | ⟨-, -, hx⟩ | ⟨-, hdetail, -⟩
  · cases hno.symm.trans hsize
  · exact hx
  · cases h.symm.trans hdetail

/-- With finite numbers a request is refused for the fault of its shape, -/
theorem createMesh_of_fault (h : r.Finite) {e : ShapeError} (he : r.shape.Fault e) :
    ((standard difference decode files config).createMesh r).result = .error (.error (.shape e)) := by
  have hfault := Shape.kind_eq_error_iff.mpr (Shape.error?_eq_some_iff.mpr he)
  rcases createMesh_cases difference decode files config r with
    ⟨hsize, -⟩ | ⟨-, hdetail, -⟩ | ⟨-, -, ⟨e', hkind, hx⟩ | ⟨kind, hkind, -⟩⟩
  · cases hsize.symm.trans h.1
  · cases hdetail.symm.trans h.2
  · cases hkind.symm.trans hfault
    exact hx
  · cases hkind.symm.trans hfault

/-- and without one it ends as the processor of its kind does. -/
theorem createMesh_of_kind (h : r.Finite) (hk : r.shape.kind = .ok kind) :
    ((standard difference decode files config).createMesh r).Ends (processorError kind) Mesh.WellFormed := by
  rcases createMesh_cases difference decode files config r with
    ⟨hsize, -⟩ | ⟨-, hdetail, -⟩ | ⟨-, -, ⟨e, hkind, -⟩ | ⟨kind', hkind, hx⟩⟩
  · cases hsize.symm.trans h.1
  · cases hdetail.symm.trans h.2
  · cases hkind.symm.trans hk
  · cases hkind.symm.trans hk
    exact hx

end

/-- **Which errors a mesher surfaces.**  A size that is not finite is refused, then a level of detail that
is not finite, then a shape for its fault; no other request is refused as an invalid shape or for its
descriptor.  A valid request fails only for the map of a sculpted prim, or for the profile of a prim of a
profile kind, and a sphere never.  No error is about the polygon difference or the sweep, and no build looks
at a vertex that is not there. -/
theorem createMesh_errors (difference : Hull.PolygonDifference) (decode : ImageDecoder)
    (files : FileSystem) (config : Config) (r : Request) :
    let build := (standard difference decode files config).createMesh r
    (build.FailsWith .invalidShape ↔ ¬ r.Finite) ∧
    (r.size.all Float32.isFinite = false →
      build.result = .error (.error (.sizeNotFinite r.name r.size))) ∧
    (r.size.all Float32.isFinite = true → r.detail.isFinite = false →
      build.result = .error (.error (.detailNotFinite r.name r.detail))) ∧
    (r.Finite → (build.FailsWith .descriptor ↔ ∃ e, r.shape.error? = some e) ∧
      ∀ e, (r.shape.error? = some e ↔ r.shape.Fault e) ∧
        (r.shape.Fault e → build.result = .error (.error (.shape e)))) ∧
    (build.FailsWith .invalidSculpt → r.shape.isSculpted = true) ∧
    (build.FailsWith .triangulation ∨ build.FailsWith .emptyMesh →
      ∃ kind ∈ PrimKind.swept, r.shape.kind = .ok kind) ∧
    ¬ build.FailsWith .geometry ∧ ¬ build.FailsWith .invalidExtrusion ∧
    (r.Finite → r.shape.kind = .ok .sphere → ∃ m, build.result = .ok m) ∧
    build.result ≠ .error .badIndex := by
  intro build
  refine ⟨⟨createMesh_mayFail, fun h => ?_⟩, createMesh_of_size, createMesh_of_detail,
    fun hr => ⟨⟨fun h => (createMesh_mayFail h).2, fun ⟨e, he⟩ => ?_⟩,
      fun e => ⟨Shape.error?_eq_some_iff, createMesh_of_fault hr⟩⟩,
    fun h => (createMesh_mayFail h).2, ?_, createMesh_mayFail, createMesh_mayFail, fun hr hk => ?_,
    (createMesh_ends difference decode files config r).ne_badIndex⟩
  · cases hsize : r.size.all Float32.isFinite with
    | false => exact (failsWith_iff (createMesh_of_size hsize)).mpr rfl
    | true =>
      have hdetail : r.detail.isFinite = false := by simpa [Request.Finite, hsize] using h
      exact (failsWith_iff (createMesh_of_detail hsize hdetail)).mpr rfl
  · have hfault := Shape.error?_eq_some_iff.mp he
    exact (failsWith_iff (createMesh_of_fault hr hfault)).mpr rfl
  · rintro (h | h) <;> exact (createMesh_mayFail h).2
  · rcases createMesh_of_kind hr hk with ⟨m, hm, -⟩ | ⟨e, -, he⟩
    · exact ⟨m, hm⟩
    · exact he.elim

end Mesher

end Prims
