import Prims.Proofs.Mesher.Winding

/-!
# Mesher — Registration

Processors of any make may be registered, for lists of kinds that overlap, repeat or are empty.  One
registration takes over its kinds and no other (`register_processor?`), so after any number of them a request
goes to the last processor that takes its kind, or to the one that the mesher started with
(`registerAll_processor?`).  What that processor is and what it answers matters to no other part of the build
(`Dispatches`): its error is the error, and its mesh is finished by its positions and triangles alone
(`finished_of_normals`).  Main statement: `createMesh_registered`.
-/

namespace Prims

/-! ### The monad laws -/

namespace Trace

theorem append_empty (t : Trace) : t ++ empty = t := by
  show Trace.mk (t.events ++ []) (t.dumps ++ []) = t
  rw [List.append_nil, List.append_nil]

theorem append_assoc (s t u : Trace) : s ++ t ++ u = s ++ (t ++ u) := by
  show Trace.mk (s.events ++ t.events ++ u.events) (s.dumps ++ t.dumps ++ u.dumps) = _
  rw [List.append_assoc, List.append_assoc]
  rfl

end Trace

namespace Build

variable {α β γ : Type} {x : Build α} {a : α}

theorem bind_of_ok (h : x.result = .ok a) (f : α → Build β) :
    x >>= f = ⟨(f a).result, x.trace ++ (f a).trace⟩ := by
  obtain ⟨result, trace⟩ := x
  cases h
  rfl

theorem bind_of_error {e : Failure} (h : x.result = .error e) (f : α → Build β) :
    x >>= f = ⟨.error e, x.trace⟩ := by
  obtain ⟨result, trace⟩ := x
  cases h
  rfl

/-- Builds in a row leave behind what each of them does. -/
theorem bind_bind (x : Build α) (f : α → Build β) (g : β → Build γ) :
    x >>= f >>= g = x >>= fun a => f a >>= g := by
  cases hx : x.result with
  | error e => rw [bind_of_error hx, bind_of_error hx, bind_of_error rfl]
  | ok a =>
    rw [bind_of_ok hx, bind_of_ok hx]
    cases hf : (f a).result with
    | error e => rw [bind_of_error rfl, bind_of_error hf]
    | ok b => rw [bind_of_ok rfl, bind_of_ok hf, Trace.append_assoc]

theorem bind_pure_self (x : Build α) : x >>= pure = x := by
  cases hx : x.result with
  | error e =>
    rw [bind_of_error hx, ← hx]
  | ok a =>
    rw [bind_of_ok hx]
    show Build.mk (.ok a) (x.trace ++ Trace.empty) = x
    rw [Trace.append_empty, ← hx]

instance : LawfulMonad Build := LawfulMonad.mk' Build bind_pure_self (fun _ _ => rfl) bind_bind

end Build

namespace Mesher

open Build

variable {m : Mesher} {p q : Processor} {kind : PrimKind} {r : Request} {mesh : Mesh}

/-! ### Registrations -/

/-- The mesher after the registrations, first to last. -/
def registerAll (m : Mesher) (ps : List Processor) : Mesher := ps.foldl register m

/-- The last of the processors that takes the kind. -/
def lastFor? (kind : PrimKind) (ps : List Processor) : Option Processor :=
  ps.findRev? fun p => p.kinds.contains kind

theorem lastFor?_concat (kind : PrimKind) (ps : List Processor) (p : Processor) :
    lastFor? kind (ps ++ [p]) = if kind ∈ p.kinds then some p else lastFor? kind ps := by
  simp only [lastFor?, List.findRev?_eq_find?_reverse, List.reverse_concat, List.find?_cons]
  by_cases h : kind ∈ p.kinds <;> simp [h]

theorem lookup_kinds (p : Processor) (kind : PrimKind) (kinds : List PrimKind) :
    (kinds.map (·, p)).lookup kind = if kind ∈ kinds then some p else none := by
  induction kinds with
  | nil => rfl
  | cons k kinds ih =>
    rw [List.map_cons, List.lookup_cons, ih]
    rcases eq_or_ne kind k with rfl | h
    · simp
    · simp [beq_eq_false_iff_ne.mpr h, h]

/-- **A registration takes over the kinds of its processor**, and leaves all others. -/
theorem register_processor? (m : Mesher) (p : Processor) (kind : PrimKind) :
    (m.register p).processor? kind = if kind ∈ p.kinds then some p else m.processor? kind := by
  show List.lookup kind (p.kinds.map (·, p) ++ m.processors) = _
  rw [List.lookup_append, lookup_kinds]
  split <;> rfl

theorem registerAll_concat (m : Mesher) (ps : List Processor) (p : Processor) :
    m.registerAll (ps ++ [p]) = (m.registerAll ps).register p := List.foldl_concat ..

/-- Registrations leave the configuration and the dumps alone. -/
theorem registerAll_rest (m : Mesher) (ps : List Processor) :
    (m.registerAll ps).config = m.config ∧ (m.registerAll ps).sink = m.sink := by
  induction ps using List.reverseRecOn with
  | nil => exact ⟨rfl, rfl⟩
  | append_singleton ps p ih =>
    rw [registerAll_concat]
    exact ih

/-- **The latest registration for a kind counts.** -/
theorem registerAll_processor? (m : Mesher) (ps : List Processor) (kind : PrimKind) :
    (m.registerAll ps).processor? kind = (lastFor? kind ps).or (m.processor? kind) := by
  induction ps using List.reverseRecOn with
  | nil => rfl
  | append_singleton ps p ih =>
    rw [registerAll_concat, register_processor?, lastFor?_concat]
    split
    · rfl
    · exact ih

/-! ### Dispatch -/

/-- What is reported of a request before its processor runs. -/
def announce (config : Config) (kind : PrimKind) (r : Request) : Build Unit := do
  Build.reportIf config.reportShapes (.parameters r.name r.size r.detail r.shape)
  Build.reportIf r.shape.ownKind?.isNone (.noOwnKind r.shape.profile? r.shape.path?)
  Build.report (.meshing r.name kind)

/-- The request is answered by the processor: it runs once, on the kind, and ends the build or hands its mesh
to be finished. -/
structure Dispatches (m : Mesher) (r : Request) (kind : PrimKind) (p : Processor) : Prop where
  runs : m.createMesh r = announce m.config kind r >>= fun _ => p.run kind r m.sink >>= finish kind r
  fails : ∀ e, (p.run kind r m.sink).result = .error e → (m.createMesh r).result = .error e
  delivers : ∀ mesh, (p.run kind r m.sink).result = .ok mesh → mesh.InRange →
    (m.createMesh r).result = .ok (finished r mesh)

/-- **The processor registered for the kind answers the request.** -/
theorem dispatches (hr : r.Finite) (hk : r.shape.kind = .ok kind) (hp : m.processor? kind = some p) :
    m.Dispatches r kind p := by
  have hruns : m.createMesh r =
      announce m.config kind r >>= fun _ => p.run kind r m.sink >>= finish kind r := by
    simp only [createMesh, hr.1, hr.2, classify, hk, dispatch, hp, announce, Bool.not_true,
      Bool.false_eq_true, if_false, bind_assoc, pure_bind]
  have hannounce : (announce m.config kind r).result = .ok () :=
    (result_bind_ok (result_reportIf _ _) _).trans ((result_bind_ok (result_reportIf _ _) _).trans rfl)
  refine ⟨hruns, fun e he => ?_, fun mesh hrun hm => createMesh_delivers hr hk hp hrun hm⟩
  rw [hruns, result_bind_ok hannounce, result_bind, he]
  rfl

/-- A registration for other kinds does not change what is built. -/
theorem Dispatches.register (h : m.Dispatches r kind p) (h' : (m.register q).Dispatches r kind p) :
    (m.register q).createMesh r = m.createMesh r :=
  h'.runs.trans h.runs.symm

/-! ### Finishing -/

/-- A mesh is finished by its positions and triangles; normals that it comes with are not looked at. -/
theorem finished_of_normals (r : Request) (mesh : Mesh) (stale : List Point) :
    finished r { mesh with normals := stale } = finished r mesh := by
  unfold finished
  split <;> rfl

/-- **Dispatch follows the latest registration.**  Let processors of any make be registered with a mesher,
first to last.  A request with a finite size and level of detail and a valid shape has a kind, and is answered
by the processor registered last for it, or by the one of the start if there is none; a further registration
for other kinds changes nothing about it.  The processor runs on that kind, an error of it is the error, and a
mesh in range is finished in a way that depends on nothing else: positions stay, solid triangles are kept in
their order, reversed if the size is mirrored, and each gets the normal of its corners, whatever normals the
mesh came with.  Many requests end as each of them does, in their order. -/
theorem createMesh_registered (difference : Hull.PolygonDifference) (decode : ImageDecoder)
    (files : FileSystem) (config : Config) (ps : List Processor) :
    let m := (standard difference decode files config).registerAll ps
    (m.config = config ∧ m.sink = sinkOf files config) ∧
    (∀ r : Request, r.Finite → r.shape.error? = none → ∃ kind, r.shape.kind = .ok kind ∧
      m.Dispatches r kind ((lastFor? kind ps).getD (initialProcessor difference decode kind)) ∧
      ∀ q : Processor, kind ∉ q.kinds → (m.register q).createMesh r = m.createMesh r) ∧
    (∀ (q : Processor) (kind : PrimKind), kind ∉ q.kinds → (m.register q).processor? kind = m.processor? kind) ∧
    (∀ (r : Request) (mesh : Mesh), mesh.InRange → (finished r mesh).positions = mesh.positions ∧
      (finished r mesh).triangles = (if mirrors r.size then mesh.solid.map Triangle.flip else mesh.solid) ∧
      (finished r mesh).allCorners?.map (·.map Corners.normal) = some (finished r mesh).normals ∧
      ∀ stale, finished r { mesh with normals := stale } = finished r mesh) ∧
    (∀ requests : List Request, (m.createMeshes requests).length = requests.length ∧
      ∀ i : Nat, (m.createMeshes requests)[i]? = requests[i]?.map m.createMesh) := by
  intro m
  have hp (kind : PrimKind) : m.processor? kind =
      some ((lastFor? kind ps).getD (initialProcessor difference decode kind)) := by
    rw [registerAll_processor?, standard_processor?]
    cases lastFor? kind ps <;> rfl
  have hkeep (q : Processor) (kind : PrimKind) (hq : kind ∉ q.kinds) :
      (m.register q).processor? kind = m.processor? kind := by
    rw [register_processor?, if_neg hq]
  refine ⟨registerAll_rest _ ps, fun r hr hvalid => ?_, hkeep, fun r mesh hm => ?_, fun requests => ?_⟩
  · have hk := Shape.kind_eq_ok_iff.mpr ⟨hvalid, rfl⟩
    have hd := dispatches hr hk (hp _)
    exact ⟨_, hk, hd, fun q hq => hd.register (dispatches hr hk ((hkeep q _ hq).trans (hp _)))⟩
  · exact ⟨finished_positions r mesh, finished_triangles hm r, (finished_wellFormed hm r).normals,
      finished_of_normals r mesh⟩
  · exact ⟨List.length_map _, fun i => by rw [createMeshes, List.getElem?_map]⟩

/-- A processor of spheres whose mesh has a collapsed triangle and a normal of its own. -/
def flatProcessor : Processor where
  kinds := [.sphere, .sphere]
  run _ _ _ := pure ⟨#[.flat 0 0, .flat 1 0, .flat 2 0, .flat 0 1], [⟨0, 1, 2⟩, ⟨0, 1, 3⟩], [.origin]⟩

/-- A processor of boxes and spheres that has no mesh for them. -/
def refusingProcessor : Processor where
  kinds := [.box, .sphere]
  run _ _ _ := .fail .noTriangles

/-- A request of unit size. -/
def unitOf (shape : Shape) : Request := ⟨"unit", shape, ⟨1, 1, 1⟩, 32⟩

/-- The processor of spheres takes them over from the one before it, which keeps the boxes; prisms go where
they went. -/
theorem createMesh_registered_overlap :
    let m := (ofConfig noFiles .quiet).registerAll [refusingProcessor, flatProcessor]
    (∃ delivered, (m.createMesh (unitOf .sphere)).result = .ok delivered ∧ delivered.triangles = [⟨0, 1, 3⟩] ∧
      delivered.normals = [⟨0, 0, 1⟩]) ∧
    (m.createMesh (unitOf .box)).result = .error (.error .noTriangles) ∧
    m.Dispatches (unitOf .prism) .prism (extrusionProcessor Overlay.difference) := by
  intro m
  obtain ⟨-, hdispatch, -⟩ := createMesh_registered Overlay.difference Image.decode? noFiles .quiet
    [refusingProcessor, flatProcessor]
  have hunit : Vec.all Float32.isFinite (⟨1, 1, 1⟩ : Point) = true ∧ Float32.isFinite 32 = true := by decide
  have hfinite (shape : Shape) : (unitOf shape).Finite := hunit
  refine ⟨?_, ?_, ?_⟩
  · obtain ⟨kind, hk, hd, -⟩ := hdispatch (unitOf .sphere) (hfinite _) (by decide)
    obtain rfl : PrimKind.sphere = kind := Except.ok.inj ((by decide : _ = _).symm.trans hk)
    exact ⟨_, hd.delivers _ rfl (by decide), by decide +kernel, by decide +kernel⟩
  · obtain ⟨kind, hk, hd, -⟩ := hdispatch (unitOf .box) (hfinite _) (by decide)
    obtain rfl : PrimKind.box = kind := Except.ok.inj ((by decide : _ = _).symm.trans hk)
    exact hd.fails _ rfl
  · obtain ⟨kind, hk, hd, -⟩ := hdispatch (unitOf .prism) (hfinite _) (by decide)
    obtain rfl : PrimKind.prism = kind := Except.ok.inj ((by decide : _ = _).symm.trans hk)
    exact hd

end Mesher

end Prims
