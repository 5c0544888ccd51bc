import Mathlib.Algebra.Order.BigOperators.Group.List
import Mathlib.Data.List.Forall2
import Mathlib.Data.List.Induction
import Mathlib.Data.List.Nodup
import Mathlib.Data.List.Perm.Subperm
import Prims.Proofs.Sphere.Builder
import Prims.Proofs.Sphere.Depth
import Prims.Proofs.Sphere.Key

/-!
# Sphere — Sharing

Which corners of a subdivision become one vertex.  The calls of `vertex` are taken one after the other
(`Builder.vertices`).  What is passed determines what a builder holds: one vertex for each key, in the order
in which the keys appear first (`Builder.After`, kept by every call).  So an index counts the keys that
appear before its own (`place`), and two of them are the same when the keys are, which is when the coordinates
agree in millionths (`SameMillionths`).  A subdivision, such as the tree of a recursion that ends
(`Subdivides`), only passes the corners of its leaves, three at a time.  Main statement:
`Builder.vertices_shared`.
-/

namespace Prims.Sphere

/-! ### First appearances -/

section FirstAppearances

variable {α β : Type} [DecidableEq α] [DecidableEq β]

theorem eraseDups_concat (l : List α) (a : α) :
    (l ++ [a]).eraseDups = if a ∈ l then l.eraseDups else l.eraseDups ++ [a] := by
  rw [List.eraseDups_append]
  by_cases h : a ∈ l <;> simp [List.removeAll, List.eraseDups_cons, h]

theorem nodup_eraseDups (l : List α) : l.eraseDups.Nodup := by
  induction l using List.reverseRecOn with
  | nil => exact List.nodup_nil
  | append_singleton l a ih =>
    rw [eraseDups_concat]
    split
    next => exact ih
    next h => exact ih.append (List.nodup_singleton a) (by simpa using h)

theorem eraseDups_map {f : α → β} {l : List α} (hf : ∀ a ∈ l, ∀ b ∈ l, f a = f b → a = b) :
    (l.map f).eraseDups = l.eraseDups.map f := by
  induction l using List.reverseRecOn with
  | nil => rfl
  | append_singleton l a ih =>
    have hl : ∀ b ∈ l, b ∈ l ++ [a] := fun b => List.mem_append_left _
    have hmem : f a ∈ l.map f ↔ a ∈ l := by
      refine ⟨fun h => ?_, List.mem_map_of_mem⟩
      obtain ⟨b, hb, e⟩ := List.mem_map.mp h
      exact hf b (hl b hb) a (by simp) e ▸ hb
    rw [List.map_append, List.map_singleton, eraseDups_concat, eraseDups_concat,
      ih fun b hb c hc => hf b (hl b hb) c (hl c hc)]
    simp only [hmem]
    split
    · rfl
    · rw [List.map_append, List.map_singleton]

theorem map_idxOf_self {l : List α} (h : l.Nodup) : l.map l.idxOf = List.range l.length := by
  refine List.ext_getElem (by simp) fun n hn _ => ?_
  rw [List.getElem_map, List.getElem_range, h.idxOf_getElem]

end FirstAppearances

/-! ### Keys and their places -/

/-- The keys of the vertices passed, in the order in which they first appear. -/
def keysOf (passed : List Point) : List (Vec Int) := (passed.map key).eraseDups

/-- The index of a vertex: the number of keys that appear before its own, in 32 bits. -/
def place (passed : List Point) (p : Point) : UInt32 := ((keysOf passed).idxOf (key p)).toUInt32

variable {passed : List Point} {p q : Point}

theorem mem_keysOf {k : Vec Int} : k ∈ keysOf passed ↔ ∃ p ∈ passed, key p = k := by
  rw [keysOf, List.mem_eraseDups, List.mem_map]

theorem key_mem_keysOf (hp : p ∈ passed) : key p ∈ keysOf passed := mem_keysOf.mpr ⟨p, hp, rfl⟩

theorem keysOf_concat (passed : List Point) (p : Point) : keysOf (passed ++ [p]) =
    if key p ∈ keysOf passed then keysOf passed else keysOf passed ++ [key p] := by
  simp only [keysOf, List.map_append, List.map_singleton, eraseDups_concat, List.mem_eraseDups]

theorem place_congr (h : key p = key q) : place passed p = place passed q := by
  rw [place, place, h]

theorem length_keysOf_le (passed : List Point) : (keysOf passed).length ≤ passed.length := by
  rw [← List.length_map key]
  exact (List.subperm_of_subset (nodup_eraseDups _) fun k hk => List.mem_eraseDups.mp hk).length_le

/-- Later vertices do not change the place of a key. -/
theorem place_append (hp : p ∈ passed) (ps : List Point) : place (passed ++ ps) p = place passed p := by
  have hprefix : keysOf passed <+: keysOf (passed ++ ps) := by
    rw [keysOf, keysOf, List.map_append, List.eraseDups_append]
    exact List.prefix_append _ _
  rw [place, place, hprefix.idxOf_eq_of_mem (key_mem_keysOf hp)]

theorem toNat_place (hfit : (keysOf passed).length ≤ 2 ^ 32) (hp : p ∈ passed) :
    (place passed p).toNat = (keysOf passed).idxOf (key p) :=
  Nat.mod_eq_of_lt (Nat.lt_of_lt_of_le (List.idxOf_lt_length_iff.mpr (key_mem_keysOf hp)) hfit)

theorem place_eq_iff (hfit : (keysOf passed).length ≤ 2 ^ 32) (hp : p ∈ passed) (hq : q ∈ passed) :
    place passed p = place passed q ↔ key p = key q := by
  rw [← UInt32.toNat_inj, toNat_place hfit hp, toNat_place hfit hq, List.idxOf_inj (key_mem_keysOf hp)]

/-- The places, in the order in which they first appear, count up from zero. -/
theorem eraseDups_map_place (hfit : (keysOf passed).length ≤ 2 ^ 32) :
    (passed.map (place passed)).eraseDups = (List.range (keysOf passed).length).map Nat.toUInt32 := by
  have hplace : passed.map (place passed) =
      (passed.map key).map fun k => ((keysOf passed).idxOf k).toUInt32 := by
    rw [List.map_map]
    rfl
  have hinj : ∀ k ∈ passed.map key, ∀ l ∈ passed.map key,
      ((keysOf passed).idxOf k).toUInt32 = ((keysOf passed).idxOf l).toUInt32 → k = l := by
    simp only [List.forall_mem_map]
    exact fun p hp q hq => (place_eq_iff hfit hp hq).mp
  have hcount := map_idxOf_self (nodup_eraseDups (passed.map key))
  rw [hplace, eraseDups_map hinj, keysOf, ← hcount, List.map_map]
  rfl

namespace Builder

/-! ### One vertex after the other -/

/-- The indices of vertices passed one after the other, and the builder that they leave. -/
def vertices (b : Builder) : List Point → List UInt32 × Builder
  | []      => ([], b)
  | p :: ps =>
    let (i, b) := b.vertex p
    let (is, b) := b.vertices ps
    (i :: is, b)

/-- What a builder holds after vertices have been passed to it. -/
structure After (passed : List Point) (b : Builder) : Prop where
  keys    : b.mesh.positions.toList.map key = keysOf passed
  /-- A vertex is the first one with its key. -/
  first   : ∀ q ∈ b.mesh.positions, passed.find? (key · == key q) = some q
  entries : (b.index.map Prod.fst).Perm (keysOf passed)
  lookup  : ∀ p ∈ passed, b.index.lookup (key p) = some (place passed p)

variable {b : Builder}

theorem After.vertexCount (h : After passed b) : b.mesh.vertexCount = (keysOf passed).length := by
  rw [← h.keys, List.length_map]
  rfl

theorem After.lookup_eq_none (h : After passed b) (hp : key p ∉ keysOf passed) :
    b.index.lookup (key p) = none := by
  rw [List.lookup_eq_none_iff]
  intro entry hentry
  rw [bne_iff_ne]
  rintro e
  exact hp (e ▸ h.entries.mem_iff.mp (List.mem_map_of_mem hentry))

/-- A vertex with an old key gets the old index, and nothing changes. -/
theorem After.vertex_old (h : After passed b) (hp : key p ∈ keysOf passed) :
    b.vertex p = (place (passed ++ [p]) p, b) ∧ After (passed ++ [p]) b := by
  have hkeys : keysOf (passed ++ [p]) = keysOf passed := by rw [keysOf_concat, if_pos hp]
  have hplace (q : Point) : place (passed ++ [p]) q = place passed q := by rw [place, place, hkeys]
  obtain ⟨q, hq, hqp⟩ := mem_keysOf.mp hp
  have hlookup : b.index.lookup (key p) = some (place passed p) := by
    rw [← hqp, h.lookup q hq, place_congr hqp]
  refine ⟨by rw [vertex, hlookup, hplace],
    ⟨hkeys ▸ h.keys, fun r hr => ?_, hkeys ▸ h.entries, fun r hr => ?_⟩⟩
  · rw [List.find?_append, h.first r hr]
    rfl
  · rw [hplace]
    rcases List.mem_append.mp hr with hr | hr
    · exact h.lookup r hr
    · rw [List.mem_singleton.mp hr]
      exact hlookup

/-- A vertex with a new key is added behind the others, and its index is their number. -/
theorem After.vertex_new (h : After passed b) (hp : key p ∉ keysOf passed) :
    b.vertex p = (place (passed ++ [p]) p,
      ⟨b.mesh.addVertex p, (key p, place (passed ++ [p]) p) :: b.index⟩) ∧
    After (passed ++ [p]) ⟨b.mesh.addVertex p, (key p, place (passed ++ [p]) p) :: b.index⟩ := by
  have hkeys : keysOf (passed ++ [p]) = keysOf passed ++ [key p] := by rw [keysOf_concat, if_neg hp]
  have hnext : b.mesh.nextIndex = place (passed ++ [p]) p := by
    rw [Mesh.nextIndex, h.vertexCount, place, hkeys, List.idxOf_append_of_notMem hp]
    simp
  have hfind : passed.find? (key · == key p) = none := by
    rw [List.find?_eq_none]
    intro q hq e
    exact hp (beq_iff_eq.mp e ▸ key_mem_keysOf hq)
  refine ⟨by rw [vertex, h.lookup_eq_none hp, hnext], ⟨?_, fun r hr => ?_, ?_, fun r hr => ?_⟩⟩
  · rw [hkeys, ← h.keys, Mesh.addVertex, Array.toList_push, List.map_append, List.map_singleton]
  · rw [List.find?_append]
    rcases Array.mem_push.mp hr with hr | rfl
    · rw [h.first r hr]
      rfl
    · rw [hfind]
      simp
  · rw [hkeys]
    exact (h.entries.cons _).trans (List.perm_append_singleton _ _).symm
  · by_cases hrp : key r = key p
    · rw [List.lookup_cons, hrp, beq_self_eq_true, place_congr hrp]
    · have hr : r ∈ passed := by
        refine (List.mem_append.mp hr).resolve_right fun hr => ?_
        exact hrp (congrArg key (List.mem_singleton.mp hr))
      rw [List.lookup_cons, beq_eq_false_iff_ne.mpr hrp, place_append hr]
      exact h.lookup r hr

/-- **One vertex more.** -/
theorem After.vertex (h : After passed b) (p : Point) :
    (b.vertex p).1 = place (passed ++ [p]) p ∧ After (passed ++ [p]) (b.vertex p).2 := by
  by_cases hp : key p ∈ keysOf passed
  · obtain ⟨e, hafter⟩ := h.vertex_old hp
    rw [e]
    exact ⟨rfl, hafter⟩
  · obtain ⟨e, hafter⟩ := h.vertex_new hp
    rw [e]
    exact ⟨rfl, hafter⟩

/-- **Any number of vertices more.** -/
theorem After.vertices (h : After passed b) (ps : List Point) :
    (b.vertices ps).1 = ps.map (place (passed ++ ps)) ∧ After (passed ++ ps) (b.vertices ps).2 := by
  induction ps generalizing passed b with
  | nil => exact ⟨rfl, by rwa [List.append_nil]⟩
  | cons p ps ih =>
    obtain ⟨hi, hp⟩ := h.vertex p
    obtain ⟨his, hps⟩ := ih hp
    rw [List.append_assoc, List.singleton_append] at his hps
    refine ⟨?_, hps⟩
    have hplace : place (passed ++ p :: ps) p = place (passed ++ [p]) p := by
      rw [← List.singleton_append, ← List.append_assoc, place_append (by simp)]
    rw [List.map_cons, hplace, ← hi, ← his]
    rfl

/-! ### One leaf after the other -/

/-- The triangle of a leaf. -/
def placed (passed : List Point) (k : Corners) : Triangle :=
  ⟨place passed k.a, place passed k.b, place passed k.c⟩

theorem placed_append {k : Corners} (hk : ∀ p ∈ k.points, p ∈ passed) (ps : List Point) :
    placed (passed ++ ps) k = placed passed k := by
  simp only [Corners.points, List.forall_mem_cons] at hk
  obtain ⟨ha, hb, hc, -⟩ := hk
  rw [placed, place_append ha, place_append hb, place_append hc]
  rfl

theorem indices_placed (passed : List Point) (k : Corners) :
    (placed passed k).indices = k.points.map (place passed) := rfl

theorem triangles_vertex (b : Builder) (p : Point) : (b.vertex p).2.mesh.triangles = b.mesh.triangles := by
  unfold vertex
  split <;> rfl

theorem triangles_vertices (b : Builder) (ps : List Point) :
    (b.vertices ps).2.mesh.triangles = b.mesh.triangles := by
  induction ps generalizing b with
  | nil => rfl
  | cons p ps ih => exact (ih _).trans (triangles_vertex b p)

/-- A leaf passes its corners and adds the triangle of their indices. -/
theorem triangle_eq (b : Builder) (k : Corners) : ∃ t : Triangle, t.indices = (b.vertices k.points).1 ∧
    b.triangle k = ⟨(b.vertices k.points).2.mesh.addTriangle t, (b.vertices k.points).2.index⟩ :=
  ⟨⟨_, _, _⟩, rfl, rfl⟩

/-- **One leaf more.** -/
theorem After.triangle (h : After passed b) (k : Corners) :
    After (passed ++ k.points) (b.triangle k) ∧
    (b.triangle k).mesh.triangles = b.mesh.triangles ++ [placed (passed ++ k.points) k] := by
  obtain ⟨t, ht, e⟩ := triangle_eq b k
  obtain ⟨hindices, hafter⟩ := h.vertices k.points
  have hplaced : t = placed (passed ++ k.points) k := by
    rw [hindices, ← indices_placed] at ht
    simpa only [Triangle.indices, List.cons.injEq, and_true, ← Triangle.mk.injEq] using ht
  rw [e]
  refine ⟨⟨hafter.keys, hafter.first, hafter.entries, hafter.lookup⟩, ?_⟩
  rw [Mesh.addTriangle, triangles_vertices, hplaced]

/-- **Any number of leaves more.** -/
theorem After.leaves (h : After passed b) (ks : List Corners) :
    After (passed ++ ks.flatMap Corners.points) (ks.foldl Builder.triangle b) ∧
    (ks.foldl Builder.triangle b).mesh.triangles =
      b.mesh.triangles ++ ks.map (placed (passed ++ ks.flatMap Corners.points)) := by
  induction ks generalizing passed b with
  | nil => exact ⟨by rwa [List.flatMap_nil, List.append_nil], (List.append_nil _).symm⟩
  | cons k ks ih =>
    obtain ⟨hk, htriangle⟩ := h.triangle k
    obtain ⟨hks, htriangles⟩ := ih hk
    rw [List.append_assoc, ← List.flatMap_cons] at hks htriangles
    refine ⟨hks, ?_⟩
    have hplaced : placed (passed ++ (k :: ks).flatMap Corners.points) k = placed (passed ++ k.points) k := by
      rw [List.flatMap_cons, ← List.append_assoc, placed_append fun p => List.mem_append_right _]
    rw [List.foldl_cons, htriangles, htriangle, List.map_cons, hplaced, List.append_assoc]
    rfl

theorem empty_after : After [] empty := ⟨rfl, nofun, .nil, nofun⟩

/-- Any number of subdivisions is the leaves of them. -/
theorem foldl_add_eq (b : Builder) (ss : List Subdivision) :
    ss.foldl add b = (ss.flatMap Subdivision.leaves).foldl triangle b := List.foldl_flatMap.symm

/-! ### What is shared -/

/-- There are no more vertices than 32 bits can number. -/
def Fits (b : Builder) : Prop := b.mesh.vertexCount ≤ 2 ^ 32

instance (b : Builder) : Decidable b.Fits := inferInstanceAs (Decidable (_ ≤ _))

theorem After.fits_iff (h : After passed b) : b.Fits ↔ (keysOf passed).length ≤ 2 ^ 32 := by
  rw [Fits, h.vertexCount]

/-- The vertex with the index of a key is the first one with that key. -/
theorem After.vertex?_place (h : After passed b) (hfit : b.Fits) (hp : p ∈ passed) :
    ∃ q, b.mesh.vertex? (place passed p) = some q ∧ passed.find? (key · == key p) = some q ∧
      key q = key p := by
  have hkey := List.getElem?_idxOf (key_mem_keysOf hp)
  rw [← toNat_place (h.fits_iff.mp hfit) hp, ← h.keys, List.getElem?_map, Option.map_eq_some_iff] at hkey
  obtain ⟨q, hq, hqp⟩ := hkey
  refine ⟨q, by rwa [Mesh.vertex?, ← Array.getElem?_toList], ?_, hqp⟩
  rw [← hqp]
  exact h.first q (Array.mem_def.mpr (List.mem_of_getElem? hq))

/-- What the vertices passed, the indices returned for them and the builder have to do with each other.
Two calls are compared as pairs of the vertex passed and the index returned. -/
structure Shared (passed : List Point) (returned : List UInt32) (b : Builder) : Prop where
  /-- An index counts the keys before its own. -/
  places   : returned = passed.map (place passed)
  /-- There is one vertex for each key, in the order in which the keys appear first. -/
  keys     : b.mesh.positions.toList.map key = keysOf passed
  /-- It is the first vertex passed with that key. -/
  first    : ∀ q ∈ b.mesh.positions, passed.find? (key · == key q) = some q
  /-- The index has one entry for each vertex. -/
  distinct : (b.index.map Prod.fst).Nodup
  inStep   : b.index.length = b.mesh.vertexCount
  /-- As long as the indices reach, calls return the same one when the coordinates agree in millionths. -/
  same     : b.Fits → ∀ c ∈ passed.zip returned, ∀ c' ∈ passed.zip returned,
    c.2 = c'.2 ↔ SameMillionths c.1 c'.1
  /-- The indices are those of the vertices, in the order in which they appear first. -/
  order    : b.Fits → returned.eraseDups = (List.range b.mesh.vertexCount).map Nat.toUInt32
  /-- The index returned is that of the first vertex with the key. -/
  stored   : b.Fits → ∀ c ∈ passed.zip returned, b.mesh.vertex? c.2 = passed.find? (key · == key c.1)

theorem After.shared (h : After passed b) : Shared passed (passed.map (place passed)) b := by
  have hcall : ∀ c ∈ passed.zip (passed.map (place passed)), c.1 ∈ passed ∧ c.2 = place passed c.1 := by
    rw [← List.map_prod_left_eq_zip]
    simp
  refine ⟨rfl, h.keys, h.first, h.entries.nodup_iff.mpr (nodup_eraseDups _), ?_,
    fun hfit c hc c' hc' => ?_, fun hfit => ?_, fun hfit c hc => ?_⟩
  · rw [h.vertexCount, ← h.entries.length_eq, List.length_map]
  · obtain ⟨hp, e⟩ := hcall c hc
    obtain ⟨hp', e'⟩ := hcall c' hc'
    rw [e, e', place_eq_iff (h.fits_iff.mp hfit) hp hp', key_eq_iff]
  · rw [h.vertexCount, eraseDups_map_place (h.fits_iff.mp hfit)]
  · obtain ⟨hp, e⟩ := hcall c hc
    obtain ⟨q, hvertex, hfind, -⟩ := h.vertex?_place hfit hp
    rw [e, hvertex, hfind]

/-- The vertices of a triangle have the keys of the leaf's corners. -/
theorem After.corners?_placed (h : After passed b) (hfit : b.Fits) {k : Corners}
    (hk : ∀ p ∈ k.points, p ∈ passed) : ∃ k', b.mesh.corners? (placed passed k) = some k' ∧
      k'.points.map key = k.points.map key := by
  simp only [Corners.points, List.forall_mem_cons] at hk
  obtain ⟨ha, hb, hc, -⟩ := hk
  obtain ⟨p, ha, -, hp⟩ := h.vertex?_place hfit ha
  obtain ⟨q, hb, -, hq⟩ := h.vertex?_place hfit hb
  obtain ⟨r, hc, -, hr⟩ := h.vertex?_place hfit hc
  refine ⟨⟨p, q, r⟩, by rw [placed, Mesh.corners?, ha, hb, hc], ?_⟩
  simp only [Corners.points, List.map_cons, List.map_nil, hp, hq, hr]

theorem triangleCount_add (b : Builder) (s : Subdivision) :
    (b.add s).mesh.triangleCount = b.mesh.triangleCount + (3 * s.splits + 1) := by
  rw [← s.length_leaves, add]
  induction s.leaves generalizing b with
  | nil => rfl
  | cons k ks ih =>
    obtain ⟨t, -, e⟩ := triangle_eq b k
    have htriangle : (b.triangle k).mesh.triangleCount = b.mesh.triangleCount + 1 := by
      rw [e, Mesh.triangleCount, Mesh.addTriangle, triangles_vertices, List.length_append]
      rfl
    rw [List.foldl_cons, ih, htriangle, List.length_cons]
    omega

/-- The indices of the triangles are those returned for the corners of the leaves. -/
theorem indexBuffer_leaves (ks : List Corners) : (ks.foldl triangle empty).mesh.indexBuffer =
    (ks.flatMap Corners.points).map (place (ks.flatMap Corners.points)) := by
  rw [Mesh.indexBuffer, (empty_after.leaves ks).2, List.nil_append, List.map_flatMap]
  exact List.flatMap_map ..

/-- **Vertices are shared by key**, and the key is the three coordinates in millionths.  So it is with any
vertices passed to a builder, and with the corners of the leaves of any subdivisions added to it, where the
indices returned are those of the triangles; as long as the indices reach, each triangle is on vertices with
the keys of the leaf's corners.  A tree with `n` splits adds `3 * n + 1` triangles.  The subdivisions of the
unit sphere are the trees of recursions that end. -/
theorem vertices_shared :
    (∀ p, key p = ⟨inMillionths p.x, inMillionths p.y, inMillionths p.z⟩) ∧
    (∀ ps, Shared ps (empty.vertices ps).1 (empty.vertices ps).2) ∧
    (∀ ss : List Subdivision, let b := ss.foldl add empty
      let leaves := ss.flatMap Subdivision.leaves
      Shared (leaves.flatMap Corners.points) b.mesh.indexBuffer b ∧
      b.mesh.InRange ∧
      (b.Fits → List.Forall₂ (fun t k => ∃ k', b.mesh.corners? t = some k' ∧
        k'.points.map key = k.points.map key) b.mesh.triangles leaves)) ∧
    (∀ (b : Builder) (s : Subdivision),
      (b.add s).mesh.triangleCount = b.mesh.triangleCount + (3 * s.splits + 1)) ∧
    List.Forall₂ Subdivides unitFaces subdivisions := by
  refine ⟨key_eq, fun ps => ?_,
    fun ss => ⟨?_, (foldl_add_sound empty_sound ss).triangles, fun hfit => ?_⟩, triangleCount_add,
    subdivisions_subdivide.1⟩
  · obtain ⟨hreturned, hafter⟩ := empty_after.vertices ps
    rw [hreturned]
    exact hafter.shared
  · rw [foldl_add_eq, indexBuffer_leaves]
    exact (empty_after.leaves _).1.shared
  · rw [foldl_add_eq] at hfit ⊢
    obtain ⟨hafter, htriangles⟩ := empty_after.leaves (ss.flatMap Subdivision.leaves)
    rw [htriangles]
    refine List.forall₂_map_left_iff.mpr (List.forall₂_same.mpr fun k hk => ?_)
    exact hafter.corners?_placed hfit fun p hp => List.mem_flatMap.mpr ⟨k, hk, hp⟩

/-- There are at most three vertices for each leaf. -/
theorem fits_of_leaves {ss : List Subdivision} {n : Nat} (h : (ss.flatMap Subdivision.leaves).length ≤ n)
    (hn : n * 3 ≤ 2 ^ 32) : (ss.foldl add empty).Fits := by
  rw [foldl_add_eq, (empty_after.leaves _).1.fits_iff, List.nil_append]
  calc (keysOf ((ss.flatMap Subdivision.leaves).flatMap Corners.points)).length
      ≤ ((ss.flatMap Subdivision.leaves).flatMap Corners.points).length := length_keysOf_le _
    _ = (ss.flatMap Subdivision.leaves).length * 3 := by
      generalize ss.flatMap Subdivision.leaves = ks
      simp [Corners.points, List.map_const']
    _ ≤ n * 3 := Nat.mul_le_mul_right 3 h
    _ ≤ 2 ^ 32 := hn

theorem length_leaves_subdivisions :
    (subdivisions.flatMap Subdivision.leaves).length ≤ faces.length * 4 ^ depth := by
  have hface : ∀ n ∈ subdivisions.map fun s => s.leaves.length, n ≤ 4 ^ depth := by
    rw [subdivisions, List.map_map]
    intro n hn
    obtain ⟨k, -, rfl⟩ := List.mem_map.mp hn
    exact length_leaves_subdivide depth k
  have hcount : subdivisions.length = faces.length := by
    rw [subdivisions, unitFaces, List.length_map, List.length_map]
  have hsum := List.sum_le_card_nsmul _ _ hface
  rwa [List.length_map, hcount, ← List.length_flatMap] at hsum

/-- The indices of the unit sphere reach, whatever its vertices are. -/
theorem subdivisions_fit : (subdivisions.foldl add empty).Fits :=
  fits_of_leaves length_leaves_subdivisions (by decide)

/-- Vertices that differ in one coordinate, and vertices that round to earlier ones. -/
def near : List Point :=
  [.origin, ⟨0, 1, 0⟩, ⟨0, 0, 1⟩, ⟨0.0000004, -0.0000004, 0.0000004⟩, ⟨0, 1, 0.000002⟩,
    ⟨-0.0000002, 1.0000001, 0⟩]

/-- Vertices that differ by a millionth or more in one coordinate are kept apart, whichever it is, and those
that differ by less in all three become one.  The triangles of the unit sphere have the corners of the
leaves. -/
theorem vertices_shared_near :
    (empty.vertices near).2.Fits ∧
    (empty.vertices near).1 = [0, 1, 2, 0, 3, 1] ∧
    (empty.vertices near).1.eraseDups = [0, 1, 2, 3] ∧
    ¬ SameMillionths .origin ⟨0, 1, 0⟩ ∧ ¬ SameMillionths .origin ⟨0, 0, 1⟩ ∧
    ¬ SameMillionths ⟨0, 1, 0⟩ ⟨0, 1, 0.000002⟩ ∧
    SameMillionths .origin ⟨0.0000004, -0.0000004, 0.0000004⟩ ∧
    SameMillionths ⟨0, 1, 0⟩ ⟨-0.0000002, 1.0000001, 0⟩ ∧
    (subdivisions.foldl add empty).Fits ∧
    List.Forall₂ (fun t k => ∃ k', (subdivisions.foldl add empty).mesh.corners? t = some k' ∧
        k'.points.map key = k.points.map key)
      (subdivisions.foldl add empty).mesh.triangles (subdivisions.flatMap Subdivision.leaves) := by
  obtain ⟨-, hcalls, hleaves, -⟩ := vertices_shared
  have hfit : (empty.vertices near).2.Fits := by decide +kernel
  have hindices : (empty.vertices near).1 = [0, 1, 2, 0, 3, 1] := by decide +kernel
  have hcount : (empty.vertices near).2.mesh.vertexCount = 4 := by decide +kernel
  have horder := (hcalls near).order hfit
  have hsame := (hcalls near).same hfit
  rw [hcount] at horder
  rw [hindices] at hsame
  have hmem (n : Nat) {c : Point × UInt32} (h : (near.zip [0, 1, 2, 0, 3, 1])[n]? = some c) :
      c ∈ near.zip [0, 1, 2, 0, 3, 1] := List.mem_of_getElem? h
  refine ⟨hfit, hindices, horder, ?_, ?_, ?_, ?_, ?_, subdivisions_fit,
    (hleaves subdivisions).2.2 subdivisions_fit⟩
  · exact (hsame _ (hmem 0 rfl) _ (hmem 1 rfl)).not.mp (by decide)
  · exact (hsame _ (hmem 0 rfl) _ (hmem 2 rfl)).not.mp (by decide)
  · exact (hsame _ (hmem 1 rfl) _ (hmem 4 rfl)).not.mp (by decide)
  · exact (hsame _ (hmem 0 rfl) _ (hmem 3 rfl)).mp rfl
  · exact (hsame _ (hmem 1 rfl) _ (hmem 5 rfl)).mp rfl

end Builder

end Prims.Sphere
