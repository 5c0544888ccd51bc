import Mathlib.Data.List.Basic
import Mathlib.Data.List.Induction
import Prims.Proofs.Mesh.Basic

/-!
# Mesh — Edits

A mesh comes about by edits, one after the other from the empty mesh (`Mesh.run?`).  When the indices
they name are in range (`Mesh.Fit`), every edit succeeds and the triangles stay in range.

Removing triangles drops the normals and computing the normals makes one for every triangle, but a
triangle that is added leaves the normals as they were.  So there are never more normals than
triangles (`length_normals_le`), and the two lists are parallel exactly when every triangle that was
added beside normals comes before an edit that renews them (`run_parallel_iff`).
-/

namespace Prims.Mesh

variable {m m' : Mesh}

/-! ### Edits -/

/-- An operation on a mesh, with its arguments. -/
inductive Edit where
  | addVertex (p : Point)
  | setVertex (i : UInt32) (p : Point)
  | addHull (h : Hull)
  | addTriangle (t : Triangle)
  | retain (keep : Triangle → Bool)
  /-- Keep triangles by answers that need not be the same for the same triangle. -/
  | retainFlagged (flags : List Bool)
  | removeVertex (i : UInt32)
  | removeOutside (h : Hull)
  | removeDegenerate
  | calculateNormals
  | flip
  | scale (size : Point)

namespace Edit

/-- The mesh after the edit. -/
def step? : Edit → Mesh → Option Mesh
  | .addVertex p,         m => some (m.addVertex p)
  | .setVertex i p,       m => m.setVertex? i p
  | .addHull h,           m => some (m.addHull h)
  | .addTriangle t,       m => some (m.addTriangle t)
  | .retain keep,         m => some (m.retain keep)
  | .retainFlagged flags, m => some (m.retainFlagged flags)
  | .removeVertex i,      m => m.removeVertex? i
  | .removeOutside h,     m => m.removeOutside? h
  | .removeDegenerate,    m => m.removeDegenerate?
  | .calculateNormals,    m => m.withNormals?
  | .flip,                m => some m.flip
  | .scale size,          m => some (m.scale size)

/-- The indices that the edit names are in range. -/
def Fits (m : Mesh) : Edit → Prop
  | .setVertex i _ | .removeVertex i => i.toNat < m.vertexCount
  | .addTriangle t => ∀ i ∈ t.indices, i.toNat < m.vertexCount
  | _ => True

instance (m : Mesh) : (e : Edit) → Decidable (e.Fits m)
  | .setVertex .. | .removeVertex .. => inferInstanceAs (Decidable (_ < _))
  | .addTriangle t =>
    -- by the list: an instance for all `UInt32` would go through every one of them
    decidable_of_iff (t.indices.all fun i => i.toNat < m.vertexCount) (by simp [Fits])
  | .addVertex _ | .addHull _ | .retain _ | .retainFlagged _ | .removeOutside _ | .removeDegenerate
  | .calculateNormals | .flip | .scale _ => .isTrue trivial

/-- The edit drops all normals or computes all of them. -/
def renews : Edit → Bool
  | .retain _ | .retainFlagged _ | .removeVertex _ | .removeOutside _ | .removeDegenerate
  | .calculateNormals => true
  | _ => false

end Edit

/-! ### Edits with indices in range -/

theorem InRange.retainFlagged (hm : m.InRange) (flags : List Bool) : (m.retainFlagged flags).InRange := by
  refine hm.mono (Nat.le_refl _) fun t ht => ?_
  obtain ⟨f, hf, rfl⟩ := List.mem_map.mp ht
  exact (List.of_mem_zip (List.mem_filter.mp hf).1).1

/-- The vertices that stay have indices in range when one has gone. -/
theorem toNat_indexAfter_lt {removed i : UInt32} {count : Nat} (hr : removed.toNat < count)
    (hi : i.toNat < count) (hne : i ≠ removed) : (indexAfter removed i).toNat < count - 1 := by
  rw [Ne, ← UInt32.toNat_inj] at hne
  rcases Nat.lt_or_gt_of_ne hne with hlt | hlt
  · rw [indexAfter_of_le (Nat.le_of_lt hlt)]
    omega
  · rw [indexAfter_of_lt hlt, toNat_pred (by omega)]
    omega

theorem InRange.removeVertex? (hm : m.InRange) {i : UInt32} (hi : i.toNat < m.vertexCount) :
    ∃ m', m.removeVertex? i = some m' ∧ m'.InRange := by
  refine ⟨_, if_pos hi, fun t ht j hj => ?_⟩
  obtain ⟨s, hs, rfl⟩ := List.mem_map.mp ht
  obtain ⟨k, hk, rfl⟩ := List.mem_map.mp (show j ∈ s.indices.map (indexAfter i) from hj)
  obtain ⟨hs, hu⟩ := List.mem_filter.mp hs
  rw [Bool.not_eq_true', ← Bool.not_eq_true, Triangle.uses_iff] at hu
  have hne : k ≠ i := ne_of_mem_of_not_mem hk hu
  have hcount : (m.positions.eraseIdxIfInBounds i.toNat).size = m.vertexCount - 1 := by
    rw [Array.eraseIdxIfInBounds, dif_pos (show i.toNat < m.positions.size from hi), Array.size_eraseIdx]
    rfl
  show _ < (m.positions.eraseIdxIfInBounds i.toNat).size
  rw [hcount]
  exact toNat_indexAfter_lt hi (hm s hs k hk) hne

/-- **An edit with its indices in range succeeds**, and the triangles stay in range. -/
theorem Edit.step?_inRange {e : Edit} (hm : m.InRange) (he : e.Fits m) :
    ∃ m', e.step? m = some m' ∧ m'.InRange := by
  cases e with
  | addVertex p => exact ⟨_, rfl, hm.mono (by simp [Mesh.addVertex, vertexCount]) fun _ ht => ht⟩
  | setVertex i p =>
    exact ⟨_, if_pos he, hm.mono (by simp [vertexCount]) fun _ ht => ht⟩
  | addHull h => exact ⟨_, rfl, hm.mono (by simp [Mesh.addHull, vertexCount]) fun _ ht => ht⟩
  | addTriangle t => exact ⟨_, rfl, hm.addTriangle he⟩
  | retain keep => exact ⟨_, rfl, hm.retain keep⟩
  | retainFlagged flags => exact ⟨_, rfl, hm.retainFlagged flags⟩
  | removeVertex i => exact hm.removeVertex? he
  | removeOutside h => exact ⟨_, removeOutside?_eq hm h, hm.retain _⟩
  | removeDegenerate => exact ⟨_, removeDegenerate?_eq hm, hm.retain _⟩
  | calculateNormals => exact ⟨_, withNormals?_eq hm, hm⟩
  | flip => exact ⟨_, rfl, hm.flip⟩
  | scale size => exact ⟨_, rfl, hm.mapVertices _⟩

/-! ### Runs -/

/-- The mesh after the edits, first to last. -/
def run? (edits : List Edit) : Option Mesh := edits.foldlM (fun m e => e.step? m) empty

/-- Each of the edits names indices in range of the mesh that it meets. -/
def Fit (m : Mesh) : List Edit → Prop
  | []         => True
  | e :: edits => e.Fits m ∧ ∀ m' ∈ e.step? m, Fit m' edits

instance decidableFit (m : Mesh) : (edits : List Edit) → Decidable (Fit m edits)
  | []         => .isTrue trivial
  | e :: edits =>
    have := fun m' => decidableFit m' edits
    inferInstanceAs (Decidable (e.Fits m ∧ ∀ m' ∈ e.step? m, Fit m' edits))

theorem foldlM_inRange (edits : List Edit) (hm : m.InRange) (h : Fit m edits) :
    ∃ m', edits.foldlM (fun m e => e.step? m) m = some m' ∧ m'.InRange := by
  induction edits generalizing m with
  | nil => exact ⟨m, rfl, hm⟩
  | cons e edits ih =>
    obtain ⟨m₁, h₁, hm₁⟩ := Edit.step?_inRange hm h.1
    rw [List.foldlM_cons, h₁]
    exact ih hm₁ (h.2 m₁ h₁)

theorem run?_inRange {edits : List Edit} (h : Fit empty edits) :
    ∃ m, run? edits = some m ∧ m.InRange :=
  foldlM_inRange edits (fun _ ht => absurd ht List.not_mem_nil) h

theorem run?_concat (edits : List Edit) (e : Edit) :
    run? (edits ++ [e]) = (run? edits).bind e.step? := by
  unfold run?
  rw [List.foldlM_append]
  cases edits.foldlM (fun m e => e.step? m) empty with
  | none => rfl
  | some m =>
    rw [Option.bind_eq_bind, Option.bind_some, List.foldlM_cons, Option.bind_some]
    cases e.step? m <;> rfl

/-! ### Normals beside triangles -/

/-- The flat list of normals is empty or has three coordinates for every triangle. -/
def Parallel (m : Mesh) : Prop :=
  m.normalBuffer.length = 0 ∨ m.normalBuffer.length = 3 * m.triangleCount

instance (m : Mesh) : Decidable m.Parallel := inferInstanceAs (Decidable (_ ∨ _))

theorem parallel_iff : m.Parallel ↔ m.normals.length = 0 ∨ m.normals.length = m.triangleCount := by
  rw [Parallel, length_normalBuffer]
  omega

/-- The edits that add a triangle while there are normals are all followed by one that renews them. -/
def Renewed (edits : List Edit) : Prop :=
  ∀ before t after m, edits = before ++ .addTriangle t :: after → run? before = some m →
    m.normals ≠ [] → ∃ e ∈ after, e.renews

/-- **What an edit does to normals**: it renews them, adds a triangle, or leaves both lists as long as
they were. -/
theorem Edit.step?_cases {e : Edit} (h : e.step? m = some m') :
    (e.renews ∧ (m'.normals.length = 0 ∨ m'.normals.length = m'.triangleCount)) ∨
    (∃ t, e = .addTriangle t ∧ m' = m.addTriangle t) ∨
    (e.renews = false ∧ (∀ t, e ≠ .addTriangle t) ∧ m'.normals.length = m.normals.length ∧
      m'.triangleCount = m.triangleCount) := by
  cases e with
  | addVertex p | addHull hull | flip | scale size =>
    cases h
    exact .inr (.inr ⟨rfl, by simp, by simp [Mesh.flip, Mesh.scale, mapVertices, Mesh.addVertex,
      Mesh.addHull, triangleCount]⟩)
  | setVertex i p =>
    obtain ⟨-, hm'⟩ := Option.ite_none_right_eq_some.mp h
    cases hm'
    exact .inr (.inr ⟨rfl, by simp, rfl, rfl⟩)
  | addTriangle t =>
    cases h
    exact .inr (.inl ⟨t, rfl, rfl⟩)
  | retain keep | retainFlagged flags =>
    cases h
    exact .inl ⟨rfl, .inl rfl⟩
  | removeVertex i =>
    obtain ⟨-, hm'⟩ := Option.ite_none_right_eq_some.mp h
    cases hm'
    exact .inl ⟨rfl, .inl rfl⟩
  | removeOutside hull | removeDegenerate =>
    obtain ⟨_, -, hm'⟩ := Option.bind_eq_some_iff.mp h
    cases hm'
    exact .inl ⟨rfl, .inl rfl⟩
  | calculateNormals =>
    obtain ⟨corners, hc, hm'⟩ := Option.bind_eq_some_iff.mp h
    cases hm'
    refine .inl ⟨rfl, .inr ?_⟩
    rw [List.length_map]
    exact length_of_mapM hc

/-- The list of normals is never the longer one. -/
theorem length_normals_le {edits : List Edit} (h : run? edits = some m) :
    m.normals.length ≤ m.triangleCount := by
  induction edits using List.reverseRecOn generalizing m with
  | nil =>
    cases h
    exact Nat.le_refl 0
  | append_singleton edits e ih =>
    rw [run?_concat] at h
    obtain ⟨m₀, h₀, he⟩ := Option.bind_eq_some_iff.mp h
    have hle := ih h₀
    rcases Edit.step?_cases he with ⟨-, hp⟩ | ⟨t, -, rfl⟩ | ⟨-, -, hn, ht⟩
    · omega
    · show m₀.normals.length ≤ (m₀.triangles ++ [t]).length
      rw [List.length_append]
      exact Nat.le_add_right_of_le hle
    · rwa [hn, ht]

/-- One more edit. -/
theorem renewed_concat {edits : List Edit} {e : Edit} : Renewed (edits ++ [e]) ↔
    (e.renews ∨ Renewed edits) ∧ ∀ t m, e = .addTriangle t → run? edits = some m → m.normals = [] := by
  constructor
  · intro h
    refine ⟨or_iff_not_imp_left.mpr fun hr before t after m hs hm hn => ?_, fun t m he hm => ?_⟩
    · obtain ⟨e', he', hr'⟩ := h before t (after ++ [e]) m (by rw [hs]; simp) hm hn
      rcases List.mem_append.mp he' with he' | he'
      · exact ⟨e', he', hr'⟩
      · exact absurd (List.mem_singleton.mp he' ▸ hr') hr
    · by_contra hn
      obtain ⟨e', he', -⟩ := h edits t [] m (by rw [he]) hm hn
      exact List.not_mem_nil he'
  · rintro ⟨hr, ha⟩ before t after m hs hm hn
    rcases List.eq_nil_or_concat' after with rfl | ⟨after, e', rfl⟩
    · obtain ⟨rfl, he⟩ := List.append_inj' hs rfl
      exact absurd (ha t m (List.singleton_inj.mp he) hm) hn
    · rw [← List.cons_append, ← List.append_assoc] at hs
      obtain ⟨hs', he⟩ := List.append_inj' hs rfl
      cases List.singleton_inj.mp he
      rcases hr with hr | hr
      · exact ⟨e, List.mem_append_right _ List.mem_cons_self, hr⟩
      · obtain ⟨e', he', hr'⟩ := hr before t after m hs' hm hn
        exact ⟨e', List.mem_append_left _ he', hr'⟩

/-- **When normals are parallel to the triangles.**  The induction is on the last edit: one that renews
makes the lists parallel whatever came before, and an added triangle keeps them so only without normals. -/
theorem parallel_iff_renewed {edits : List Edit} (h : run? edits = some m) :
    m.Parallel ↔ Renewed edits := by
  induction edits using List.reverseRecOn generalizing m with
  | nil =>
    cases h
    exact iff_of_true (.inl rfl) fun before t after _ hs => by simp at hs
  | append_singleton edits e ih =>
    rw [run?_concat] at h
    obtain ⟨m₀, h₀, he⟩ := Option.bind_eq_some_iff.mp h
    have ih := ih h₀
    rw [parallel_iff] at ih ⊢
    rw [renewed_concat, ← ih]
    rcases Edit.step?_cases he with ⟨hr, hp⟩ | ⟨t, rfl, rfl⟩ | ⟨hr, hne, hn, ht⟩
    · refine iff_of_true hp ⟨.inl hr, ?_⟩
      rintro t _ rfl
      cases hr
    · have hle := length_normals_le h₀
      have hcount : (m₀.addTriangle t).triangleCount = m₀.triangleCount + 1 := List.length_append
      have hnormals : (m₀.addTriangle t).normals = m₀.normals := rfl
      rw [hcount, hnormals, List.length_eq_zero_iff]
      constructor
      · intro hp
        have hnil : m₀.normals = [] := hp.resolve_right (by omega)
        refine ⟨.inr (.inl hnil), fun _ m _ hm => ?_⟩
        cases h₀.symm.trans hm
        exact hnil
      · rintro ⟨-, ha⟩
        exact .inl (ha t m₀ rfl h₀)
    · rw [hn, ht, hr]
      simp [hne]

/-- **The normals along a run.**  A run of edits with indices in range succeeds, its mesh is in range,
and the normals are parallel to the triangles exactly when none has been added beside normals since
they were last renewed. -/
theorem run_parallel_iff {edits : List Edit} (h : Fit empty edits) :
    ∃ m, run? edits = some m ∧ m.InRange ∧ (m.Parallel ↔ Renewed edits) := by
  obtain ⟨m, hm, hr⟩ := run?_inRange h
  exact ⟨m, hm, hr, parallel_iff_renewed hm⟩

/-- A triangle over three vertices, its normal, and a second triangle. -/
def staleRun : List Edit :=
  [.addVertex (.flat 0 0), .addVertex (.flat 1 0), .addVertex (.flat 0 1), .addTriangle ⟨0, 1, 2⟩,
    .calculateNormals, .addTriangle ⟨0, 2, 1⟩]

theorem run_parallel_iff_renewed_again : Fit empty (staleRun ++ [.calculateNormals]) ∧
    ∃ m, run? (staleRun ++ [.calculateNormals]) = some m ∧ m.InRange ∧
      (m.Parallel ↔ Renewed (staleRun ++ [.calculateNormals])) :=
  have h : Fit empty (staleRun ++ [.calculateNormals]) := by decide +kernel
  ⟨h, run_parallel_iff h⟩

/-- The second triangle has no normal, and the first normal is still there. -/
theorem staleRun_not_parallel : Fit empty staleRun ∧ ∃ m ∈ run? staleRun, m.InRange ∧
    m.triangleCount = 2 ∧ m.normalBuffer.length = 3 ∧ ¬m.Parallel := by
  decide +kernel

end Prims.Mesh
