import Prims.Proofs.Mesh.Edits
import Prims.Proofs.Triangulation.Output

/-!
# Mesh — Removal

Removing vertices.  When one goes, every other vertex keeps its position under its new index
(`vertex?_removeVertex`), so the triangles that do not use it stay where they are
(`corners?_removeVertex`).

Removing several is order sensitive, since the indices above a removed vertex move.  From the highest
down, no index that is still to be removed moves, and the removals come to `Mesh.without`, which drops
everything at once and moves an index down by the number of removed vertices below it
(`foldlM_removeVertex`).  The step is that a removal before `without` is one more vertex for `without`
(`without_removeVertex`).
-/

namespace Prims

open Triangle

namespace Mesh

variable {m m' : Mesh} {i j k : UInt32} {gone : List UInt32}

/-! ### One vertex -/

/-- The mesh after one removal. -/
theorem removeVertex?_eq (hi : i.toNat < m.vertexCount) : m.removeVertex? i = some
    ⟨(m.positions.toList.eraseIdx i.toNat).toArray,
      (m.triangles.filter fun t => !t.uses i).map (Triangle.map (indexAfter i)), []⟩ := by
  obtain ⟨⟨ps⟩, ts, ns⟩ := m
  exact removeVertex?_toArray hi

/-- **Every other vertex keeps its position.** -/
theorem vertex?_removeVertex (h : m.removeVertex? i = some m') (hj : j ≠ i) :
    m'.vertex? (indexAfter i j) = m.vertex? j := by
  obtain ⟨hi, -⟩ := Option.ite_none_right_eq_some.mp h
  cases (removeVertex?_eq hi).symm.trans h
  rw [Ne, ← UInt32.toNat_inj] at hj
  unfold vertex?
  rw [List.getElem?_toArray, List.getElem?_eraseIdx]
  rcases Nat.lt_or_gt_of_ne hj with hlt | hlt
  · rw [indexAfter_of_le (Nat.le_of_lt hlt), if_pos hlt, Array.getElem?_toList]
  · have hpred : (j - 1).toNat + 1 = j.toNat := by
      rw [toNat_pred (by omega)]
      omega
    rw [indexAfter_of_lt hlt, if_neg (by omega), hpred, Array.getElem?_toList]

/-- **A triangle that stays has its corners where they were**, in the same order. -/
theorem corners?_removeVertex (h : m.removeVertex? i = some m') {t : Triangle} (ht : t.uses i = false) :
    m'.corners? (t.map (indexAfter i)) = m.corners? t := by
  have hne : ∀ j ∈ t.indices, j ≠ i := by
    rintro j hj rfl
    rw [uses_iff.mpr hj] at ht
    cases ht
  simp only [corners?, Triangle.map, vertex?_removeVertex h (hne t.v1 (by simp [indices])),
    vertex?_removeVertex h (hne t.v2 (by simp [indices])),
    vertex?_removeVertex h (hne t.v3 (by simp [indices]))]

/-- The triangles that stay, by the positions of their corners. -/
theorem map_corners?_removeVertex (h : m.removeVertex? i = some m') :
    m'.triangles.map m'.corners? = (m.triangles.filter fun t => !t.uses i).map m.corners? := by
  have htriangles : m'.triangles =
      (m.triangles.filter fun t => !t.uses i).map (Triangle.map (indexAfter i)) := by
    obtain ⟨hi, -⟩ := Option.ite_none_right_eq_some.mp h
    cases (removeVertex?_eq hi).symm.trans h
    rfl
  rw [htriangles, List.map_map]
  exact List.map_congr_left fun t ht =>
    corners?_removeVertex h (by simpa using (List.mem_filter.mp ht).2)

/-! ### Several vertices -/

/-- The index of a vertex when those of `gone` are no longer there: less by as many as were below it. -/
def indexWithout (gone : List UInt32) (i : UInt32) : UInt32 := i - (gone.countP (· < i)).toUInt32

/-- The mesh without the vertices of `gone` and the triangles that use one of them, all at once.  Without
any vertex to remove the normals stay. -/
def without (m : Mesh) (gone : List UInt32) : Mesh where
  positions := ((m.positions.toList.zipIdx.filter fun p => p.2 ∉ gone.map UInt32.toNat).map Prod.fst).toArray
  triangles := (m.triangles.filter fun t => !gone.any t.uses).map (Triangle.map (indexWithout gone))
  normals   := if gone.isEmpty then m.normals else []

theorem indexWithout_nil (i : UInt32) : indexWithout [] i = i := by
  simp [indexWithout]

theorem without_nil (m : Mesh) : m.without [] = m := by
  have hid : Triangle.map (indexWithout []) = id := by
    funext t
    simp only [Triangle.map, indexWithout_nil, id_eq]
  simp [without, hid]

/-- Removing a vertex and then others below it moves an index down once for each of them. -/
theorem indexWithout_indexAfter (hlow : ∀ j ∈ gone, j < i) (k : UInt32) :
    indexWithout gone (indexAfter i k) = indexWithout (i :: gone) k := by
  unfold indexWithout
  rw [List.countP_cons]
  rcases Nat.lt_or_ge i.toNat k.toNat with hk | hk
  · -- all of them are below `k`, and below the index before it
    have hall : ∀ j ∈ gone, j < k - 1 ∧ j < k := by
      intro j hj
      have := UInt32.lt_iff_toNat_lt.mp (hlow j hj)
      rw [UInt32.lt_iff_toNat_lt, UInt32.lt_iff_toNat_lt, toNat_pred (by omega)]
      omega
    have hcount : (gone.length + 1).toUInt32 = gone.length.toUInt32 + 1 := UInt32.ofNat_add _ _
    rw [indexAfter_of_lt hk, if_pos (decide_eq_true (UInt32.lt_iff_toNat_lt.mpr hk)),
      List.countP_eq_length.mpr fun j hj => decide_eq_true (hall j hj).1,
      List.countP_eq_length.mpr fun j hj => decide_eq_true (hall j hj).2, hcount]
    grind
  · rw [indexAfter_of_le hk, if_neg (by simpa using UInt32.le_iff_toNat_le.mpr hk), Nat.add_zero]

/-- Places before the list starts filter nothing. -/
theorem filter_zipIdx_of_lt {α : Type} {ns : List Nat} : ∀ (l : List α) (s : Nat), (∀ n ∈ ns, n < s) →
    ((l.zipIdx s).filter fun p => p.2 ∉ ns).map Prod.fst = l := by
  intro l s h
  rw [List.filter_eq_self.mpr, List.zipIdx_map_fst]
  intro p hp
  refine decide_eq_true fun hmem => ?_
  have := List.le_snd_of_mem_zipIdx hp
  have := h p.2 hmem
  omega

/-- Erasing a place and then filtering places below it filters all of them at once. -/
theorem filter_zipIdx_eraseIdx {α : Type} {ns : List Nat} : ∀ (l : List α) (n s : Nat),
    (∀ x ∈ ns, x < s + n) → (((l.eraseIdx n).zipIdx s).filter fun p => p.2 ∉ ns).map Prod.fst =
      ((l.zipIdx s).filter fun p => p.2 ∉ (s + n) :: ns).map Prod.fst
  | [], _, _, _ => rfl
  | a :: l, 0, s, h => by
    have hnext : ∀ x ∈ s :: ns, x < s + 1 := by
      intro x hx
      rcases List.mem_cons.mp hx with rfl | hx
      · omega
      · exact Nat.lt_succ_of_lt (h x hx)
    rw [List.eraseIdx_cons_zero, filter_zipIdx_of_lt l s h, List.zipIdx_cons,
      List.filter_cons_of_neg (by simp), Nat.add_zero, filter_zipIdx_of_lt l (s + 1) hnext]
  | a :: l, n + 1, s, h => by
    have ih := filter_zipIdx_eraseIdx l n (s + 1) fun x hx => by
      have := h x hx
      omega
    rw [Nat.add_right_comm, Nat.add_assoc] at ih
    rw [List.eraseIdx_cons_succ, List.zipIdx_cons, List.zipIdx_cons, List.filter_cons, List.filter_cons]
    have hsame : (s ∉ (s + (n + 1)) :: ns) ↔ s ∉ ns := by simp
    simp only [hsame]
    split
    · rw [List.map_cons, List.map_cons, ih]
    · exact ih

/-- **A removal before others below it** is one more vertex to remove at once. -/
theorem without_removeVertex (hi : i.toNat < m.vertexCount) (hlow : ∀ j ∈ gone, j < i) :
    (m.removeVertex? i).map (·.without gone) = some (m.without (i :: gone)) := by
  have hplaces : ∀ n ∈ gone.map UInt32.toNat, n < 0 + i.toNat := by
    intro n hn
    obtain ⟨j, hj, rfl⟩ := List.mem_map.mp hn
    rw [Nat.zero_add]
    exact UInt32.lt_iff_toNat_lt.mp (hlow j hj)
  have hpositions := filter_zipIdx_eraseIdx m.positions.toList i.toNat 0 hplaces
  have huses : ∀ t : Triangle, (!t.uses i && !gone.any (t.map (indexAfter i)).uses) =
      !(i :: gone).any t.uses := by
    intro t
    have hany : gone.any (t.map (indexAfter i)).uses = gone.any t.uses := by
      rw [Bool.eq_iff_iff, List.any_eq_true, List.any_eq_true]
      exact exists_congr fun j => and_congr_right fun hj => by rw [uses_map_indexAfter (hlow j hj)]
    rw [hany, List.any_cons, Bool.not_or]
  have hindices : Triangle.map (indexWithout gone) ∘ Triangle.map (indexAfter i) =
      Triangle.map (indexWithout (i :: gone)) := by
    funext t
    simp only [Function.comp_apply, Triangle.map, indexWithout_indexAfter hlow]
  rw [removeVertex?_eq hi, Option.map_some, Option.some_inj, without, without, Mesh.mk.injEq]
  refine ⟨?_, ?_, ?_⟩
  · rw [Nat.zero_add] at hpositions
    exact congrArg List.toArray hpositions
  · rw [List.filter_map, List.map_map, hindices, List.filter_filter]
    exact congrArg _ (List.filter_congr fun t _ => (Bool.and_comm _ _).trans (huses t))
  · simp

/-- **Removing vertices from the highest down** is removing all of them at once. -/
theorem foldlM_removeVertex (hdesc : gone.Pairwise (· > ·)) (hin : ∀ i ∈ gone, i.toNat < m.vertexCount) :
    gone.foldlM removeVertex? m = some (m.without gone) := by
  induction gone generalizing m with
  | nil =>
    rw [without_nil]
    rfl
  | cons i gone ih =>
    obtain ⟨hlow, hdesc⟩ := List.pairwise_cons.mp hdesc
    obtain ⟨hi, -⟩ := List.forall_mem_cons.mp hin
    have hcount : ∀ m', m.removeVertex? i = some m' → m'.vertexCount = m.vertexCount - 1 := by
      intro m' h
      cases (removeVertex?_eq hi).symm.trans h
      simp [vertexCount, List.length_eraseIdx_of_lt (show i.toNat < m.positions.toList.length from hi)]
    obtain ⟨m', h, hstep⟩ := Option.map_eq_some_iff.mp (without_removeVertex hi hlow)
    rw [List.foldlM_cons, h, ← hstep]
    refine ih hdesc fun j hj => ?_
    have := UInt32.lt_iff_toNat_lt.mp (hlow j hj)
    rw [hcount m' h]
    omega

/-- **Removing vertices moves no triangle that stays.**  Removing one vertex of a mesh in range leaves the
other vertices in order, and, in order and with indices in range, exactly the triangles that do not use it,
each with its three corners where they were.  Removing any set of vertices, the highest index first, is
dropping the triangles that use one of them and moving the other indices down by the number of removed
vertices below, which is how the seeds of a triangulation are removed. -/
theorem removal_keeps_corners (m : Mesh) :
    (m.InRange → ∀ i : UInt32, i.toNat < m.vertexCount → ∃ m', m.removeVertex? i = some m' ∧
      m'.positions.toList = m.positions.toList.eraseIdx i.toNat ∧
      m'.triangles = (m.triangles.filter fun t => !t.uses i).map (Triangle.map (indexAfter i)) ∧
      m'.InRange ∧
      m'.triangles.map m'.corners? = (m.triangles.filter fun t => !t.uses i).map m.corners?) ∧
    (∀ gone : List UInt32, gone.Pairwise (· > ·) → (∀ i ∈ gone, i.toNat < m.vertexCount) →
      gone.foldlM removeVertex? m = some (m.without gone)) ∧
    (3 ≤ m.vertexCount → Triangulation.withoutSeeds? m = some (m.without [2, 1, 0])) := by
  refine ⟨fun hm i hi => ?_, fun gone => foldlM_removeVertex, fun h3 => ?_⟩
  · obtain ⟨m', h, hm'⟩ := hm.removeVertex? hi
    refine ⟨m', h, ?_, ?_, hm', map_corners?_removeVertex h⟩
    · cases (removeVertex?_eq hi).symm.trans h
      rfl
    · cases (removeVertex?_eq hi).symm.trans h
      rfl
  · have hin : ∀ i ∈ [2, 1, (0 : UInt32)], i.toNat < m.vertexCount := by
      intro i hi
      have : i.toNat < 3 := by
        simp only [List.mem_cons, List.not_mem_nil, or_false] at hi
        rcases hi with rfl | rfl | rfl <;> decide
      omega
    rw [← foldlM_removeVertex (by decide) hin, Triangulation.withoutSeeds?]
    simp only [List.foldlM_cons, List.foldlM_nil, bind_pure]

/-- A square in two triangles, with a vertex to spare. -/
def spareSquare : Mesh :=
  ⟨#[.flat 0 0, .flat 1 0, .flat 5 5, .flat 1 1, .flat 0 1], [⟨0, 1, 3⟩, ⟨0, 3, 4⟩], []⟩

/-- Without the vertex to spare the square is whole; without another one half of it is left, on its corners. -/
theorem removal_keeps_corners_square : spareSquare.InRange ∧
    (∃ m', spareSquare.removeVertex? 2 = some m' ∧ m'.InRange ∧ m'.triangles = [⟨0, 1, 2⟩, ⟨0, 2, 3⟩] ∧
      m'.triangles.map m'.corners? = spareSquare.triangles.map spareSquare.corners?) ∧
    [2, (1 : UInt32)].foldlM removeVertex? spareSquare =
      some ⟨#[.flat 0 0, .flat 1 1, .flat 0 1], [⟨0, 1, 2⟩], []⟩ ∧
    (Triangulation.withoutSeeds? spareSquare).isSome = true := by
  have hin : spareSquare.InRange := by decide
  have hthere : ∀ i ∈ [2, (1 : UInt32)], i.toNat < spareSquare.vertexCount := by
    simp [spareSquare, vertexCount]
  obtain ⟨hone, hset, hseeds⟩ := removal_keeps_corners spareSquare
  obtain ⟨m', h, -, htriangles, hm', hcorners⟩ := hone hin 2 (by decide)
  refine ⟨hin, ⟨m', h, hm', htriangles, hcorners⟩, ?_, ?_⟩
  · rw [hset [2, 1] (by decide) hthere]
    decide +kernel
  · rw [hseeds (by decide)]
    rfl

end Mesh

end Prims
