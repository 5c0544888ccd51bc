import Mathlib.Data.List.Perm.Basic
import Prims.Triangulation
import Prims.Proofs.Tiling.Boundary

/-!
# Tiling — Rim

The edges that sorting finds.  `onceIn` keeps of a sorted list the elements that occur in it once
(`onceIn_eq_filter`), so `Mesh.rim` lists the undirected edges that exactly one removed triangle uses.
When no directed side is used twice these are the sides whose reverse is no side, each listed once
(`meshRim_perm`).
-/

namespace Prims

/-! ### Elements that occur once -/

section Once

variable {α : Type} [DecidableEq α] {le : α → α → Bool}

/-- In a sorted list without its leading copies of `a`, which is before everything, there is no `a`. -/
theorem not_mem_dropWhile (anti : ∀ a b, le a b → le b a → a = b) {a : α} :
    ∀ {l : List α}, (a :: l).Pairwise (fun x y => le x y) → a ∉ l.dropWhile (· == a)
  | [], _ => by simp
  | b :: l, h => by
    obtain ⟨ha, hl⟩ := List.pairwise_cons.mp h
    obtain ⟨hb, -⟩ := List.pairwise_cons.mp hl
    by_cases hab : b = a
    · subst hab
      rw [List.dropWhile_cons_of_pos (by simp)]
      exact not_mem_dropWhile anti hl
    · rw [List.dropWhile_cons_of_neg (by simpa using hab)]
      intro hm
      rcases List.mem_cons.mp hm with rfl | hm
      · exact hab rfl
      · exact hab (anti _ _ (hb a hm) (ha b List.mem_cons_self))

/-- Leading copies of an element that a filter drops make no difference to it. -/
theorem filter_dropWhile {a : α} {p : α → Bool} (ha : p a = false) :
    ∀ l : List α, (l.dropWhile (· == a)).filter p = l.filter p
  | [] => rfl
  | b :: l => by
    by_cases hab : b = a
    · subst hab
      rw [List.dropWhile_cons_of_pos (by simp), filter_dropWhile ha l,
        List.filter_cons_of_neg (by simp [ha])]
    · rw [List.dropWhile_cons_of_neg (by simpa using hab)]

theorem count_dropWhile {a b : α} (hb : b ≠ a) :
    ∀ l : List α, (l.dropWhile (· == a)).count b = l.count b
  | [] => rfl
  | c :: l => by
    by_cases hc : c = a
    · subst hc
      rw [List.dropWhile_cons_of_pos (by simp), count_dropWhile hb l, List.count_cons_of_ne hb.symm]
    · rw [List.dropWhile_cons_of_neg (by simpa using hc)]

/-- **Of a sorted list `onceIn` keeps what occurs once.** -/
theorem onceIn_eq_filter (anti : ∀ a b, le a b → le b a → a = b) (l : List α)
    (h : l.Pairwise fun x y => le x y) : onceIn l = l.filter fun a => l.count a = 1 := by
  fun_induction onceIn l with
  | case1 => rfl
  | case2 a r hr ih =>
    -- the copies of `a` go, and what follows holds none
    have hnot := not_mem_dropWhile anti h
    have htwo : ¬(a :: r).count a = 1 := by
      have := List.count_pos_iff.mpr (List.mem_of_mem_head? hr)
      rw [List.count_cons_self]
      omega
    rw [ih ((List.pairwise_cons.mp h).2.sublist (List.dropWhile_sublist _)),
      List.filter_cons_of_neg (by simpa using htwo),
      ← filter_dropWhile (a := a) (decide_eq_false htwo) r]
    refine List.filter_congr fun b hb => ?_
    have hb' : b ≠ a := fun e => hnot (e ▸ hb)
    rw [count_dropWhile hb', List.count_cons_of_ne hb'.symm]
  | case3 a r hr ih =>
    obtain ⟨ha, hrs⟩ := List.pairwise_cons.mp h
    have hnot : a ∉ r := by
      intro hm
      cases r with
      | nil => simp at hm
      | cons b r =>
        have hb : le b a := by
          rcases List.mem_cons.mp hm with rfl | hm
          · simp at hr
          · exact (List.pairwise_cons.mp hrs).1 a hm
        exact hr (congrArg some (anti _ _ hb (ha b List.mem_cons_self)))
    rw [ih hrs, List.filter_cons_of_pos (by simp [List.count_eq_zero_of_not_mem hnot])]
    congr 1
    refine List.filter_congr fun b hb => ?_
    have hb' : a ≠ b := fun e => hnot (e ▸ hb)
    rw [List.count_cons_of_ne hb']

end Once

/-! ### The order of edges -/

namespace Edge

theorem before_iff {e f : Edge} : before e f = true ↔ e.low.toNat < f.low.toNat ∨
    (e.low.toNat = f.low.toNat ∧ e.high.toNat ≤ f.high.toNat) := by
  simp [before, UInt32.lt_iff_toNat_lt, UInt32.le_iff_toNat_le, UInt32.toNat_inj]

theorem before_total (e f : Edge) : before e f || before f e := by
  rw [Bool.or_eq_true, before_iff, before_iff]
  omega

theorem before_trans (e f g : Edge) : before e f → before f g → before e g := by
  simp only [before_iff]
  omega

theorem before_antisymm (e f : Edge) : before e f → before f e → e = f := by
  simp only [before_iff]
  intro h k
  have h₁ : e.low = f.low := UInt32.toNat_inj.mp (by omega)
  have h₂ : e.high = f.high := UInt32.toNat_inj.mp (by omega)
  cases e
  cases f
  simp_all

/-! ### Edges and directed sides -/

/-- The undirected edge of a directed one. -/
def ofArc (a : UInt32 × UInt32) : Edge := between a.1 a.2

theorem between_comm (a b : UInt32) : between a b = between b a := by
  unfold between
  by_cases h : a ≤ b <;> by_cases k : b ≤ a
  · rw [UInt32.le_antisymm h k]
  · rw [if_pos h, if_neg k]
  · rw [if_neg h, if_pos k]
  · exact absurd (UInt32.le_total a b) (by simp [h, k])

/-- The ends of an edge, in one of the two orders. -/
theorem ends_of_between (a b : UInt32) :
    ((between a b).low = a ∧ (between a b).high = b) ∨
      ((between a b).low = b ∧ (between a b).high = a) := by
  unfold between
  split
  · exact .inl ⟨rfl, rfl⟩
  · exact .inr ⟨rfl, rfl⟩

theorem ofArc_swap (a : UInt32 × UInt32) : ofArc a.swap = ofArc a := between_comm _ _

/-- Two directed edges with one undirected edge are equal or opposite. -/
theorem ofArc_eq_iff {a b : UInt32 × UInt32} : ofArc a = ofArc b ↔ a = b ∨ a = b.swap := by
  constructor
  · intro h
    have ha := ends_of_between a.1 a.2
    have hb := ends_of_between b.1 b.2
    unfold ofArc at h
    rw [h] at ha
    rcases ha with ⟨h₁, h₂⟩ | ⟨h₁, h₂⟩ <;> rcases hb with ⟨k₁, k₂⟩ | ⟨k₁, k₂⟩
    · exact .inl (Prod.ext (h₁.symm.trans k₁) (h₂.symm.trans k₂))
    · exact .inr (Prod.ext (h₁.symm.trans k₁) (h₂.symm.trans k₂))
    · exact .inr (Prod.ext (h₂.symm.trans k₂) (h₁.symm.trans k₁))
    · exact .inl (Prod.ext (h₂.symm.trans k₂) (h₁.symm.trans k₁))
  · rintro (rfl | rfl)
    · rfl
    · exact ofArc_swap b

end Edge

open Triangle

/-- The edges do not depend on the winding. -/
theorem Triangle.flip_edges (t : Triangle) : t.flip.edges.Perm t.edges := by
  simp only [edges, flip]
  rw [Edge.between_comm t.v1 t.v3, Edge.between_comm t.v3 t.v2, Edge.between_comm t.v2 t.v1]
  exact (List.Perm.swap _ _ _).trans ((List.Perm.swap _ _ _).cons _ |>.trans (.swap _ _ _))

/-- The edges of a list of triangles. -/
def edgesOf (ts : List Triangle) : List Edge := ts.flatMap Triangle.edges

theorem edgesOf_eq (ts : List Triangle) : edgesOf ts = (arcsOf ts).map Edge.ofArc := by
  induction ts with
  | nil => rfl
  | cons t ts ih =>
    rw [arcsOf_cons, List.map_append, ← ih]
    rfl

/-- Sorting finds the edges that occur once. -/
theorem onceIn_sort (edges : List Edge) :
    onceIn (Edge.sort edges) = (Edge.sort edges).filter fun e => edges.count e = 1 := by
  rw [Edge.sort, onceIn_eq_filter Edge.before_antisymm _
    (pairwise_sortBy Edge.before_total Edge.before_trans _)]
  simp only [(sortBy_perm Edge.before edges).count_eq]

theorem mem_onceIn_sort {e : Edge} {edges : List Edge} :
    e ∈ onceIn (Edge.sort edges) ↔ edges.count e = 1 := by
  rw [onceIn_sort, List.mem_filter, decide_eq_true_eq, Edge.sort, (sortBy_perm Edge.before edges).mem_iff]
  refine ⟨fun h => h.2, fun h => ⟨?_, h⟩⟩
  exact List.count_pos_iff.mp (h.symm ▸ Nat.one_pos)

theorem onceIn_sort_nodup (edges : List Edge) : (onceIn (Edge.sort edges)).Nodup := by
  have hperm := sortBy_perm Edge.before edges
  rw [onceIn_sort, Edge.sort, List.nodup_iff_count_le_one]
  intro e
  by_cases he : edges.count e = 1
  · exact (List.filter_sublist.count_le e).trans (hperm.count_eq e ▸ he.le)
  · rw [List.count_eq_zero_of_not_mem fun hm => he (by simpa using (List.mem_filter.mp hm).2)]
    exact zero_le_one

/-- The rim of removed triangles holds the edges that one of them uses. -/
theorem mem_meshRim {e : Edge} {ts : List Triangle} :
    e ∈ Mesh.rim ts ↔ (edgesOf ts).count e = 1 := mem_onceIn_sort

theorem meshRim_nodup (ts : List Triangle) : (Mesh.rim ts).Nodup := onceIn_sort_nodup _

/-- An edge occurs as often as its two directions together. -/
theorem count_ofArc {a : UInt32 × UInt32} (ha : a.swap ≠ a) (l : List (UInt32 × UInt32)) :
    (l.map Edge.ofArc).count (Edge.ofArc a) = l.count a + l.count a.swap := by
  induction l with
  | nil => rfl
  | cons b l ih =>
    rw [List.map_cons, List.count_cons, List.count_cons, List.count_cons, ih]
    by_cases h₁ : b = a
    · subst h₁
      simp [ha.symm]
      omega
    · by_cases h₂ : b = a.swap
      · subst h₂
        simp [h₁, Edge.ofArc_swap]
        omega
      · have : Edge.ofArc b ≠ Edge.ofArc a := fun e => (Edge.ofArc_eq_iff.mp e).elim h₁ h₂
        simp [h₁, h₂, this]

/-- **The rim that sorting finds is the rim**, when no directed side is used twice.  The triangles may
be given with any winding. -/
theorem meshRim_perm {ts us : List Triangle} (hn : (arcsOf us).Nodup)
    (hd : ∀ a ∈ arcsOf us, a.swap ≠ a) (he : (edgesOf ts).Perm (edgesOf us)) :
    (Mesh.rim ts).Perm ((rim us).map Edge.ofArc) := by
  have honce : ∀ a ∈ arcsOf us, (edgesOf us).count (Edge.ofArc a) = 1 ↔ a.swap ∉ arcsOf us := by
    intro a ha
    rw [edgesOf_eq, count_ofArc (hd a ha), List.count_eq_one_of_mem hn ha, ← List.count_eq_zero]
    omega
  refine (List.perm_ext_iff_of_nodup (meshRim_nodup ts) ?_).mpr fun e => ?_
  · refine (hn.filter _).map_on fun a ha b hb e => ?_
    rcases Edge.ofArc_eq_iff.mp e with h | h
    · exact h
    · exact absurd (h ▸ (mem_rim.mp ha).1) (mem_rim.mp hb).2
  · rw [mem_meshRim, he.count_eq]
    constructor
    · intro h1
      have hmem : e ∈ edgesOf us := List.count_pos_iff.mp (h1.symm ▸ Nat.one_pos)
      rw [edgesOf_eq] at hmem
      obtain ⟨a, ha, rfl⟩ := List.mem_map.mp hmem
      exact List.mem_map_of_mem (mem_rim.mpr ⟨ha, (honce a ha).mp h1⟩)
    · intro hm
      obtain ⟨a, ha, rfl⟩ := List.mem_map.mp hm
      obtain ⟨ha, hs⟩ := mem_rim.mp ha
      exact (honce a ha).mpr hs

end Prims
