import Mathlib.Logic.Relation
import Prims.Proofs.Triangulation.Insertion

/-!
# Triangulation — Cavity

The hole that an insertion makes and fills.  The edges of the triangles that go are sorted and scanned place
by place (`Scan`), copies counted as long as they follow on each other.  From every place the scan gets to the
end of the list, with the elements that stand alone (`Scan.reaches_end`), so for sorted edges it finds those
that occur once, in order (`exists_scanned`).  Main statement: `insertVertex?_edgewise`.
-/

namespace Prims

/-! ### Scanning a list -/

/-- A scan of a list, place by place: ahead of an element, or with some copies of it counted. -/
inductive Scan (α : Type) where
  | ahead (place : Nat) (found : List α)
  | counting (place copies : Nat) (found : List α)

namespace Scan

variable {α : Type} [DecidableEq α] {l : List α}

/-- One step of a scan: copies are counted as long as they follow on each other, and then passed together;
a single one is found.  There is none at the end of the list. -/
def next? (l : List α) : Scan α → Option (Scan α)
  | ahead i found      => if i < l.length then some (counting i 1 found) else none
  | counting i n found =>
    if i + n < l.length ∧ l[i + n]? = l[i]? then some (counting i (n + 1) found)
    else some (ahead (i + n) (if 1 < n then found else found ++ l[i]?.toList))

theorem next?_ahead {i : Nat} (hi : i < l.length) (found : List α) :
    next? l (.ahead i found) = some (.counting i 1 found) := if_pos hi

theorem next?_copy {i n : Nat} {a : α} (ha : l[i]? = some a) (hcopy : l[i + n]? = some a) (found : List α) :
    next? l (.counting i n found) = some (.counting i (n + 1) found) :=
  if_pos ⟨(List.getElem?_eq_some_iff.mp hcopy).1, hcopy.trans ha.symm⟩

theorem next?_other {i n : Nat} {a : α} (ha : l[i]? = some a) (hother : l[i + n]? ≠ some a) (found : List α) :
    next? l (.counting i n found) = some (.ahead (i + n) (if 1 < n then found else found ++ [a])) := by
  rw [next?, if_neg fun h => hother (h.2.trans ha), ha, Option.toList_some]

/-- Some steps lead from one state to the other. -/
def Reaches (l : List α) : Scan α → Scan α → Prop := Relation.ReflTransGen fun s t => next? l s = some t

theorem reaches_counted {i n k : Nat} {a : α} (ha : l[i]? = some a) (found : List α)
    (hk : ∀ j < k, l[i + (n + j)]? = some a) :
    Reaches l (.counting i n found) (.counting i (n + k) found) := by
  induction k with
  | zero => exact .refl
  | succ k ih => exact (ih fun j hj => hk j (by omega)).tail (next?_copy ha (hk k (by omega)) found)

/-- The copies that a list begins with, and something else behind them. -/
theorem exists_copies (a : α) : ∀ r : List α, ∃ k,
    r = List.replicate k a ++ r.dropWhile (· == a) ∧ (r.dropWhile (· == a)).head? ≠ some a
  | [] => ⟨0, rfl, nofun⟩
  | b :: r => by
    rw [List.dropWhile_cons]
    split
    next h =>
      obtain rfl : b = a := by simpa using h
      obtain ⟨k, hk, hhead⟩ := exists_copies b r
      exact ⟨k + 1, congrArg (b :: ·) hk, hhead⟩
    next h => exact ⟨0, rfl, by simpa using h⟩

/-- An element and its copies are passed together. -/
theorem reaches_passed {i k : Nat} {a : α} {rest : List α} (found : List α)
    (hdrop : l.drop i = a :: (List.replicate k a ++ rest)) (hrest : rest.head? ≠ some a) :
    Reaches l (.ahead i found) (.ahead (i + (1 + k)) (if 1 < 1 + k then found else found ++ [a])) := by
  have hget (j : Nat) : l[i + j]? = (a :: (List.replicate k a ++ rest))[j]? := by
    rw [← hdrop, List.getElem?_drop]
  have ha : l[i]? = some a := hget 0
  have hcounted : Reaches l (.counting i 1 found) (.counting i (1 + k) found) := by
    refine reaches_counted ha found fun j hj => ?_
    rw [hget, Nat.add_comm, List.getElem?_cons_succ, List.getElem?_append_left (by simpa using hj),
      List.getElem?_replicate, if_pos hj]
  have hother : l[i + (1 + k)]? ≠ some a := by
    rwa [hget, Nat.add_comm, List.getElem?_cons_succ, List.getElem?_append_right (by simp),
      List.length_replicate, Nat.sub_self, ← List.head?_eq_getElem?]
  exact (hcounted.tail (next?_other ha hother found)).head
    (next?_ahead (List.getElem?_eq_some_iff.mp ha).1 found)

omit [DecidableEq α] in
/-- What is left behind them. -/
theorem drop_passed {i k : Nat} {a : α} {rest : List α}
    (hdrop : l.drop i = a :: (List.replicate k a ++ rest)) :
    l.drop (i + (1 + k)) = rest ∧ i + (1 + k) ≤ l.length := by
  constructor
  · rw [← List.drop_drop, hdrop, Nat.add_comm, List.drop_succ_cons]
    exact List.drop_left' (by simp)
  · have hlength := congrArg List.length hdrop
    simp only [List.length_drop, List.length_cons, List.length_append, List.length_replicate] at hlength
    omega

/-- **A scan ends**, and has then found what stands alone. -/
theorem reaches_end (s : List α) : ∀ {i : Nat} (found : List α), i ≤ l.length → l.drop i = s →
    Reaches l (.ahead i found) (.ahead l.length (found ++ onceIn s)) := by
  fun_induction onceIn s with
  | case1 =>
    intro i found hi hs
    obtain rfl : i = l.length := Nat.le_antisymm hi (List.drop_eq_nil_iff.mp hs)
    rw [List.append_nil]
    exact .refl
  | case2 a r hr ih =>
    intro i found hi hs
    obtain ⟨k, hk, hhead⟩ := exists_copies a r
    have hpos : 1 < 1 + k := by
      rcases Nat.eq_zero_or_pos k with rfl | h
      · rw [hk] at hr
        exact absurd hr hhead
      · omega
    have hdrop := hs.trans (congrArg (a :: ·) hk)
    have hpass := reaches_passed found hdrop hhead
    rw [if_pos hpos] at hpass
    obtain ⟨hrest, hle⟩ := drop_passed hdrop
    exact hpass.trans (ih found hle hrest)
  | case3 a r hr ih =>
    intro i found hi hs
    have hpass := reaches_passed (k := 0) found hs hr
    rw [if_neg (Nat.lt_irrefl 1)] at hpass
    obtain ⟨hrest, hle⟩ := drop_passed (k := 0) hs
    have hend := ih (found ++ [a]) hle hrest
    rw [List.append_assoc] at hend
    exact hpass.trans hend

end Scan

/-! ### The edges of a cavity -/

namespace Edge

/-- The order of edges: by the smaller end, and then by the larger. -/
def Precedes (e f : Edge) : Prop := e.low < f.low ∨ e.low = f.low ∧ e.high < f.high

theorem Precedes.of_before {e f : Edge} (h : before e f = true) (hne : e ≠ f) : e.Precedes f := by
  rcases before_iff.mp h with hlow | ⟨hlow, hhigh⟩
  · exact .inl (UInt32.lt_iff_toNat_lt.mpr hlow)
  · refine .inr ⟨UInt32.toNat_inj.mp hlow, UInt32.lt_iff_toNat_lt.mpr (hhigh.lt_of_ne fun hhigh => hne ?_)⟩
    cases e
    cases f
    simp_all [UInt32.toNat_inj]

end Edge

/-- What sorting finds is in order, each edge once. -/
theorem onceIn_sort_precedes (edges : List Edge) :
    (onceIn (Edge.sort edges)).Pairwise Edge.Precedes := by
  have hsorted : (onceIn (Edge.sort edges)).Pairwise fun e f => Edge.before e f := by
    rw [onceIn_sort]
    exact (pairwise_sortBy Edge.before_total Edge.before_trans edges).filter _
  exact (hsorted.and (onceIn_sort_nodup edges)).imp fun h => .of_before h.1 h.2

/-- **The edges of a cavity are found**, whatever their multiplicities: the scan of the sorted edges ends, with
those that occur once, in order. -/
theorem exists_scanned (edges : List Edge) : ∃ found,
    Scan.Reaches (Edge.sort edges) (.ahead 0 []) (.ahead (Edge.sort edges).length found) ∧
    Scan.next? (Edge.sort edges) (.ahead (Edge.sort edges).length found) = none ∧
    found.Pairwise Edge.Precedes ∧ ∀ e, e ∈ found ↔ edges.count e = 1 := by
  refine ⟨_, Scan.reaches_end _ [] (Nat.zero_le _) rfl, if_neg (Nat.lt_irrefl _), ?_, fun e => ?_⟩
  · exact onceIn_sort_precedes edges
  · exact mem_onceIn_sort

/-! ### One insertion -/

namespace Mesh

/-- **One insertion, edge by edge.**  A vertex in no circle of a triangle changes nothing.  Otherwise the
triangles with it in their circle go; the others stay in their order, and behind them comes a triangle over
each edge that occurs once among those of the triangles that went and is not in line with the vertex, in the
order of the edges.  An edge has its smaller end first and is the same for both windings of a triangle, and
the scan of the sorted edges ends for every list of them. -/
theorem insertVertex?_edgewise (m : Mesh) (i : UInt32) (hm : m.InRange) (hi : i.toNat < m.vertexCount) :
    ((∀ t ∈ m.triangles, (m.cornersAt t).circumcircleContains (m.point i) = false) →
      m.insertVertex? i = some m) ∧
    ((∃ t ∈ m.triangles, (m.cornersAt t).circumcircleContains (m.point i) = true) →
      ∃ es : List Edge, m.insertVertex? i = some { m with
          triangles := m.missed i ++ es.map fun e => ⟨e.low, e.high, i⟩, normals := [] } ∧
        es.Pairwise Edge.Precedes ∧
        ∀ e, e ∈ es ↔ (edgesOf (m.hit i)).count e = 1 ∧
          Turn.of (m.point e.low) (m.point e.high) (m.point i) ≠ .straight) ∧
    (∀ t : Triangle, t.flip.edges.Perm t.edges ∧ ∀ e ∈ t.edges, e.low ≤ e.high) ∧
    ∀ edges, ∃ found,
      Scan.Reaches (Edge.sort edges) (.ahead 0 []) (.ahead (Edge.sort edges).length found) ∧
      Scan.next? (Edge.sort edges) (.ahead (Edge.sort edges).length found) = none ∧
      found.Pairwise Edge.Precedes ∧ ∀ e, e ∈ found ↔ edges.count e = 1 := by
  have hinsert := insertVertex?_inRange hm hi
  refine ⟨fun hnone => ?_, fun ⟨t, ht, hcontains⟩ => ?_,
    fun t => ⟨t.flip_edges, fun e he => (Triangle.edge_ends he).2.2.1⟩, exists_scanned⟩
  · have hhit : m.hit i = [] := List.filter_eq_nil_iff.mpr fun t ht => by simp [hnone t ht]
    rw [hinsert, hhit]
    rfl
  · have hhit : (m.hit i).isEmpty = false :=
      List.isEmpty_eq_false_iff.mpr (List.ne_nil_of_mem (List.mem_filter.mpr ⟨ht, hcontains⟩))
    refine ⟨(rim (m.hit i)).filter fun e =>
      Turn.of (m.point e.low) (m.point e.high) (m.point i) ≠ .straight, ?_, ?_, fun e => ?_⟩
    · rw [hinsert, hhit]
      rfl
    · exact (onceIn_sort_precedes _).filter _
    · rw [List.mem_filter, mem_meshRim, decide_eq_true_eq]

/-- The unit square in two triangles of different windings, with its middle and a point far away. -/
def splitSquare : Mesh :=
  ⟨#[.flat 0 0, .flat 1 0, .flat 1 1, .flat 0 1, .flat 0.5 0.5, .flat 8 8], [⟨0, 1, 2⟩, ⟨0, 3, 2⟩], []⟩

/-- The middle is in both circles, and the diagonal occurs twice; the point far away is in none. -/
theorem insertVertex?_edgewise_square :
    splitSquare.InRange ∧ (4 : UInt32).toNat < splitSquare.vertexCount ∧
    (5 : UInt32).toNat < splitSquare.vertexCount ∧
    (∃ es : List Edge, splitSquare.insertVertex? 4 = some { splitSquare with
        triangles := splitSquare.missed 4 ++ es.map fun e => ⟨e.low, e.high, 4⟩, normals := [] } ∧
      ⟨0, 1⟩ ∈ es ∧ ⟨0, 2⟩ ∉ es) ∧
    splitSquare.insertVertex? 5 = some splitSquare := by
  have hrange : splitSquare.InRange := by decide
  have hmiddle : (4 : UInt32).toNat < splitSquare.vertexCount := by decide
  have hfar : (5 : UInt32).toNat < splitSquare.vertexCount := by decide
  obtain ⟨-, hhit, -⟩ := insertVertex?_edgewise splitSquare 4 hrange hmiddle
  obtain ⟨es, hes, -, hmem⟩ := hhit (by decide +kernel)
  refine ⟨hrange, hmiddle, hfar, ⟨es, hes, ?_, ?_⟩, ?_⟩
  · rw [hmem]
    decide +kernel
  · rw [hmem]
    decide +kernel
  · exact (insertVertex?_edgewise splitSquare 5 hrange hfar).1 (by decide +kernel)

end Mesh

end Prims
