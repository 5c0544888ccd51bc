import Prims.Overlay.Link

/-!
# Overlay — Trace

Closed contours from boundary links.  Each walk starts at the leftmost link that is left, takes
links off the list as it passes them, and turns so that it stays on one contour where several meet.
Outer contours run clockwise and holes counter-clockwise.
-/

namespace Prims.Overlay

/-- The end of a link that is not `node`. -/
def Link.other (l : Link) (node : Site) : Site := if l.a = node then l.b else l.a

def Link.touches (l : Link) (node : Site) : Bool := l.a == node || l.b == node

/-- Seen from `node` and turning from `back`, the point `p` comes before `q`; the turn is clockwise
or counter-clockwise. -/
def comesBefore (clockwise : Bool) (node back p q : Site) : Bool :=
  let sign : Int := if clockwise then -1 else 1
  let ofP := 0 < sign * side node back p
  let ofQ := 0 < sign * side node back q
  if ofP == ofQ then 0 < sign * side node p q else ofP

/-- The first link to be met at `node` when turning from `back`. -/
def nextLink? (clockwise : Bool) (node back : Site) (left : List Link) : Option Link :=
  match left.filter (·.touches node) with
  | []     => none
  | l :: r =>
    some (r.foldl (fun best m =>
      if comesBefore clockwise node back (m.other node) (best.other node) then m else best) l)

/-- Walk on from `node`, reached from `back`, until `goal`; the points passed and the links left. -/
def walk (clockwise : Bool) (goal : Site) (node back : Site) (left : List Link) :
    List Site × List Link :=
  if node = goal then ([], left)
  else
    match nextLink? clockwise node back left with
    | none   => ([], left)
    | some l =>
      if l ∈ left then
        let (points, rest) := walk clockwise goal (l.other node) node (left.erase l)
        (node :: points, rest)
      else ([], left)
termination_by left.length
decreasing_by
  have := List.length_pos_of_mem ‹l ∈ left›
  rw [List.length_erase_of_mem ‹_›]; omega

theorem walk_length_le (clockwise : Bool) (goal node back : Site) (left : List Link) :
    (walk clockwise goal node back left).2.length ≤ left.length := by
  fun_induction walk clockwise goal node back left with
  | case1 => simp
  | case2 => simp
  | case3 node back left _ l _ hl points rest heq ih =>
    have := List.length_erase_of_mem hl
    simp only [heq] at ih
    simp only []
    omega
  | case4 => simp

/-- Of the links that leave the left end of `first` to the right, the uppermost. -/
def uppermost (first : Link) (left : List Link) : Link :=
  (left.filter fun l => l.a == first.a).foldl
    (fun top l => if 0 < Site.area top.a top.b l.b then l else top) first

theorem uppermost_mem (first : Link) (left : List Link) :
    uppermost first left ∈ first :: left := by
  suffices ∀ (l : List Link) (top : Link), top ∈ first :: left → (∀ m ∈ l, m ∈ left) →
      l.foldl (fun top l => if 0 < Site.area top.a top.b l.b then l else top) top ∈
        first :: left from
    this _ first (by simp) fun m hm => (List.mem_filter.mp hm).1
  intro l
  induction l with
  | nil => exact fun top ht _ => ht
  | cons m l ih =>
    intro top ht hl
    refine ih _ ?_ fun n hn => hl n (List.mem_cons_of_mem _ hn)
    dsimp only
    split
    · exact List.mem_cons_of_mem _ (hl m List.mem_cons_self)
    · exact ht

/-- A traced contour. -/
structure Outline where
  points : List Site
  isHole : Bool

/-- The contour that starts with the link `l`, and the links it leaves. -/
def outline (l : Link) (left : List Link) : Outline × List Link :=
  let (start, next) := if l.insideAbove then (l.b, l.a) else (l.a, l.b)
  let (points, rest) := walk l.insideAbove start next start (left.erase l)
  (⟨straighten (start :: points), l.insideAbove⟩, rest)

theorem outline_length_lt {l : Link} {left : List Link} (hl : l ∈ left) :
    (outline l left).2.length < left.length := by
  have h₁ := List.length_erase_of_mem hl
  have h₂ := List.length_pos_of_mem hl
  have h₃ := walk_length_le l.insideAbove (if l.insideAbove then (l.b, l.a) else (l.a, l.b)).1
    (if l.insideAbove then (l.b, l.a) else (l.a, l.b)).2
    (if l.insideAbove then (l.b, l.a) else (l.a, l.b)).1 (left.erase l)
  simp only [outline]
  omega

/-- All contours, in the order in which their walks begin; one with fewer than three corners
vanishes. -/
def outlines : List Link → List Outline
  | []         => []
  | first :: r =>
    let l := uppermost first r
    let traced := outline l (first :: r)
    if 3 ≤ traced.1.points.length then traced.1 :: outlines traced.2 else outlines traced.2
termination_by left => left.length
decreasing_by all_goals exact outline_length_lt (uppermost_mem first r)

end Prims.Overlay
