import Mathlib.Algebra.Ring.Parity
import Mathlib.Data.List.Rotate
import Mathlib.Logic.Relation
import Prims.Hull.Containment
import Prims.Proofs.Hull.Edits

/-!
# Hull — Containment

What containment does not depend on.  The even-odd rule counts on two levels, the crossed edges of a ring and
then the rings; the two parities are one, that of all edges crossed, once the rings of one and two vertices
have none that count (`contains_iff_odd`).  A hull is a list of rings with a mark between each and the next
(`exists_listed`), and it is listed in another way when a ring is turned, the rings are reordered, a mark is
put at the end or a ring of fewer than three vertices is left out (`Hull.Relists`).  Each of these keeps the
edges that count up to their order (`Relists.sides_perm`): turning a ring turns its edges with it, the one from
its last vertex to its first included (`Ring.steps_rotate`).  So the argument is about which pairs of vertices
are looked at and never about what is computed from a pair, and it covers every rounding and coordinates that
are no numbers.  Main statement: `contains_relisted`.
-/

namespace Prims

/-- The parity of a count is the exclusive or over the list. -/
theorem odd_countP_iff {α : Type} (f : α → Bool) (l : List α) :
    Odd (l.countP f) ↔ (l.map f).foldr xor false = true := by
  induction l with
  | nil => simp
  | cons a l ih =>
    rw [List.countP_cons, List.map_cons, List.foldr_cons]
    cases f a with
    | false => simpa using ih
    | true => simp [Nat.odd_add_one, ih]

/-! ### Edges of a ring -/

namespace Ring

/-- The predecessors are the ring, turned so that its last vertex comes first. -/
theorem steps_eq_zip (ring : Ring) : steps ring = (ring.rotate (ring.length - 1)).zip ring := by
  rcases List.eq_nil_or_concat' ring with rfl | ⟨l, p, rfl⟩
  · rfl
  · have hturned : (l ++ [p]).rotate ((l ++ [p]).length - 1) = p :: l := by
      simp
    -- the predecessors are one too many, and the last of them goes unpaired
    have hcut : (p :: l ++ [p]).zip (l ++ [p] ++ []) = (p :: l).zip (l ++ [p]) ++ [p].zip [] :=
      List.zip_append (by simp)
    rw [hturned, steps, List.getLast?_concat]
    simpa using hcut

theorem steps_snd (ring : Ring) : (steps ring).map Prod.snd = ring := by
  rw [steps_eq_zip]
  exact List.map_snd_zip (List.length_rotate _ _).ge

/-- Each vertex is stepped from and stepped to. -/
theorem steps_fst_perm (ring : Ring) : ((steps ring).map Prod.fst).Perm ring := by
  rw [steps_eq_zip, List.map_fst_zip (List.length_rotate _ _).le]
  exact List.rotate_perm _ _

theorem mem_of_mem_steps {ring : Ring} {e : Point × Point} (he : e ∈ steps ring) :
    e.1 ∈ ring ∧ e.2 ∈ ring :=
  ⟨(steps_fst_perm ring).mem_iff.mp (List.mem_map_of_mem he),
    steps_snd ring ▸ List.mem_map_of_mem he⟩

/-- **The edges turn with the ring.** -/
theorem steps_rotate (ring : Ring) (n : ℕ) : steps (ring.rotate n) = (steps ring).rotate n := by
  have hlength : (ring.rotate (ring.length - 1)).length = ring.length := List.length_rotate _ _
  calc steps (ring.rotate n)
      = ((ring.rotate n).rotate (ring.length - 1)).zip (ring.rotate n) := by
        rw [steps_eq_zip, List.length_rotate]
    _ = ((ring.rotate (ring.length - 1)).rotate n).zip (ring.rotate n) := by
        rw [List.rotate_rotate, List.rotate_rotate, Nat.add_comm]
    _ = ((ring.rotate (ring.length - 1)).zip ring).rotate n :=
        (List.zipWith_rotate_distrib Prod.mk _ _ n hlength).symm
    _ = (steps ring).rotate n := by rw [← steps_eq_zip]

/-- The edges that count for containment: all those of a ring of three vertices or more. -/
def sides (ring : Ring) : List (Point × Point) := if 3 ≤ ring.length then steps ring else []

theorem sides_of_length {ring : Ring} (h : ring.length < 3) : sides ring = [] := if_neg h.not_ge

theorem sides_rotate_perm (ring : Ring) (n : ℕ) : (sides (ring.rotate n)).Perm (sides ring) := by
  unfold sides
  rw [List.length_rotate, steps_rotate]
  split
  · exact List.rotate_perm _ _
  · exact .refl _

theorem contains_iff_odd (ring : Ring) (p : Point) :
    contains ring p = true ↔ Odd ((sides ring).countP (crosses p)) := by
  unfold contains sides
  by_cases h : 3 ≤ ring.length <;> simp [h, Nat.odd_iff]

end Ring

namespace Hull

open Relation (EqvGen)

variable {h k : Hull} {rings : List Ring}

/-! ### Edges of a hull -/

/-- The edges of all rings that count for containment. -/
def sides (h : Hull) : List (Point × Point) := h.rings.flatMap Ring.sides

/-- An odd number of rings contain the point when an odd number of their edges are crossed. -/
theorem odd_contains_iff (rings : List Ring) (p : Point) :
    Odd (rings.countP fun ring => Ring.contains ring p) ↔
      Odd ((rings.flatMap Ring.sides).countP (Ring.crosses p)) := by
  induction rings with
  | nil => exact Iff.rfl
  | cons ring rings ih =>
    have hring := Ring.contains_iff_odd ring p
    -- the first ring adds its edges to one count and one or nothing to the other
    rw [List.countP_cons, List.flatMap_cons, List.countP_append, Nat.odd_add', Nat.odd_add, ← hring,
      ← Nat.not_odd_iff_even, ← Nat.not_odd_iff_even, ← ih]
    cases Ring.contains ring p <;> simp

/-- **The two parities are one.** -/
theorem contains_iff_odd (h : Hull) (p : Point) :
    h.contains p = true ↔ Odd (h.sides.countP (Ring.crosses p)) := by
  rw [sides, ← odd_contains_iff, Nat.odd_iff]
  exact beq_iff_eq

/-! ### Hulls as lists of rings -/

/-- The hull that lists the rings, with a mark between each and the next.  Every entry is there as it is
given, whether it repeats the one before or not. -/
def listed (rings : List Ring) : Hull := ⟨[.ringEnd].intercalate (rings.map fun ring => ring.map .vertex)⟩

theorem listed_cons (ring : Ring) (hne : rings ≠ []) :
    (listed (ring :: rings)).points = ring.map .vertex ++ .ringEnd :: (listed rings).points := by
  rw [listed, List.map_cons, List.intercalate_cons_of_ne_nil (by simpa using hne), List.append_assoc]
  rfl

/-- **Every hull lists rings.** -/
theorem exists_listed (h : Hull) : ∃ rings, h = listed rings := by
  -- there is always a first ring, for a vertex at the front to go to
  suffices ∀ ps : List HullPoint, ∃ ring rings, ps = (listed (ring :: rings)).points by
    obtain ⟨ring, rings, hps⟩ := this h.points
    exact ⟨ring :: rings, congrArg Hull.mk hps⟩
  intro ps
  induction ps with
  | nil => exact ⟨[], [], rfl⟩
  | cons x ps ih =>
    obtain ⟨ring, rings, rfl⟩ := ih
    cases x with
    | vertex p => exact ⟨p :: ring, rings, by cases rings <;> simp [listed]⟩
    | ringEnd => exact ⟨[], ring :: rings, (listed_cons [] (List.cons_ne_nil _ _)).symm⟩

/-- The rings that are read are those that are listed, the empty ones left out. -/
theorem rings_listed (rings : List Ring) : (listed rings).rings = rings.filter (!·.isEmpty) := by
  induction rings with
  | nil => rfl
  | cons ring rings ih =>
    have hring : Hull.rings ⟨ring.map .vertex⟩ = [ring].filter (!·.isEmpty) := by
      cases ring with
      | nil => rfl
      | cons p ring => exact rings_of_vertices (List.cons_ne_nil p ring)
    by_cases hne : rings = []
    · subst hne
      simpa [listed] using hring
    · rw [Hull.rings, listed_cons ring hne, ringsAfter_ringEnd, ← List.singleton_append, List.filter_append,
        ← ih, ← hring]
      rfl

theorem sides_listed (rings : List Ring) : (listed rings).sides = rings.flatMap Ring.sides := by
  rw [sides, rings_listed]
  induction rings with
  | nil => rfl
  | cons ring rings ih =>
    cases ring with
    | nil => exact ih
    | cons p ring => exact congrArg (Ring.sides (p :: ring) ++ ·) ih

/-- Each ring of the list decides for itself. -/
theorem contains_listed (rings : List Ring) (p : Point) :
    (listed rings).contains p = (rings.map fun ring => Ring.contains ring p).foldr xor false := by
  rw [Bool.eq_iff_iff, contains_iff_odd, sides_listed, ← odd_contains_iff, odd_countP_iff]

theorem contains_listed_singleton (ring : Ring) (p : Point) :
    (listed [ring]).contains p = Ring.contains ring p := by
  simp [contains_listed]

/-! ### Other ways to list the rings -/

/-- One hull lists what the other does in another way. -/
inductive Relists : Hull → Hull → Prop
  /-- One of the rings starts `n` vertices further on. -/
  | turn (before : List Ring) (ring : Ring) (after : List Ring) (n : ℕ) :
      Relists (listed (before ++ ring :: after)) (listed (before ++ ring.rotate n :: after))
  /-- The rings stand in another order. -/
  | reorder {rings others : List Ring} (hperm : rings.Perm others) : Relists (listed rings) (listed others)
  /-- A mark is put at the end. -/
  | close (h : Hull) : Relists h ⟨h.points ++ [.ringEnd]⟩
  /-- A ring of fewer than three vertices is left out. -/
  | leaveOut (before : List Ring) (ring : Ring) (after : List Ring) (hlength : ring.length < 3) :
      Relists (listed (before ++ ring :: after)) (listed (before ++ after))

/-- **Another way to list the rings keeps the edges**, up to their order, -/
theorem Relists.sides_perm (hr : h.Relists k) : h.sides.Perm k.sides := by
  cases hr with
  | turn before ring after n =>
    rw [sides_listed, sides_listed, List.flatMap_append, List.flatMap_append, List.flatMap_cons, List.flatMap_cons]
    exact ((Ring.sides_rotate_perm ring n).symm.append_right _).append_left _
  | reorder hperm =>
    rw [sides_listed, sides_listed]
    exact hperm.flatMap_right _
  | close =>
    rw [sides, sides, rings_append_ringEnd]
  | leaveOut before ring after hlength =>
    rw [sides_listed, sides_listed, List.flatMap_append, List.flatMap_append, List.flatMap_cons,
      Ring.sides_of_length hlength, List.nil_append]

/-- and so does any number of them, one after the other, back and forth. -/
theorem sides_perm_of_eqvGen (hr : EqvGen Relists h k) : h.sides.Perm k.sides := by
  induction hr with
  | rel _ _ hstep => exact hstep.sides_perm
  | refl _ => exact .refl _
  | symm _ _ _ ih => exact ih.symm
  | trans _ _ _ _ _ ih₁ ih₂ => exact ih₁.trans ih₂

/-- **Containment does not depend on how the rings are listed.**  However the rings are turned, reordered and
closed by marks at the end, and whichever rings of fewer than three vertices are put in or left out, the same
points are contained.  Every hull lists some rings.  A hull contains a point when an odd number of the edges
of its rings of three vertices or more are crossed, which is the exclusive or over its rings, each of them
taken as a hull of its own. -/
theorem contains_relisted (hr : EqvGen Relists h k) (p : Point) :
    k.contains p = h.contains p ∧ (∃ rings, h = listed rings) ∧
    ∀ rings, h = listed rings →
      (h.contains p = true ↔ Odd ((rings.flatMap Ring.sides).countP (Ring.crosses p))) ∧
      h.contains p = (rings.map fun ring => (listed [ring]).contains p).foldr xor false := by
  refine ⟨?_, h.exists_listed, ?_⟩
  · rw [Bool.eq_iff_iff, contains_iff_odd, contains_iff_odd, (sides_perm_of_eqvGen hr).countP_eq]
  · rintro rings rfl
    refine ⟨?_, ?_⟩
    · rw [contains_iff_odd, sides_listed]
    · simp only [contains_listed_singleton]
      exact contains_listed rings p

/-- A square, a square hole in it, and a triangle with a corner that is nowhere. -/
def openCorner : List Ring :=
  [[.flat 0.5 (-0.5), .flat 0.5 0.5, .flat (-0.5) 0.5, .flat (-0.5) (-0.5)],
    [.flat 0.25 0.25, .flat 0.25 (-0.25), .flat (-0.25) (-0.25), .flat (-0.25) 0.25],
    [.flat .nan .nan, .flat 1 1, .flat 1 (-1)]]

/-- The same behind a lone vertex, the hole before the square, the triangle begun at its second corner, and a mark
at the end. -/
def openCornerAgain : Hull :=
  ⟨(listed [[.flat .nan 0], [.flat 0.25 0.25, .flat 0.25 (-0.25), .flat (-0.25) (-0.25), .flat (-0.25) 0.25],
    [.flat 0.5 (-0.5), .flat 0.5 0.5, .flat (-0.5) 0.5, .flat (-0.5) (-0.5)],
    [.flat 1 1, .flat 1 (-1), .flat .nan .nan]]).points ++ [.ringEnd]⟩

/-- All three rings contain the origin. -/
theorem contains_relisted_openCorner : EqvGen Relists (listed openCorner) openCornerAgain ∧
    openCornerAgain.contains .origin = true ∧
    (openCorner.map fun ring => (listed [ring]).contains .origin) = [true, true, true] := by
  have hr : EqvGen Relists (listed openCorner) openCornerAgain := by
    refine .trans _ _ _ (.rel _ _ (.reorder (.swap _ _ _))) ?_
    refine .trans _ _ _ (.rel _ _ (.turn [_, _] _ [] 1)) ?_
    refine .trans _ _ _ (.symm _ _ (.rel _ _ (.leaveOut [] [.flat .nan 0] _ (by decide)))) ?_
    exact .rel _ _ (.close _)
  have hmap : (openCorner.map fun ring => (listed [ring]).contains .origin) = [true, true, true] := by
    decide +kernel
  obtain ⟨hsame, -, hlisted⟩ := contains_relisted hr .origin
  obtain ⟨-, hxor⟩ := hlisted openCorner rfl
  refine ⟨hr, ?_, hmap⟩
  rw [hsame, hxor, hmap]
  rfl

end Hull

end Prims
