import Prims.Hull.Difference
import Prims.Profile.Outline
import Prims.Proofs.Hull.Area

/-!
# Hull — Difference

What a subtraction returns, whatever the polygon difference answers.  A successful one comes from a single
region and has a ring for every contour of it, in their order (`ofRegion_ok`).  Number of points and area are
looked at in double precision, before a contour is rounded and its repeats are left out; so its ring is
proper when the contour survives the rounding (`Overlay.proper_turned_iff`), and the hull when all of them do
(`subtractWith_proper_iff`).  Slivers need not: `subtract_slanted` is one that comes back as a ring of two
vertices.
-/

namespace Prims

open Overlay

namespace Hull

variable {h h' : Hull} {ring : Ring}

/-! ### Rings as they are written -/

theorem addVertex_of_vertex {q : Point} (hq : h.points.getLast? = some (.vertex q)) (p : Point) :
    h.addVertex p = if q.same p then h else ⟨h.points ++ [.vertex p]⟩ := by
  rw [addVertex, hq]

theorem addVertex_of_open (hopen : ∀ q, h.points.getLast? ≠ some (.vertex q)) (p : Point) :
    h.addVertex p = ⟨h.points ++ [.vertex p]⟩ := by
  unfold addVertex
  split
  next q hq => exact absurd hq (hopen q)
  next => rfl

/-- Behind a vertex a ring is written without what repeats that vertex, -/
theorem addRing_of_vertex : ∀ (ring : Ring) (q : Point) (h : Hull), h.points.getLast? = some (.vertex q) →
    (h.addRing ring).points = h.points ++ (Ring.unrepeated (q :: ring)).tail.map .vertex
  | [], _, _, _ => (List.append_nil _).symm
  | p :: ring, q, h, hq => by
    show ((h.addVertex p).addRing ring).points = _
    rw [addVertex_of_vertex hq]
    cases hqp : q.same p with
    | true => rw [if_pos rfl, addRing_of_vertex ring q h hq, Ring.unrepeated_of_same hqp]
    | false =>
      obtain ⟨t, ht⟩ := Ring.exists_unrepeated p ring
      rw [if_neg Bool.false_ne_true, addRing_of_vertex ring p _ List.getLast?_concat,
        Ring.unrepeated_of_not_same hqp, ht, List.tail_cons, List.tail_cons, List.map_cons, List.append_assoc,
        List.singleton_append]

/-- and anywhere else as it is without repeats. -/
theorem addRing_of_open (hopen : ∀ q, h.points.getLast? ≠ some (.vertex q)) (ring : Ring) :
    (h.addRing ring).points = h.points ++ (Ring.unrepeated ring).map .vertex := by
  cases ring with
  | nil => exact (List.append_nil _).symm
  | cons p ring =>
    obtain ⟨t, ht⟩ := Ring.exists_unrepeated p ring
    have hlast : (h.addVertex p).points.getLast? = some (.vertex p) := by
      rw [addVertex_of_open hopen, List.getLast?_concat]
    show ((h.addVertex p).addRing ring).points = _
    rw [addRing_of_vertex ring p _ hlast, addVertex_of_open hopen, ht, List.tail_cons, List.map_cons,
      List.append_assoc, List.singleton_append]

/-- The end of a ring separates the rings before it from those behind it. -/
theorem ringsAfter_ringEnd : ∀ (started : Ring) (ps qs : List HullPoint),
    ringsAfter started (ps ++ .ringEnd :: qs) = ringsAfter started ps ++ ringsAfter [] qs
  | [], [], _ => rfl
  | _ :: _, [], _ => rfl
  | started, .vertex p :: ps, qs => by
    rw [List.cons_append, ringsAfter, ringsAfter, ringsAfter_ringEnd (p :: started) ps qs]
  | [], .ringEnd :: ps, qs => ringsAfter_ringEnd [] ps qs
  | p :: started, .ringEnd :: ps, qs => congrArg ((p :: started).reverse :: ·) (ringsAfter_ringEnd [] ps qs)

/-- Vertices without an end between them are one ring. -/
theorem ringsAfter_vertices : ∀ (ring : Ring) (p : Point) (started : Ring),
    ringsAfter (p :: started) (ring.map .vertex) = [started.reverse ++ p :: ring]
  | [], p, started => by simp [ringsAfter]
  | q :: ring, p, started => by
    rw [List.map_cons, ringsAfter, ringsAfter_vertices ring q (p :: started), List.reverse_cons,
      List.append_assoc, List.singleton_append]

theorem rings_of_vertices (hne : ring ≠ []) : rings ⟨ring.map .vertex⟩ = [ring] := by
  cases ring with
  | nil => exact absurd rfl hne
  | cons p ring => exact ringsAfter_vertices ring p []

theorem getLast?_vertices (hne : ring ≠ []) (ps : List HullPoint) :
    ∃ q, (ps ++ ring.map HullPoint.vertex).getLast? = some (.vertex q) := by
  refine ⟨ring.getLast hne, ?_⟩
  rw [List.getLast?_append, List.getLast?_map, List.getLast?_eq_some_getLast hne]
  rfl

theorem unrepeated_ne_nil (hne : ring ≠ []) : Ring.unrepeated ring ≠ [] :=
  (List.destutter_eq_nil _).not.mpr hne

/-- A hull of one ring, -/
theorem empty_addRing (hne : ring ≠ []) : (empty.addRing ring).rings = [Ring.unrepeated ring] ∧
    ∃ q, (empty.addRing ring).points.getLast? = some (.vertex q) := by
  have hpoints : (empty.addRing ring).points = [] ++ (Ring.unrepeated ring).map .vertex :=
    addRing_of_open (fun q hq => by cases hq) ring
  constructor
  · rw [rings, hpoints]
    exact rings_of_vertices (unrepeated_ne_nil hne)
  · rw [hpoints]
    exact getLast?_vertices (unrepeated_ne_nil hne) []

/-- and a ring behind the end of another. -/
theorem addBreak_addRing {q : Point} (hq : h.points.getLast? = some (.vertex q)) (hne : ring ≠ []) :
    (h.addBreak.addRing ring).rings = h.rings ++ [Ring.unrepeated ring] ∧
      ∃ q, (h.addBreak.addRing ring).points.getLast? = some (.vertex q) := by
  have hbreak : h.addBreak.points = h.points ++ [.ringEnd] := by
    rw [addBreak, hq]
  have hopen : ∀ q, h.addBreak.points.getLast? ≠ some (.vertex q) := fun q hq => by
    rw [hbreak, List.getLast?_concat] at hq
    cases hq
  have hpoints := addRing_of_open hopen ring
  constructor
  · rw [rings, hpoints, hbreak, List.append_assoc, List.singleton_append, ringsAfter_ringEnd]
    exact congrArg (h.rings ++ ·) (rings_of_vertices (unrepeated_ne_nil hne))
  · rw [hpoints]
    exact getLast?_vertices (unrepeated_ne_nil hne) _

end Hull

/-! ### Contours as they are stored -/

namespace Overlay

/-- A contour in single precision, as a ring of the profile plane. -/
def rounded (contour : Contour) : Ring :=
  contour.map fun p => Point.flat (Double.narrow p.x) (Double.narrow p.y)

/-- The contour has three points and an area. -/
def Encloses (contour : Contour) : Prop :=
  3 ≤ contour.length ∧ ¬ (signedArea contour).abs < leastArea

/-- The ring of a contour, turned over when it is wound the other way. -/
def turned (contour : Contour) (counterClockwise : Bool) : Ring :=
  if decide (0 < signedArea contour) == counterClockwise then rounded contour else (rounded contour).reverse

/-- The rings of a region: the outer one counter-clockwise, the holes clockwise. -/
def storedRings : Region → List Ring
  | []             => []
  | outer :: holes =>
    Ring.unrepeated (turned outer true) :: holes.map fun hole => Ring.unrepeated (turned hole false)

end Overlay

namespace Hull

variable {h h' : Hull} {contour : Contour} {region : Region} {turn : Bool}

theorem turned_ne_nil (h : Encloses contour) (turn : Bool) : turned contour turn ≠ [] := by
  have hlength : (turned contour turn).length = contour.length := by
    unfold turned rounded
    split <;> simp
  have := h.1
  exact List.ne_nil_of_length_pos (by omega)

theorem addContour_ok_iff : h.addContour contour turn = .ok h' ↔
    Encloses contour ∧ h.addRing (turned contour turn) = h' := by
  have hencloses : (decide (contour.length < 3) || decide ((signedArea contour).abs < leastArea)) = true ↔
      ¬ Encloses contour := by
    rw [Bool.or_eq_true, decide_eq_true_iff, decide_eq_true_iff, Encloses]
    constructor
    · rintro (h | h) ⟨h3, h'⟩
      · omega
      · exact h' h
    · intro h
      by_cases h3 : contour.length < 3
      · exact .inl h3
      · exact .inr (not_not.mp fun h' => h ⟨by omega, h'⟩)
  show (if (decide (contour.length < 3) || decide ((signedArea contour).abs < leastArea)) = true then
    (.error .degenerateRing : Except DifferenceError Hull) else .ok (h.addRing (turned contour turn))) = .ok h' ↔ _
  by_cases hc : Encloses contour
  · rw [if_neg (fun h => hencloses.mp h hc), Except.ok.injEq, and_iff_right hc]
  · rw [if_pos (hencloses.mpr hc)]
    exact iff_of_false (fun h => by cases h) fun h => hc h.1

/-- The holes of a region are written one behind the other. -/
theorem holes_ok : ∀ (holes : List Contour) (h : Hull) {q : Point}, h.points.getLast? = some (.vertex q) →
    holes.foldlM (fun h hole => h.addBreak.addContour hole false) h = .ok h' →
    (∀ hole ∈ holes, Encloses hole) ∧
      h'.rings = h.rings ++ holes.map fun hole => Ring.unrepeated (turned hole false)
  | [], h, q, hq, hok => by
    cases hok
    exact ⟨fun _ hc => (List.not_mem_nil hc).elim, (List.append_nil _).symm⟩
  | hole :: holes, h, q, hq, hok => by
    rw [List.foldlM_cons] at hok
    cases hk : h.addBreak.addContour hole false with
    | error e =>
      rw [hk] at hok
      cases hok
    | ok k =>
      rw [hk] at hok
      obtain ⟨hencloses, rfl⟩ := addContour_ok_iff.mp hk
      obtain ⟨hrings, _, hlast⟩ := addBreak_addRing hq (turned_ne_nil hencloses false)
      obtain ⟨hall, hrest⟩ := holes_ok holes _ hlast hok
      refine ⟨List.forall_mem_cons.mpr ⟨hencloses, hall⟩, ?_⟩
      rw [hrest, hrings, List.map_cons, List.append_assoc, List.singleton_append]

/-- **The rings of a region** are its contours, in their order. -/
theorem ofRegion_ok (hok : ofRegion region = .ok h) :
    region ≠ [] ∧ (∀ contour ∈ region, Encloses contour) ∧ h.rings = storedRings region := by
  cases region with
  | nil => cases hok
  | cons outer holes =>
    unfold ofRegion at hok
    dsimp only at hok
    cases hk : empty.addContour outer true with
    | error e =>
      rw [hk] at hok
      cases hok
    | ok k =>
      rw [hk] at hok
      obtain ⟨hencloses, rfl⟩ := addContour_ok_iff.mp hk
      obtain ⟨hrings, _, hlast⟩ := empty_addRing (turned_ne_nil hencloses true)
      obtain ⟨hall, hrest⟩ := holes_ok holes _ hlast hok
      refine ⟨List.cons_ne_nil _ _, List.forall_mem_cons.mpr ⟨hencloses, hall⟩, ?_⟩
      rw [hrest, hrings]
      rfl

/-! ### Proper hulls -/

/-- There are rings and they are proper: the first one counter-clockwise, all others clockwise. -/
def ProperRings : List Ring → Prop
  | []             => False
  | outer :: holes => outer.Proper true ∧ ∀ hole ∈ holes, hole.Proper false

instance : ∀ rings : List Ring, Decidable (ProperRings rings)
  | []     => inferInstanceAs (Decidable False)
  | _ :: _ => inferInstanceAs (Decidable (_ ∧ _))

def Proper (h : Hull) : Prop := ProperRings h.rings

instance (h : Hull) : Decidable h.Proper := inferInstanceAs (Decidable (ProperRings h.rings))

end Hull

namespace Overlay

/-- A contour that rounding leaves what it is: its points stay finite, its ends stay apart, and its exact
area has the sign of its area in double precision. -/
def Survives (contour : Contour) : Prop := (rounded contour).Solid (decide (0 < signedArea contour))

theorem rounded_level (contour : Contour) : (rounded contour).Level := by
  intro p hp
  obtain ⟨q, -, rfl⟩ := List.mem_map.mp hp
  rfl

/-- **A contour is stored as a proper ring** when it survives rounding. -/
theorem proper_turned_iff (contour : Contour) (turn : Bool) :
    (Ring.unrepeated (turned contour turn)).Proper turn ↔ Survives contour := by
  have hlevel := rounded_level contour
  unfold turned Survives
  split
  next h =>
    obtain rfl := beq_iff_eq.mp h
    exact Ring.proper_unrepeated_iff hlevel
  next h =>
    obtain rfl : turn = !decide (0 < signedArea contour) := by
      cases turn <;> simpa using h
    rw [Ring.proper_unrepeated_iff fun p hp => hlevel p (List.mem_reverse.mp hp)]
    exact Ring.solid_reverse_iff hlevel

theorem length_storedRings : ∀ region : Region, (storedRings region).length = region.length
  | []         => rfl
  | _ :: holes => by rw [storedRings, List.length_cons, List.length_cons, List.length_map]

end Overlay

namespace Hull

variable {difference : PolygonDifference} {outer inner h : Hull}

/-- A difference that is a hull is a single region. -/
theorem subtractWith_ok (hok : subtractWith difference outer inner = .ok h) : ∃ region : Region,
    difference outer.contours [inner.vertices.map spot] = [region] ∧ ofRegion region = .ok h := by
  unfold subtractWith at hok
  dsimp only at hok
  split at hok
  · cases hok
  · split at hok
    · cases hok
    · split at hok
      · cases hok
      next region hregion => exact ⟨region, hregion, hok⟩
      · cases hok

/-- **What a subtraction makes of a region.**  A successful subtraction leaves a single region, and its hull
has a ring for every contour, in their order.  The hull is proper exactly when every contour survives being
rounded to single precision; nothing looks at the rings again once they are rounded. -/
theorem subtractWith_proper_iff (hok : subtractWith difference outer inner = .ok h) : ∃ region : Region,
    difference outer.contours [inner.vertices.map spot] = [region] ∧
    (region ≠ [] ∧ ∀ contour ∈ region, Encloses contour) ∧
    (h.rings = storedRings region ∧ h.rings.length = region.length) ∧
    (h.Proper ↔ ∀ contour ∈ region, Survives contour) := by
  obtain ⟨region, hdifference, hregion⟩ := subtractWith_ok hok
  obtain ⟨hne, hencloses, hrings⟩ := ofRegion_ok hregion
  refine ⟨region, hdifference, ⟨hne, hencloses⟩, ⟨hrings, hrings ▸ length_storedRings region⟩, ?_⟩
  rw [Proper, hrings]
  cases region with
  | nil => exact absurd rfl hne
  | cons outer holes =>
    show _ ∧ (∀ ring ∈ (holes.map _ : List Ring), ring.Proper false) ↔ _
    rw [proper_turned_iff, List.forall_mem_map, List.forall_mem_cons]
    exact and_congr_right fun _ => forall₂_congr fun hole _ => proper_turned_iff hole false

/-- A square without its middle. -/
def frame : Hull := ⟨[.vertex (.flat 0.5 (-0.5)), .vertex (.flat 0.5 0.5), .vertex (.flat (-0.5) 0.5),
  .vertex (.flat (-0.5) (-0.5)), .ringEnd, .vertex (.flat 0.25 0.25), .vertex (.flat 0.25 (-0.25)),
  .vertex (.flat (-0.25) (-0.25)), .vertex (.flat (-0.25) 0.25)]⟩

theorem subtractWith_proper_iff_frame :
    let middle := ofPlanar [(-0.25, -0.25), (0.25, -0.25), (0.25, 0.25), (-0.25, 0.25)]
    subtract Profile.square middle = .ok frame ∧ ∃ region,
      Overlay.difference Profile.square.contours [middle.vertices.map spot] = [region] ∧
      region.length = 2 ∧ ∀ contour ∈ region, Survives contour := by
  intro middle
  have hok : subtract Profile.square middle = .ok frame := by
    have h : (subtract Profile.square middle).toOption = some frame := by decide +kernel
    cases hs : subtract Profile.square middle <;> simp_all [Except.toOption]
  obtain ⟨region, hdifference, -, ⟨-, hlength⟩, hproper⟩ := subtractWith_proper_iff hok
  exact ⟨hok, region, hdifference, hlength.symm, hproper.mp (by decide +kernel)⟩

/-- Everything left of a line that meets the right side of the square in its lower end and leaves less than
half a unit in the last place of it at the upper one. -/
def slanted : Hull := ofPlanar [(-1, -1), (0.5, -1), (0.49999997, 3), (-1, 3)]

/-- **A sliver collapses when it is rounded**: its contour has four points and an area, but the hull that is
returned has one ring of two vertices. -/
theorem subtract_slanted : ∃ h, subtract Profile.square slanted = .ok h ∧ h.ringLengths = [2] ∧ ¬ h.Proper := by
  have h : ((subtract Profile.square slanted).toOption.map fun h => (h.ringLengths, decide h.Proper)) =
      some ([2], false) := by decide +kernel
  cases hs : subtract Profile.square slanted with
  | error e =>
    rw [hs] at h
    cases h
  | ok h' =>
    rw [hs] at h
    obtain ⟨hlengths, hproper⟩ := Prod.mk.inj (Option.some.inj h)
    exact ⟨h', rfl, hlengths, of_decide_eq_false hproper⟩

end Hull

end Prims
