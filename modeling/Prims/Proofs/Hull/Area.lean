import Prims.Geometry.Plane
import Prims.Hull.Containment
import Prims.Proofs.Number.Units
import Prims.Proofs.Plane.Basic

/-!
# Hull — Area

The exact area of a ring, by the shoelace formula over its sites (`Ring.exactArea`).  It is the sum of what the
ray from the origin sweeps along the ring, so the ring travelled the other way has the opposite area
(`Ring.exactArea_reverse`), repeats add nothing to it (`Ring.exactArea_unrepeated`), and two vertices have none
(`Ring.exactArea_of_length`).  Hence a ring that is finite, has its ends apart and its area on the right side is
proper once its repeats are left out (`Ring.proper_unrepeated_iff`).
-/

namespace Prims

/-! ### Sites -/

namespace Site

/-- Twice the signed area of the triangle of the origin and two sites. -/
def cross (a b : Site) : Int := a.x * b.y - b.x * a.y

theorem cross_self (a : Site) : a.cross a = 0 := by
  unfold cross
  ring

theorem cross_swap (a b : Site) : b.cross a = -a.cross b := by
  unfold cross
  ring

/-- What the ray from the origin sweeps along a path. -/
def sweep (a : Site) : List Site → Int
  | []     => 0
  | b :: l => a.cross b + b.sweep l

theorem sweep_append (b : Site) : ∀ (a : Site) (l : List Site),
    a.sweep (l ++ [b]) = a.sweep l + (l.getLastD a).cross b
  | a, []     => by simp [sweep]
  | a, c :: l => by
    rw [List.cons_append, sweep, sweep, sweep_append b c l, List.getLastD_cons, add_assoc]

/-- **The way back sweeps the opposite.** -/
theorem sweep_reverse (a b : Site) : ∀ l : List Site, b.sweep (l.reverse ++ [a]) = -a.sweep (l ++ [b])
  | []     => by simp [sweep, cross_swap a b]
  | c :: l => by
    rw [List.reverse_cons, sweep_append, sweep_reverse c b l, List.getLastD_concat, List.cons_append, sweep,
      cross_swap a c]
    ring

/-- Twice the signed area of a polygon, positive when it is counter-clockwise. -/
def shoelace : List Site → Int
  | []     => 0
  | a :: l => (l.getLastD a).sweep (a :: l)

theorem shoelace_cons (a : Site) (l : List Site) : shoelace (a :: l) = a.sweep (l ++ [a]) := by
  rw [shoelace, sweep, sweep_append]
  ring

theorem shoelace_concat (a : Site) (l : List Site) : shoelace (l ++ [a]) = a.sweep (l ++ [a]) := by
  cases l with
  | nil => rfl
  | cons b l => rw [List.cons_append, shoelace, List.getLastD_concat]

theorem shoelace_reverse (l : List Site) : shoelace l.reverse = -shoelace l := by
  cases l with
  | nil => rfl
  | cons a l => rw [List.reverse_cons, shoelace_concat, sweep_reverse, shoelace_cons]

/-- Two sites enclose nothing. -/
theorem shoelace_of_length {l : List Site} (h : l.length < 3) : shoelace l = 0 := by
  match l, h with
  | [], _ => rfl
  | [a], _ => simp [shoelace, sweep, cross_self]
  | [a, b], _ => simp [shoelace, sweep, cross_swap a b]

/-- A site that is repeated sweeps nothing on its second time. -/
theorem exists_destutter' : ∀ (l : List Site) (a : Site),
    ∃ t, l.destutter' (· ≠ ·) a = a :: t ∧ a.sweep t = a.sweep l ∧ t.getLastD a = l.getLastD a
  | [], a     => ⟨[], rfl, rfl, rfl⟩
  | b :: l, a => by
    by_cases hab : a = b
    · obtain ⟨t, ht, hsweep, hlast⟩ := exists_destutter' l a
      refine ⟨t, (List.destutter'_cons_neg l (not_not.mpr hab)).trans ht, ?_, ?_⟩
      · rw [hsweep, sweep, ← hab, cross_self, zero_add]
      · rw [hlast, List.getLastD_cons, hab]
    · obtain ⟨t, ht, hsweep, hlast⟩ := exists_destutter' l b
      refine ⟨b :: t, ?_, ?_, ?_⟩
      · rw [List.destutter'_cons_pos l hab, ht]
      · rw [sweep, sweep, hsweep]
      · rw [List.getLastD_cons, List.getLastD_cons, hlast]

theorem shoelace_destutter (l : List Site) : shoelace (l.destutter (· ≠ ·)) = shoelace l := by
  cases l with
  | nil => rfl
  | cons a l =>
    obtain ⟨t, ht, hsweep, hlast⟩ := exists_destutter' l a
    rw [List.destutter_cons', ht, shoelace, shoelace, hlast, sweep, sweep, hsweep]

end Site

/-! ### Points -/

namespace Point

/-- The site of a point, if it is finite. -/
def place (p : Point) : Site := p.site?.getD ⟨0, 0⟩

theorem place_eq {p : Point} {s : Site} (h : p.site? = some s) : p.place = s := by
  rw [place, h, Option.getD_some]

theorem site?_eq_some_iff {p : Point} {s : Site} :
    p.site? = some s ↔ Single.units? p.x = some s.x ∧ Single.units? p.y = some s.y := by
  obtain ⟨x, y⟩ := s
  unfold site?
  cases Single.units? p.x <;> cases Single.units? p.y <;> simp

/-- The site of a point is where its coordinates are. -/
theorem spot_of_site? {p : Point} {s : Site} (h : p.site? = some s) :
    (Machine.IsFinite p.x ∧ s.spot.1 = Machine.real p.x) ∧ Machine.IsFinite p.y ∧ s.spot.2 = Machine.real p.y := by
  obtain ⟨hx, hy⟩ := site?_eq_some_iff.mp h
  obtain ⟨hx, hx'⟩ := Single.units?_eq_some_iff.mp hx
  obtain ⟨hy, hy'⟩ := Single.units?_eq_some_iff.mp hy
  exact ⟨⟨hx, hx'.symm⟩, hy, hy'.symm⟩

theorem exists_site {p : Point} (hx : Machine.IsFinite p.x) (hy : Machine.IsFinite p.y) : ∃ s, p.site? = some s := by
  obtain ⟨k, hk, -⟩ := Single.units?_of_isFinite hx
  obtain ⟨l, hl, -⟩ := Single.units?_of_isFinite hy
  exact ⟨⟨k, l⟩, site?_eq_some_iff.mpr ⟨hk, hl⟩⟩

/-- **Points of the profile plane are the same when their sites are.** -/
theorem same_iff {p q : Point} {s : Site} (hp : p.z = 0) (hq : q.z = 0) (hs : p.site? = some s) :
    p.same q = true ↔ q.site? = some s := by
  obtain ⟨hx, hy⟩ := site?_eq_some_iff.mp hs
  have hz : (p.z == q.z) = true := by
    rw [hp, hq]
    decide
  rw [site?_eq_some_iff, same, hz, Bool.and_true, Bool.and_eq_true, Single.beq_iff hx, Single.beq_iff hy]

theorem same_eq_false_iff {p q : Point} (hp : p.z = 0) (hq : q.z = 0) (hp' : p.site?.isSome = true)
    (hq' : q.site?.isSome = true) : p.same q = false ↔ p.place ≠ q.place := by
  obtain ⟨s, hs⟩ := Option.isSome_iff_exists.mp hp'
  obtain ⟨t, ht⟩ := Option.isSome_iff_exists.mp hq'
  rw [← Bool.not_eq_true, same_iff hp hq hs, place_eq hs, place_eq ht, ht, Option.some.injEq, ne_comm]

end Point

/-! ### Rings -/

namespace Ring

variable {ring : Ring} {p : Point} {turn : Bool}

/-- All vertices are in the profile plane, -/
def Level (ring : Ring) : Prop := ∀ p ∈ ring, p.z = 0

/-- and all are finite. -/
def Finite (ring : Ring) : Prop := ∀ p ∈ ring, p.site?.isSome = true

/-- **Twice the exact signed area**, positive when the ring is counter-clockwise. -/
def exactArea (ring : Ring) : Int := ((steps ring).map fun e => e.1.place.cross e.2.place).sum

/-- The ring without the vertices that are the same as the one before. -/
def unrepeated (ring : Ring) : Ring := ring.destutter fun p q => p.same q = false

theorem steps_cons (p : Point) (ring : Ring) : steps (p :: ring) = (ring.getLastD p, p) :: (p :: ring).zip ring := by
  unfold steps
  rw [List.getLast?_cons, List.getLastD_eq_getLast?]
  rfl

theorem sum_zip (p : Point) : ∀ ring : Ring,
    (((p :: ring).zip ring).map fun e => e.1.place.cross e.2.place).sum = p.place.sweep (ring.map Point.place)
  | []        => rfl
  | q :: ring => by
    rw [List.zip_cons_cons, List.map_cons, List.sum_cons, sum_zip q ring, List.map_cons, Site.sweep]

/-- **The area by sites.** -/
theorem exactArea_eq (ring : Ring) : exactArea ring = Site.shoelace (ring.map Point.place) := by
  cases ring with
  | nil => rfl
  | cons p ring =>
    rw [exactArea, steps_cons, List.map_cons, List.sum_cons, sum_zip, List.map_cons, Site.shoelace, Site.sweep,
      List.getLastD_map]

theorem exactArea_reverse (ring : Ring) : exactArea ring.reverse = -exactArea ring := by
  rw [exactArea_eq, exactArea_eq, List.map_reverse, Site.shoelace_reverse]

theorem exactArea_of_length (h : ring.length < 3) : exactArea ring = 0 := by
  rw [exactArea_eq, Site.shoelace_of_length (by rwa [List.length_map])]

/-! ### Repeats -/

/-- The first and the last vertex are not the same. -/
def EndsApart (ring : Ring) : Prop := ∀ p ∈ ring.head?, ∀ q ∈ ring.getLast?, q.same p = false

/-- The area has the sign of the winding: positive when counter-clockwise. -/
def Winds (ring : Ring) (counterClockwise : Bool) : Prop :=
  if counterClockwise then 0 < exactArea ring else exactArea ring < 0

/-- A ring as a hull should have it: finite, of three vertices or more, none the same as the one before it,
and wound as it should be. -/
structure Proper (ring : Ring) (counterClockwise : Bool) : Prop where
  finite : ring.Finite
  length : 3 ≤ ring.length
  distinct : ∀ e ∈ steps ring, e.1.same e.2 = false
  winds : ring.Winds counterClockwise

/-- What a ring that still has its repeats needs to become a proper one. -/
structure Solid (ring : Ring) (counterClockwise : Bool) : Prop where
  finite : ring.Finite
  apart : ring.EndsApart
  winds : ring.Winds counterClockwise

instance (ring : Ring) : Decidable ring.Finite := inferInstanceAs (Decidable (∀ p ∈ ring, _))

instance (ring : Ring) : ∀ turn, Decidable (ring.Winds turn)
  | true  => inferInstanceAs (Decidable (0 < exactArea ring))
  | false => inferInstanceAs (Decidable (exactArea ring < 0))

instance (ring : Ring) (turn : Bool) : Decidable (ring.Proper turn) :=
  decidable_of_iff (ring.Finite ∧ 3 ≤ ring.length ∧ (∀ e ∈ steps ring, e.1.same e.2 = false) ∧ ring.Winds turn)
    ⟨fun ⟨hf, hl, hd, hw⟩ => ⟨hf, hl, hd, hw⟩, fun ⟨hf, hl, hd, hw⟩ => ⟨hf, hl, hd, hw⟩⟩

theorem Winds.exactArea_ne_zero (h : ring.Winds turn) : exactArea ring ≠ 0 := by
  cases turn with
  | true => exact (show 0 < exactArea ring from h).ne'
  | false => exact (show exactArea ring < 0 from h).ne

theorem winds_reverse_iff : Winds ring.reverse (!turn) ↔ ring.Winds turn := by
  cases turn <;> simp [Winds, exactArea_reverse]

theorem endsApart_iff (hlevel : ring.Level) (hfinite : ring.Finite) :
    ring.EndsApart ↔ ∀ p ∈ ring.head?, ∀ q ∈ ring.getLast?, p.place ≠ q.place := by
  refine forall₂_congr fun p hp => forall₂_congr fun q hq => ?_
  have hp := List.mem_of_mem_head? hp
  have hq := List.mem_of_mem_getLast? hq
  rw [Point.same_eq_false_iff (hlevel q hq) (hlevel p hp) (hfinite q hq) (hfinite p hp), ne_comm]

theorem endsApart_cons : EndsApart (p :: ring) ↔ (ring.getLastD p).same p = false := by
  simp [EndsApart, List.getLast?_cons, List.getLastD_eq_getLast?]

theorem solid_reverse_iff (hlevel : ring.Level) : Solid ring.reverse (!turn) ↔ ring.Solid turn := by
  have hfinite : Finite ring.reverse ↔ ring.Finite := forall_congr' fun p => by rw [List.mem_reverse]
  have hlevel' : Level ring.reverse := fun p hp => hlevel p (List.mem_reverse.mp hp)
  have hapart : ring.Finite → (EndsApart ring.reverse ↔ ring.EndsApart) := fun h => by
    rw [endsApart_iff hlevel h, endsApart_iff hlevel' (hfinite.mpr h), List.head?_reverse,
      List.getLast?_reverse]
    exact ⟨fun h p hp q hq => (h q hq p hp).symm, fun h p hp q hq => (h q hq p hp).symm⟩
  constructor
  · rintro ⟨hf, ha, hw⟩
    exact ⟨hfinite.mp hf, (hapart (hfinite.mp hf)).mp ha, winds_reverse_iff.mp hw⟩
  · rintro ⟨hf, ha, hw⟩
    exact ⟨hfinite.mpr hf, (hapart hf).mpr ha, winds_reverse_iff.mpr hw⟩

/-! ### Repeats left out -/

theorem unrepeated_of_same {q : Point} (h : p.same q = true) (ring : Ring) :
    unrepeated (p :: q :: ring) = unrepeated (p :: ring) :=
  (List.destutter_cons_cons _ _).trans (if_neg (by simp [h]))

theorem unrepeated_of_not_same {q : Point} (h : p.same q = false) (ring : Ring) :
    unrepeated (p :: q :: ring) = p :: unrepeated (q :: ring) :=
  (List.destutter_cons_cons _ _).trans (if_pos h)

theorem exists_unrepeated (p : Point) : ∀ ring : Ring, ∃ t, unrepeated (p :: ring) = p :: t
  | []        => ⟨[], rfl⟩
  | q :: ring => by
    cases hpq : p.same q with
    | false => exact ⟨_, unrepeated_of_not_same hpq ring⟩
    | true =>
      obtain ⟨t, ht⟩ := exists_unrepeated p ring
      exact ⟨t, (unrepeated_of_same hpq ring).trans ht⟩

/-- What repeats a vertex is where that is. -/
theorem forall_of_unrepeated {P : Point → Prop} (hsite : ∀ p, P p → ∃ s, p.site? = some s)
    (hP : ∀ p q : Point, p.site? = q.site? → P p → P q) : ∀ (ring : Ring) (p : Point), Level (p :: ring) →
    (∀ q ∈ unrepeated (p :: ring), P q) → ∀ q ∈ p :: ring, P q
  | [], _, _, h => h
  | q :: ring, p, hlevel, h => by
    have hlevel' := List.forall_mem_cons.mp hlevel
    cases hpq : p.same q with
    | false =>
      rw [unrepeated_of_not_same hpq] at h
      obtain ⟨hp, h⟩ := List.forall_mem_cons.mp h
      exact List.forall_mem_cons.mpr ⟨hp, forall_of_unrepeated hsite hP ring q hlevel'.2 h⟩
    | true =>
      rw [unrepeated_of_same hpq] at h
      have hring := List.forall_mem_cons.mp hlevel'.2
      obtain ⟨hp, h⟩ := List.forall_mem_cons.mp
        (forall_of_unrepeated hsite hP ring p (List.forall_mem_cons.mpr ⟨hlevel'.1, hring.2⟩) h)
      obtain ⟨s, hs⟩ := hsite p hp
      have hq : q.site? = some s := (Point.same_iff hlevel'.1 hring.1 hs).mp hpq
      exact List.forall_mem_cons.mpr ⟨hp, List.forall_mem_cons.mpr ⟨hP p q (hs.trans hq.symm) hp, h⟩⟩

/-- Repeats are finite when what they repeat is. -/
theorem finite_of_unrepeated (ring : Ring) (p : Point) (hlevel : Level (p :: ring))
    (h : (unrepeated (p :: ring)).Finite) : Finite (p :: ring) :=
  forall_of_unrepeated (fun _ hp => Option.isSome_iff_exists.mp hp) (fun _ _ hpq hp => hpq ▸ hp) ring p hlevel h

section

variable (hlevel : ring.Level) (hfinite : ring.Finite)
include hlevel hfinite

/-- The sites without the repeats among them. -/
theorem map_place_unrepeated :
    (unrepeated ring).map Point.place = (ring.map Point.place).destutter (· ≠ ·) :=
  List.map_destutter fun p hp q hq =>
    Point.same_eq_false_iff (hlevel p hp) (hlevel q hq) (hfinite p hp) (hfinite q hq)

theorem exactArea_unrepeated : exactArea (unrepeated ring) = exactArea ring := by
  rw [exactArea_eq, exactArea_eq, map_place_unrepeated hlevel hfinite, Site.shoelace_destutter]

end

theorem level_unrepeated (h : ring.Level) : (unrepeated ring).Level :=
  fun p hp => h p ((List.destutter_sublist _ _).subset hp)

theorem finite_unrepeated (h : ring.Finite) : (unrepeated ring).Finite :=
  fun p hp => h p ((List.destutter_sublist _ _).subset hp)

/-- The ends stay where they are. -/
theorem endsApart_unrepeated (hlevel : ring.Level) (hfinite : ring.Finite) :
    (unrepeated ring).EndsApart ↔ ring.EndsApart := by
  cases ring with
  | nil => exact Iff.rfl
  | cons p ring =>
    obtain ⟨t, ht⟩ := exists_unrepeated p ring
    have hsites := map_place_unrepeated hlevel hfinite
    obtain ⟨u, hu, -, hlast⟩ := Site.exists_destutter' (ring.map Point.place) p.place
    rw [ht, List.map_cons, List.map_cons, List.destutter_cons', hu, List.cons.injEq] at hsites
    rw [← hsites.2, List.getLastD_map, List.getLastD_map] at hlast
    rw [endsApart_iff (level_unrepeated hlevel) (finite_unrepeated hfinite), endsApart_iff hlevel hfinite, ht]
    simp [List.getLast?_cons, ← List.getLastD_eq_getLast?, hlast]

theorem zip_of_isChain {R : Point → Point → Prop} : ∀ (ring : Ring) (p : Point), List.IsChain R (p :: ring) →
    ∀ e ∈ (p :: ring).zip ring, R e.1 e.2
  | [], _, _, _, he => (List.not_mem_nil he).elim
  | q :: ring, p, h, e, he => by
    obtain ⟨hpq, h⟩ := List.isChain_cons_cons.mp h
    rcases List.mem_cons.mp he with rfl | he
    · exact hpq
    · exact zip_of_isChain ring q h e he

/-- Only the ends can be the same when the repeats are left out. -/
theorem distinct_unrepeated_iff (ring : Ring) :
    (∀ e ∈ steps (unrepeated ring), e.1.same e.2 = false) ↔ (unrepeated ring).EndsApart := by
  cases ring with
  | nil => exact iff_of_true (fun e he => (List.not_mem_nil he).elim) (fun p hp => nomatch hp)
  | cons p ring =>
    have hchain := List.isChain_destutter (fun p q : Point => p.same q = false) (p :: ring)
    obtain ⟨t, ht⟩ := exists_unrepeated p ring
    rw [← unrepeated, ht] at hchain
    rw [ht, steps_cons, List.forall_mem_cons, endsApart_cons, and_iff_left (zip_of_isChain t p hchain)]

/-- **A ring is proper without its repeats** when it is solid with them: two vertices or fewer that are left
have no area. -/
theorem proper_unrepeated_iff (hlevel : ring.Level) : (unrepeated ring).Proper turn ↔ ring.Solid turn := by
  constructor
  · rintro ⟨hfinite, -, hdistinct, hwinds⟩
    have hfinite : ring.Finite := by
      cases ring with
      | nil => exact hfinite
      | cons p ring => exact finite_of_unrepeated ring p hlevel hfinite
    refine ⟨hfinite, ?_, ?_⟩
    · exact (endsApart_unrepeated hlevel hfinite).mp ((distinct_unrepeated_iff ring).mp hdistinct)
    · rwa [Winds, exactArea_unrepeated hlevel hfinite] at hwinds
  · rintro ⟨hfinite, hapart, hwinds⟩
    have hwinds' : (unrepeated ring).Winds turn := by rwa [Winds, exactArea_unrepeated hlevel hfinite]
    refine ⟨finite_unrepeated hfinite, ?_, ?_, hwinds'⟩
    · by_contra hlength
      exact hwinds'.exactArea_ne_zero (exactArea_of_length (by omega))
    · exact (distinct_unrepeated_iff ring).mpr ((endsApart_unrepeated hlevel hfinite).mpr hapart)

end Ring

end Prims
