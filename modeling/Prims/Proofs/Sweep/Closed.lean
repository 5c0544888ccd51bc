import Prims.Proofs.Sweep.Surface
import Prims.Proofs.Sweep.Wall

/-!
# Sweep — Closed

No directed side of an extruded surface is used twice.  A side is read in coordinates, the layer and the
index of either end (`Side`), in which the walls are a grid (`wallsSides_eq`).  Rings of three vertices or
more make its edges simple, and layers that do not follow one another both ways its layers, so the walls
use no side twice (`wallsSides_nodup`).  With `assemble_balanced` every edge is then used by exactly two
triangles, once in each direction (`assemble_closed`).
-/

namespace Prims

open Triangle

/-- A vertex of a surface: its layer and its index in the profile. -/
abbrev Spot := UInt32 × UInt32

/-- A directed side in coordinates. -/
abbrev Side := Spot × Spot

namespace Triangulation

variable {t : Triangulation} {count : UInt32}

/-! ### Vertices of the surface -/

/-- The vertex at a spot. -/
def vertexAt (t : Triangulation) (v : Spot) : UInt32 := t.layerStart v.1 + v.2

/-- The directed side of the surface with these coordinates. -/
def sideAt (t : Triangulation) : Side → UInt32 × UInt32 := Prod.map t.vertexAt t.vertexAt

/-- The spots of a surface of `count` layers. -/
def OnSurface (t : Triangulation) (count : UInt32) (v : Spot) : Prop :=
  v.1.toNat < count.toNat ∧ v.2.toNat < t.mesh.vertexCount

/-- Indices of a surface that fit in 32 bits. -/
def Fits (t : Triangulation) (count : UInt32) : Prop :=
  t.mesh.vertexCount * count.toNat < 2 ^ 32

theorem toNat_vertexAt (hfit : t.Fits count) {v : Spot} (hv : t.OnSurface count v) :
    (t.vertexAt v).toNat = t.mesh.vertexCount * v.1.toNat + v.2.toNat := by
  obtain ⟨h₁, h₂⟩ := hv
  have hlt := row_major_lt h₁ h₂
  have hn : t.mesh.vertexCount ≤ t.mesh.vertexCount * count.toNat :=
    Nat.le_mul_of_pos_right _ (by omega)
  have hfit : t.mesh.vertexCount * count.toNat < 2 ^ 32 := hfit
  rw [vertexAt, layerStart, UInt32.toNat_add, UInt32.toNat_mul, toNat_toUInt32 (by omega),
    Nat.mul_comm v.1.toNat, Nat.mod_add_mod, Nat.mod_eq_of_lt (by omega)]

/-- **Different spots are different vertices.** -/
theorem vertexAt_inj (hfit : t.Fits count) {v w : Spot} (hv : t.OnSurface count v)
    (hw : t.OnSurface count w) (h : t.vertexAt v = t.vertexAt w) : v = w := by
  have hnat := congrArg UInt32.toNat h
  rw [toNat_vertexAt hfit hv, toNat_vertexAt hfit hw] at hnat
  obtain ⟨h₁, h₂⟩ := row_major_inj hv.2 hw.2 hnat
  exact Prod.ext (UInt32.toNat_inj.mp h₁) (UInt32.toNat_inj.mp h₂)

/-- Different sides of a surface, none of them a loop. -/
structure ProperSides (t : Triangulation) (count : UInt32) (l : List Side) : Prop where
  nodup : l.Nodup
  on : ∀ p ∈ l, t.OnSurface count p.1 ∧ t.OnSurface count p.2
  ne : ∀ p ∈ l, p.1 ≠ p.2

/-- Sides with different coordinates are different. -/
theorem ProperSides.nodup_map {l : List Side} (h : t.ProperSides count l) (hfit : t.Fits count) :
    (l.map t.sideAt).Nodup := by
  refine h.nodup.map_on fun p hp q hq e => ?_
  obtain ⟨e₁, e₂⟩ := Prod.mk.inj e
  exact Prod.ext (vertexAt_inj hfit (h.on p hp).1 (h.on q hq).1 e₁)
    (vertexAt_inj hfit (h.on p hp).2 (h.on q hq).2 e₂)

theorem ProperSides.ne_map {l : List Side} (h : t.ProperSides count l) (hfit : t.Fits count) :
    ∀ a ∈ l.map t.sideAt, a.1 ≠ a.2 := by
  intro a ha e
  obtain ⟨p, hp, rfl⟩ := List.mem_map.mp ha
  exact h.ne p hp (vertexAt_inj hfit (h.on p hp).1 (h.on p hp).2 e)

/-! ### The walls -/

/-- The sides of the first `m` segments of a surface. -/
def wallsSides (t : Triangulation) (count : UInt32) (m : Nat) : List Side :=
  (List.range m).flatMap fun k =>
    t.outlineEdges.flatMap (wallSides k.toUInt32 ((k.toUInt32 + 1) % count))

theorem arcsOf_walls (t : Triangulation) (count : UInt32) (m : Nat) :
    arcsOf ((List.range m).flatMap fun k => t.segment count k.toUInt32) =
      (t.wallsSides count m).map t.sideAt := by
  unfold arcsOf wallsSides segment
  rw [List.flatMap_assoc, List.map_flatMap]
  refine List.flatMap_congr fun k _ => ?_
  rw [List.flatMap_assoc, List.map_flatMap]
  rfl

theorem outline_simple (hsum : t.ringLengths.sum < 2 ^ 32) (h3 : ∀ n ∈ t.ringLengths, 3 ≤ n) :
    Simple t.outlineEdges where
  next _ _ _ := outlineEdges_next hsum
  prev _ _ _ := outlineEdges_prev hsum
  one_way _ _ ha := swap_not_mem_outlineEdges hsum h3 ha

theorem toNat_succ_mod {k : Nat} (hk : k < count.toNat) : ((k.toUInt32 + 1) % count).toNat =
    if k + 1 = count.toNat then 0 else k + 1 := by
  have hc := count.toNat_lt
  split
  · next h => rw [toUInt32_last_mod h, UInt32.toNat_zero]
  · next h => rw [toUInt32_succ_mod (by omega), toNat_toUInt32 (by omega)]

/-- Of two layers or more each is followed by another. -/
theorem ne_succ_mod {k : Nat} (hk : k < count.toNat) (hc : 2 ≤ count.toNat) :
    k.toUInt32 ≠ (k.toUInt32 + 1) % count := by
  have hlt := count.toNat_lt
  intro e
  rw [← UInt32.toNat_inj, toNat_succ_mod hk, toNat_toUInt32 (by omega)] at e
  split at e <;> omega

/-- The walls are a grid over the joined layers. -/
theorem wallsSides_eq (t : Triangulation) {m : Nat} (hm : m ≤ count.toNat) : t.wallsSides count m =
    gridSides ((links count.toNat m).map (Prod.map Nat.toUInt32 Nat.toUInt32)) t.outlineEdges := by
  have hc := count.toNat_lt
  unfold wallsSides gridSides links
  rw [List.map_map, List.flatMap_map]
  refine List.flatMap_congr fun k hk => ?_
  have hk : k < count.toNat := by
    rw [List.mem_range] at hk
    omega
  have hnext : (k.toUInt32 + 1) % count = ((k + 1) % count.toNat).toUInt32 := by
    rw [← UInt32.toNat_inj, toNat_succ_mod hk,
      toNat_toUInt32 ((Nat.mod_lt _ (Nat.zero_lt_of_lt hk)).trans hc), succ_mod hk]
  rw [hnext]
  rfl

theorem layers_simple {m : Nat} (hm : m < count.toNat ∨ m = count.toNat ∧ 3 ≤ count.toNat) :
    Simple ((links count.toNat m).map (Prod.map Nat.toUInt32 Nat.toUInt32)) := by
  have hc := count.toNat_lt
  refine (links_simple hm).map (s := (· < count.toNat)) (links_lt (by omega)) fun a b ha hb e => ?_
  have := congrArg UInt32.toNat e
  rwa [toNat_toUInt32 (ha.trans hc), toNat_toUInt32 (hb.trans hc)] at this

/-- **The walls use no side twice**, when they do not go round or go round three layers. -/
theorem wallsSides_nodup (hes : t.outlineEdges.Nodup) (hs : Simple t.outlineEdges) {m : Nat}
    (hm : m < count.toNat ∨ m = count.toNat ∧ 3 ≤ count.toNat) : (t.wallsSides count m).Nodup := by
  have hc := count.toNat_lt
  have hstarts : ((links count.toNat m).map (Prod.map Nat.toUInt32 Nat.toUInt32)).map Prod.fst =
      (List.range' 0 m).map Nat.toUInt32 := by
    simp [links, List.range_eq_range', Function.comp_def]
  rw [wallsSides_eq t (by omega)]
  refine gridSides_nodup (.of_map Prod.fst ?_) (layers_simple hm) hes hs
  rw [hstarts]
  exact range_toUInt32_nodup (by omega)

theorem onSurface_wallsSides (hsum : t.ringLengths.sum = t.mesh.vertexCount)
    (hn : t.mesh.vertexCount < 2 ^ 32) {m : Nat} (hm : m ≤ count.toNat) {p : Side}
    (hp : p ∈ t.wallsSides count m) : t.OnSurface count p.1 ∧ t.OnSurface count p.2 := by
  have hc := count.toNat_lt
  obtain ⟨k, hk, hp⟩ := List.mem_flatMap.mp hp
  obtain ⟨e, he, hp⟩ := List.mem_flatMap.mp hp
  rw [List.mem_range] at hk
  have h₁ : k.toUInt32.toNat < count.toNat := by
    rw [toNat_toUInt32 (by omega)]
    omega
  have h₂ : ((k.toUInt32 + 1) % count).toNat < count.toNat := by
    rw [UInt32.toNat_mod]
    exact Nat.mod_lt _ (by omega)
  obtain ⟨ha, hb⟩ := outlineEdges_lt (by omega) he
  rw [hsum] at ha hb
  simp only [wallSides, List.mem_cons, List.not_mem_nil, or_false] at hp
  rcases hp with rfl | rfl | rfl | rfl | rfl | rfl <;>
    exact ⟨⟨by assumption, by assumption⟩, by assumption, by assumption⟩

/-! ### The caps -/

/-- The sides of the caps: those of the profile, reversed on the first layer. -/
def capsSides (t : Triangulation) (top : UInt32) : List Side :=
  (arcsOf t.mesh.triangles).map (fun a => ((0, a.2), (0, a.1))) ++
    (arcsOf t.mesh.triangles).map fun a => ((top, a.1), (top, a.2))

theorem arcsOf_caps (t : Triangulation) (top : UInt32) :
    (arcsOf (t.mesh.triangles.flatMap (caps (t.layerStart top)))).Perm
      ((t.capsSides top).map t.sideAt) := by
  have hbottom : ∀ i : UInt32, t.vertexAt (0, i) = i := fun i => by
    rw [vertexAt, layerStart, UInt32.zero_mul, UInt32.zero_add]
  have hflip : ∀ s : Triangle,
      s.flip.arcs.Perm (s.arcs.map fun a => t.sideAt ((0, a.2), (0, a.1))) := by
    intro s
    rw [← List.reverse_perm']
    simp only [arcs, Triangle.flip, sideAt, Prod.map, hbottom]
    exact .refl _
  rw [arcsOf, List.flatMap_assoc, capsSides, List.map_append, List.map_map, List.map_map, arcsOf,
    List.map_flatMap, List.map_flatMap]
  refine (List.Perm.flatMap_left _ fun s _ => ?_).trans (List.flatMap_append_perm _ _ _).symm
  show (s.flip.arcs ++ ((s.map (t.layerStart top + ·)).arcs ++ [])).Perm _
  rw [List.append_nil]
  exact (hflip s).append_right _

theorem onSurface_capsSides (hin : t.mesh.InRange) {top : UInt32} (htop : top.toNat < count.toNat)
    {p : Side} (hp : p ∈ t.capsSides top) : t.OnSurface count p.1 ∧ t.OnSurface count p.2 := by
  have hzero : (0 : UInt32).toNat < count.toNat := Nat.zero_lt_of_lt htop
  have hends : ∀ a ∈ arcsOf t.mesh.triangles,
      a.1.toNat < t.mesh.vertexCount ∧ a.2.toNat < t.mesh.vertexCount := by
    intro a ha
    obtain ⟨s, hs, has⟩ := mem_arcsOf.mp ha
    exact ⟨hin s hs _ (ends_mem has).1, hin s hs _ (ends_mem has).2⟩
  rcases List.mem_append.mp hp with hp | hp
  · obtain ⟨a, ha, rfl⟩ := List.mem_map.mp hp
    exact ⟨⟨hzero, (hends a ha).2⟩, hzero, (hends a ha).1⟩
  · obtain ⟨a, ha, rfl⟩ := List.mem_map.mp hp
    exact ⟨⟨htop, (hends a ha).1⟩, htop, (hends a ha).2⟩

theorem capsSides_nodup (hn : (arcsOf t.mesh.triangles).Nodup) {top : UInt32} (htop : top ≠ 0) :
    (t.capsSides top).Nodup := by
  refine List.Nodup.append (hn.map fun a b e => ?_) (hn.map fun a b e => ?_)
    (List.disjoint_left.mpr fun p hp hp' => ?_)
  · grind
  · grind
  · obtain ⟨a, -, rfl⟩ := List.mem_map.mp hp
    obtain ⟨b, -, e⟩ := List.mem_map.mp hp'
    exact htop (congrArg (fun p : Side => p.1.1) e)

theorem ne_capsSides (hd : ∀ s ∈ t.mesh.triangles, s.repeats = false) {top : UInt32} {p : Side}
    (hp : p ∈ t.capsSides top) : p.1 ≠ p.2 := by
  have hends : ∀ a ∈ arcsOf t.mesh.triangles, a.1 ≠ a.2 := by
    intro a ha
    obtain ⟨s, hs, has⟩ := mem_arcsOf.mp ha
    have hs := hd s hs
    simp only [repeats, Bool.or_eq_false_iff, beq_eq_false_iff_ne] at hs
    rcases mem_arcs.mp has with rfl | rfl | rfl
    · exact hs.1.1
    · exact hs.1.2
    · exact hs.2
  rcases List.mem_append.mp hp with hp | hp
  · obtain ⟨a, ha, rfl⟩ := List.mem_map.mp hp
    exact fun e => hends a ha (congrArg Prod.snd e).symm
  · obtain ⟨a, ha, rfl⟩ := List.mem_map.mp hp
    exact fun e => hends a ha (congrArg Prod.snd e)

/-- No cap runs along the outline backwards. -/
theorem CapsMeetWalls.not_mem (h : t.CapsMeetWalls) (hn : (arcsOf t.mesh.triangles).Nodup)
    (hs : Simple t.outlineEdges) {a : UInt32 × UInt32} (ha : a ∈ t.outlineEdges) :
    a.swap ∉ arcsOf t.mesh.triangles := by
  intro hm
  have hmeet := h a.1 a.2
  have h₁ : 0 < t.outlineEdges.count (a.1, a.2) := List.count_pos_iff.mpr ha
  have h₂ : t.outlineEdges.count (a.2, a.1) = 0 := List.count_eq_zero.mpr (hs.one_way a.1 a.2 ha)
  have h₃ := List.nodup_iff_count_le_one.mp hn (a.1, a.2)
  have h₄ : 0 < (arcsOf t.mesh.triangles).count (a.2, a.1) := List.count_pos_iff.mpr hm
  omega

/-- A side of a wall along a layer runs with the outline below, and against it above. -/
theorem wallSides_level {l u : UInt32} {e : UInt32 × UInt32} {p : Side} (hl : l ≠ u)
    (hp : p ∈ wallSides l u e) (hk : p.1.1 = p.2.1) :
    p = ((l, e.1), (l, e.2)) ∨ p = ((u, e.2), (u, e.1)) := by
  simp only [wallSides, List.mem_cons, List.not_mem_nil, or_false] at hp
  grind

/-- **The caps share no side with the walls** of an open sweep. -/
theorem disjoint_capsSides (h : t.CapsMeetWalls) (hn : (arcsOf t.mesh.triangles).Nodup)
    (hs : Simple t.outlineEdges) {m : Nat} (hm : m + 1 = count.toNat) :
    (t.wallsSides count m).Disjoint (t.capsSides m.toUInt32) := by
  have hc := count.toNat_lt
  refine List.disjoint_left.mpr fun p hp hp' => ?_
  obtain ⟨k, hk, hp⟩ := List.mem_flatMap.mp hp
  obtain ⟨e, he, hp⟩ := List.mem_flatMap.mp hp
  rw [List.mem_range] at hk
  have hback := h.not_mem hn hs he
  have h₁ : k.toUInt32.toNat = k := toNat_toUInt32 (by omega)
  have h₂ : ((k.toUInt32 + 1) % count).toNat = k + 1 := by
    rw [toNat_succ_mod (by omega), if_neg (by omega)]
  have hne : k.toUInt32 ≠ (k.toUInt32 + 1) % count := ne_succ_mod (by omega) (by omega)
  rcases List.mem_append.mp hp' with hp' | hp'
  · obtain ⟨a, ha, rfl⟩ := List.mem_map.mp hp'
    rcases wallSides_level hne hp rfl with e' | e' <;> simp only [Prod.mk.injEq] at e'
    · obtain ⟨⟨-, h₃⟩, -, h₄⟩ := e'
      exact hback (by rwa [show e.swap = a from Prod.ext h₄.symm h₃.symm])
    · rw [← e'.1.1] at h₂
      exact absurd h₂ (Nat.succ_ne_zero k).symm
  · obtain ⟨a, ha, rfl⟩ := List.mem_map.mp hp'
    rcases wallSides_level hne hp rfl with e' | e' <;> simp only [Prod.mk.injEq] at e'
    · rw [← e'.1.1, toNat_toUInt32 (by omega)] at h₁
      omega
    · obtain ⟨⟨-, h₃⟩, -, h₄⟩ := e'
      exact hback (by rwa [show e.swap = a from Prod.ext h₃.symm h₄.symm])

/-! ### Surfaces -/

section Proper

variable (hsum : t.ringLengths.sum = t.mesh.vertexCount) (hn : t.mesh.vertexCount < 2 ^ 32)
  (h3 : ∀ n ∈ t.ringLengths, 3 ≤ n)

include hsum hn h3

theorem walls_proper {m : Nat} (hm : m < count.toNat ∨ m = count.toNat ∧ 3 ≤ count.toNat) :
    t.ProperSides count (t.wallsSides count m) where
  nodup := wallsSides_nodup (.of_map _ (outlineEdges_fst_nodup (by omega)))
    (outline_simple (by omega) h3) hm
  on _ := onSurface_wallsSides hsum hn (by omega)
  ne p hp := ne_gridSides (layers_simple hm) (outline_simple (by omega) h3)
    (wallsSides_eq t (show m ≤ count.toNat by omega) ▸ hp)

/-- Walls and caps together, when the caps meet the outline. -/
theorem open_proper (hin : t.mesh.InRange) (hcaps : t.CapsMeetWalls)
    (hd : ∀ s ∈ t.mesh.triangles, s.repeats = false) (harcs : (arcsOf t.mesh.triangles).Nodup)
    {m : Nat} (hm : m + 1 = count.toNat) (hm0 : 0 < m) :
    t.ProperSides count (t.wallsSides count m ++ t.capsSides m.toUInt32) := by
  have hc := count.toNat_lt
  have htop : m.toUInt32.toNat = m := toNat_toUInt32 (by omega)
  have hw : t.ProperSides count (t.wallsSides count m) :=
    walls_proper hsum hn h3 (.inl (by omega))
  refine ⟨hw.nodup.append (capsSides_nodup harcs fun e => ?_)
    (disjoint_capsSides hcaps harcs (outline_simple (by omega) h3) hm), fun p hp => ?_, fun p hp => ?_⟩
  · rw [e, UInt32.toNat_zero] at htop
    omega
  · rcases List.mem_append.mp hp with hp | hp
    · exact hw.on p hp
    · exact onSurface_capsSides hin (by omega) hp
  · rcases List.mem_append.mp hp with hp | hp
    · exact hw.ne p hp
    · exact ne_capsSides hd hp

end Proper

theorem arcsOf_open (t : Triangulation) (count : UInt32) : (arcsOf (t.surface count false)).Perm
    ((t.wallsSides count (count - 1).toNat ++ t.capsSides (count - 1)).map t.sideAt) := by
  rw [surface_open, List.map_append, ← arcsOf_walls, arcsOf, List.flatMap_append]
  exact (arcsOf_caps t (count - 1)).append_left _

section Assemble

variable {layers : List (List Point)}

theorem assemble_welded (t : Triangulation) (h : weldsShut layers = true) :
    (t.assemble layers).triangles = t.surface (layers.length - 1).toUInt32 true := by
  simp [assemble, h]

theorem assemble_open (t : Triangulation) (h : weldsShut layers = false) :
    (t.assemble layers).triangles = t.surface layers.length.toUInt32 false := by
  simp [assemble, h]

/-- **Every directed edge is used as often as its reverse**, when the sweep is welded or the caps meet
the outline. -/
theorem assemble_balanced (hlen : 0 < layers.length) (hlen32 : layers.length < 2 ^ 32)
    (h : weldsShut layers = true ∨ weldsShut layers = false ∧ t.CapsMeetWalls)
    (a : UInt32 × UInt32) : (arcsOf (t.assemble layers).triangles).count a =
      (arcsOf (t.assemble layers).triangles).count a.swap := by
  have hzero : ∀ f, Alternating f → ((arcsOf (t.assemble layers).triangles).map
      fun a => f a.1 a.2).sum = (([] : List (UInt32 × UInt32)).map fun a => f a.1 a.2).sum := by
    intro f hf
    rw [← sum_circulation]
    rcases h with h | ⟨h, hcaps⟩
    · rw [assemble_welded t h]
      exact sum_closed hf t _
    · rw [assemble_open t h]
      exact sum_open hf hcaps (by rwa [toNat_toUInt32 hlen32])
  have hcount := sum_eq_iff_count.mp hzero a
  simp only [List.count_nil, Nat.cast_zero, sub_zero, sub_eq_zero, Nat.cast_inj] at hcount
  exact hcount

/-- What keeps an assembled surface from using a side twice: rings of three vertices, and three layers to
go round or caps of different vertices that use none twice. -/
structure Sound (t : Triangulation) (layers : List (List Point)) : Prop where
  rings : ∀ n ∈ t.ringLengths, 3 ≤ n
  welded : weldsShut layers = true → 3 ≤ layers.length - 1
  distinct : weldsShut layers = false → ∀ s ∈ t.mesh.triangles, s.repeats = false
  once : weldsShut layers = false → (arcsOf t.mesh.triangles).Nodup

/-- **The sides of a surface** are those of different coordinates, none of them a loop. -/
theorem assemble_sides (hsum : t.ringLengths.sum = t.mesh.vertexCount) (hn : 0 < t.mesh.vertexCount)
    (hin : t.mesh.InRange) (hlen : 2 ≤ layers.length)
    (hfit : t.mesh.vertexCount * layers.length < 2 ^ 32)
    (h : weldsShut layers = true ∨ weldsShut layers = false ∧ t.CapsMeetWalls)
    (hs : t.Sound layers) : ∃ count l, t.Fits count ∧ t.ProperSides count l ∧
      (arcsOf (t.assemble layers).triangles).Perm (l.map t.sideAt) := by
  have hn32 : t.mesh.vertexCount < 2 ^ 32 :=
    lt_of_le_of_lt (Nat.le_mul_of_pos_right _ (by omega)) hfit
  have hlen32 : layers.length < 2 ^ 32 := lt_of_le_of_lt (Nat.le_mul_of_pos_left _ hn) hfit
  rcases h with h | ⟨h, hcaps⟩
  · have hk := hs.welded h
    have hcount : (layers.length - 1).toUInt32.toNat = layers.length - 1 := toNat_toUInt32 (by omega)
    refine ⟨(layers.length - 1).toUInt32, _, ?_,
      walls_proper hsum hn32 hs.rings (.inr ⟨rfl, by omega⟩), ?_⟩
    · rw [Fits, hcount]
      exact lt_of_le_of_lt (Nat.mul_le_mul_left _ (Nat.sub_le _ _)) hfit
    · rw [assemble_welded t h, surface_closed, arcsOf_walls]
  · have hcount : layers.length.toUInt32.toNat = layers.length := toNat_toUInt32 hlen32
    have hpred : (layers.length.toUInt32 - 1).toNat = layers.length.toUInt32.toNat - 1 :=
      UInt32.toNat_sub_of_le _ _ (UInt32.le_iff_toNat_le.mpr (by show 1 ≤ _; omega))
    have htop : (layers.length.toUInt32 - 1).toNat.toUInt32 = layers.length.toUInt32 - 1 :=
      UInt32.ofNat_toNat
    have hproper : t.ProperSides layers.length.toUInt32
        (t.wallsSides layers.length.toUInt32 (layers.length.toUInt32 - 1).toNat ++
          t.capsSides (layers.length.toUInt32 - 1).toNat.toUInt32) :=
      open_proper hsum hn32 hs.rings hin hcaps (hs.distinct h) (hs.once h) (by omega) (by omega)
    rw [htop] at hproper
    refine ⟨_, _, by rwa [Fits, hcount], hproper, ?_⟩
    rw [assemble_open t h]
    exact arcsOf_open t _

/-- **Extrusion closes the surface.**  Every directed edge is used as often as its reverse, when the sweep
is welded or the caps meet the outline; and no directed edge is used twice and every edge by exactly two
triangles, when moreover rings, layers and caps are sound. -/
theorem assemble_closed (hsum : t.ringLengths.sum = t.mesh.vertexCount) (hn : 0 < t.mesh.vertexCount)
    (hin : t.mesh.InRange) (hlen : 2 ≤ layers.length)
    (hfit : t.mesh.vertexCount * layers.length < 2 ^ 32)
    (h : weldsShut layers = true ∨ weldsShut layers = false ∧ t.CapsMeetWalls) :
    (∀ u v, (arcsOf (t.assemble layers).triangles).count (u, v) =
      (arcsOf (t.assemble layers).triangles).count (v, u)) ∧
    (t.Sound layers → (arcsOf (t.assemble layers).triangles).Nodup ∧
      ∀ e ∈ edgesOf (t.assemble layers).triangles,
        (edgesOf (t.assemble layers).triangles).count e = 2) := by
  have hlen32 : layers.length < 2 ^ 32 := lt_of_le_of_lt (Nat.le_mul_of_pos_left _ hn) hfit
  have hbal := assemble_balanced (t := t) (by omega) hlen32 h
  refine ⟨fun u v => hbal (u, v), fun hs => ?_⟩
  obtain ⟨count, l, hfits, hl, hperm⟩ := assemble_sides hsum hn hin hlen hfit h hs
  have hnodup := hperm.nodup_iff.mpr (hl.nodup_map hfits)
  refine ⟨hnodup, fun e he => ?_⟩
  rw [edgesOf_eq] at he ⊢
  obtain ⟨a, ha, rfl⟩ := List.mem_map.mp he
  have hswap : a.swap ≠ a := fun e => hl.ne_map hfits a (hperm.mem_iff.mp ha) (congrArg Prod.snd e)
  rw [count_ofArc hswap, ← hbal a, List.count_eq_one_of_mem hnodup ha]

/-- A square in two triangles. -/
def squareProfile : Triangulation :=
  ⟨⟨#[.flat 0 0, .flat 1 0, .flat 1 1, .flat 0 1], [⟨0, 1, 2⟩, ⟨0, 2, 3⟩], []⟩, [4]⟩

theorem squareProfile_capsMeetWalls : squareProfile.CapsMeetWalls := by
  refine capsMeetWalls_iff.mpr fun f hf => ?_
  have hout : squareProfile.outlineEdges = [(0, 1), (1, 2), (2, 3), (3, 0)] := by decide +kernel
  rw [hout]
  simp only [squareProfile, List.map_cons, List.map_nil, List.sum_cons, List.sum_nil, circulation,
    hf 0 2]
  ring

/-- The square below and above. -/
def boxLayers : List (List Point) :=
  [fun p => ⟨p.x, p.y, 0⟩, fun p => ⟨p.x, p.y, 1⟩].map squareProfile.mesh.positions.toList.map

/-- The square at four places round the `x` axis, and at the first one again. -/
def frameLayers : List (List Point) :=
  [fun p => ⟨p.x, p.y + 1, 0⟩, fun p => ⟨p.x, 0, p.y + 1⟩, fun p => ⟨p.x, -(p.y + 1), 0⟩,
    fun p => ⟨p.x, 0, -(p.y + 1)⟩, fun p => ⟨p.x, p.y + 1, 0⟩].map squareProfile.mesh.positions.toList.map

/-- A box is closed, and a frame, which is welded. -/
theorem assemble_closed_box :
    (squareProfile.Sound boxLayers ∧ (squareProfile.assemble boxLayers).triangleCount = 12 ∧
      ∀ e ∈ edgesOf (squareProfile.assemble boxLayers).triangles,
        (edgesOf (squareProfile.assemble boxLayers).triangles).count e = 2) ∧
    squareProfile.Sound frameLayers ∧ weldsShut frameLayers = true ∧
      (squareProfile.assemble frameLayers).triangleCount = 32 ∧
      ∀ e ∈ edgesOf (squareProfile.assemble frameLayers).triangles,
        (edgesOf (squareProfile.assemble frameLayers).triangles).count e = 2 := by
  have hin : squareProfile.mesh.InRange := by decide +kernel
  constructor
  · have hopen : weldsShut boxLayers = false := by decide +kernel
    have hs : squareProfile.Sound boxLayers :=
      ⟨by decide, fun h => absurd h (by rw [hopen]; decide), fun _ => by decide +kernel,
        fun _ => by decide +kernel⟩
    refine ⟨hs, by decide +kernel, ?_⟩
    exact ((assemble_closed (by decide +kernel) (by decide +kernel) hin (by decide) (by decide +kernel)
      (.inr ⟨hopen, squareProfile_capsMeetWalls⟩)).2 hs).2
  · have hweld : weldsShut frameLayers = true := by decide +kernel
    have hs : squareProfile.Sound frameLayers :=
      ⟨by decide, fun _ => by decide, fun h => absurd h (by rw [hweld]; decide),
        fun h => absurd h (by rw [hweld]; decide)⟩
    refine ⟨hs, hweld, by decide +kernel, ?_⟩
    exact ((assemble_closed (by decide +kernel) (by decide +kernel) hin (by decide) (by decide +kernel)
      (.inl hweld)).2 hs).2

end Assemble

end Triangulation

end Prims
