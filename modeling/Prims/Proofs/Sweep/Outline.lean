import Mathlib.Algebra.Ring.Nat
import Mathlib.Data.List.Nodup
import Mathlib.Data.List.Perm.Basic
import Prims.Sweep.Surface

/-!
# Sweep — Outline

The edges of the rings of a profile.  Each ring leads every one of its indices to the next and the last
to the first, so the ends of its edges are its indices in another order (`ringEdges_snd_perm`).  The
rings of a profile share out its vertices (`outlineEdges_fst`): every vertex is the start of one edge
and the end of one, and with rings of three vertices or more no edge runs both ways
(`swap_not_mem_outlineEdges`).
-/

namespace Prims

/-! ### One ring -/

theorem ringEdges_fst (r : UInt32 × UInt32) : (ringEdges r).map Prod.fst = indexRange r := by
  rw [ringEdges, List.map_map]
  exact List.map_id _

theorem toNat_toUInt32 {n : Nat} (h : n < 2 ^ 32) : n.toUInt32.toNat = n := Nat.mod_eq_of_lt h

theorem toNat_succ {a : UInt32} (h : a.toNat + 1 < 2 ^ 32) : (a + 1).toNat = a.toNat + 1 := by
  rw [UInt32.toNat_add]
  exact Nat.mod_eq_of_lt h

theorem mem_indexRange {r : UInt32 × UInt32} {a : UInt32} :
    a ∈ indexRange r ↔ r.1.toNat ≤ a.toNat ∧ a.toNat < r.2.toNat := by
  have hr := r.2.toNat_lt
  simp only [indexRange, List.mem_map, List.mem_range'_1]
  constructor
  · rintro ⟨n, hn, rfl⟩
    rw [toNat_toUInt32 (by omega)]
    omega
  · intro h
    exact ⟨a.toNat, by omega, UInt32.ofNat_toNat⟩

/-- The edges of a ring, by their numbers. -/
theorem mem_ringEdges {r : UInt32 × UInt32} {a b : UInt32} : (a, b) ∈ ringEdges r ↔
    r.1.toNat ≤ a.toNat ∧ a.toNat < r.2.toNat ∧
      b.toNat = if a.toNat + 1 = r.2.toNat then r.1.toNat else a.toNat + 1 := by
  have hr := r.2.toNat_lt
  rw [ringEdges, List.mem_map]
  have hnext : ∀ c : UInt32, c.toNat < r.2.toNat →
      (if c + 1 = r.2 then r.1 else c + 1).toNat =
        if c.toNat + 1 = r.2.toNat then r.1.toNat else c.toNat + 1 := by
    intro c hc
    have hadd : (c + 1).toNat = c.toNat + 1 := toNat_succ (by omega)
    rw [← hadd, apply_ite UInt32.toNat]
    simp only [UInt32.toNat_inj]
  constructor
  · rintro ⟨c, hc, e⟩
    obtain ⟨rfl, rfl⟩ := Prod.mk.inj e
    obtain ⟨h₁, h₂⟩ := mem_indexRange.mp hc
    exact ⟨h₁, h₂, hnext c h₂⟩
  · rintro ⟨h₁, h₂, hb⟩
    refine ⟨a, mem_indexRange.mpr ⟨h₁, h₂⟩, Prod.ext rfl (UInt32.toNat_inj.mp ?_)⟩
    rw [hb]
    exact hnext a h₂

/-- Consecutive numbers that fit are different indices. -/
theorem range_toUInt32_nodup {s n : Nat} (h : s + n ≤ 2 ^ 32) :
    ((List.range' s n).map Nat.toUInt32).Nodup := by
  refine List.Nodup.map_on (fun x hx y hy e => ?_) List.nodup_range'
  rw [List.mem_range'_1] at hx hy
  have := congrArg UInt32.toNat e
  rwa [toNat_toUInt32 (by omega), toNat_toUInt32 (by omega)] at this

theorem indexRange_nodup (r : UInt32 × UInt32) : (indexRange r).Nodup := by
  have h₁ := r.1.toNat_lt
  have h₂ := r.2.toNat_lt
  exact range_toUInt32_nodup (by omega)

/-- **The ends of a ring's edges are its indices**, in another order. -/
theorem ringEdges_snd_perm (r : UInt32 × UInt32) :
    ((ringEdges r).map Prod.snd).Perm (indexRange r) := by
  have hr := r.2.toNat_lt
  have hnodup : (ringEdges r).Nodup := List.Nodup.of_map Prod.fst (ringEdges_fst r ▸ indexRange_nodup r)
  refine (List.perm_ext_iff_of_nodup (hnodup.map_on ?_) (indexRange_nodup r)).mpr fun b => ?_
  · -- two edges with one end have one start
    rintro ⟨a, b⟩ ha ⟨a', b'⟩ ha' (rfl : b = b')
    rw [mem_ringEdges] at ha ha'
    have : a.toNat = a'.toNat := by grind
    rw [UInt32.toNat_inj.mp this]
  · rw [List.mem_map, mem_indexRange]
    constructor
    · rintro ⟨⟨a, c⟩, ha, rfl⟩
      rw [mem_ringEdges] at ha
      show r.1.toNat ≤ c.toNat ∧ c.toNat < r.2.toNat
      grind
    · intro hb
      -- the index before, or the last
      let x := if b.toNat = r.1.toNat then r.2.toNat - 1 else b.toNat - 1
      have hx : x.toUInt32.toNat = x := toNat_toUInt32 (by grind)
      refine ⟨(x.toUInt32, b), mem_ringEdges.mpr ?_, rfl⟩
      rw [hx]
      grind

/-! ### The rings of a profile -/

namespace Triangulation

theorem rangesFrom_cons (start : UInt32) (length : Nat) (lengths : List Nat) :
    rangesFrom start (length :: lengths) =
      (start, start + length.toUInt32) :: rangesFrom (start + length.toUInt32) lengths := rfl

/-- The rings share out the indices. -/
theorem flatMap_indexRange : ∀ (lengths : List Nat) (start : UInt32),
    start.toNat + lengths.sum < 2 ^ 32 → (rangesFrom start lengths).flatMap indexRange =
      (List.range' start.toNat lengths.sum).map Nat.toUInt32
  | [], _, _ => rfl
  | length :: lengths, start, h => by
    rw [List.sum_cons] at h
    have hstop : (start + length.toUInt32).toNat = start.toNat + length := by
      rw [UInt32.toNat_add, toNat_toUInt32 (by omega)]
      exact Nat.mod_eq_of_lt (by omega)
    rw [rangesFrom_cons, List.flatMap_cons, flatMap_indexRange lengths _ (by omega), indexRange, hstop,
      ← List.map_append, List.sum_cons, Nat.add_sub_cancel_left, List.range'_append_1]

/-- The rings have the lengths. -/
theorem rangesFrom_lengths : ∀ (lengths : List Nat) (start : UInt32),
    start.toNat + lengths.sum < 2 ^ 32 →
      (rangesFrom start lengths).map (fun r => r.2.toNat - r.1.toNat) = lengths
  | [], _, _ => rfl
  | length :: lengths, start, h => by
    rw [List.sum_cons] at h
    have hstop : (start + length.toUInt32).toNat = start.toNat + length := by
      rw [UInt32.toNat_add, toNat_toUInt32 (by omega)]
      exact Nat.mod_eq_of_lt (by omega)
    rw [rangesFrom_cons, List.map_cons, rangesFrom_lengths lengths _ (by omega), hstop,
      Nat.add_sub_cancel_left]

variable {t : Triangulation}

/-- **Every vertex is the start of one edge.** -/
theorem outlineEdges_fst (h : t.ringLengths.sum < 2 ^ 32) :
    t.outlineEdges.map Prod.fst = (List.range' 0 t.ringLengths.sum).map Nat.toUInt32 := by
  rw [outlineEdges, List.map_flatMap]
  simp only [ringEdges_fst]
  exact flatMap_indexRange t.ringLengths 0 (by simpa using h)

/-- **And the end of one edge.** -/
theorem outlineEdges_perm (t : Triangulation) :
    (t.outlineEdges.map Prod.snd).Perm (t.outlineEdges.map Prod.fst) := by
  rw [outlineEdges, List.map_flatMap, List.map_flatMap]
  simp only [ringEdges_fst]
  exact List.Perm.flatMap_left _ fun r _ => ringEdges_snd_perm r

theorem outlineEdges_fst_nodup (h : t.ringLengths.sum < 2 ^ 32) :
    (t.outlineEdges.map Prod.fst).Nodup := by
  rw [outlineEdges_fst h]
  exact range_toUInt32_nodup (by omega)

/-- One edge starts at a vertex. -/
theorem outlineEdges_next (h : t.ringLengths.sum < 2 ^ 32) {a b c : UInt32}
    (hb : (a, b) ∈ t.outlineEdges) (hc : (a, c) ∈ t.outlineEdges) : b = c :=
  congrArg Prod.snd (List.inj_on_of_nodup_map (outlineEdges_fst_nodup h) hb hc rfl)

/-- And one ends there. -/
theorem outlineEdges_prev (h : t.ringLengths.sum < 2 ^ 32) {a b c : UInt32}
    (hb : (b, a) ∈ t.outlineEdges) (hc : (c, a) ∈ t.outlineEdges) : b = c := by
  have hnodup := (outlineEdges_perm t).nodup_iff.mpr (outlineEdges_fst_nodup h)
  exact congrArg Prod.fst (List.inj_on_of_nodup_map hnodup hb hc rfl)

/-- An edge joins vertices of the profile. -/
theorem outlineEdges_lt (h : t.ringLengths.sum < 2 ^ 32) {a : UInt32 × UInt32}
    (ha : a ∈ t.outlineEdges) :
    a.1.toNat < t.ringLengths.sum ∧ a.2.toNat < t.ringLengths.sum := by
  have hlt : ∀ i ∈ t.outlineEdges.map Prod.fst, i.toNat < t.ringLengths.sum := by
    intro i hi
    rw [outlineEdges_fst h] at hi
    obtain ⟨x, hx, rfl⟩ := List.mem_map.mp hi
    rw [List.mem_range'_1] at hx
    rw [toNat_toUInt32 (by omega)]
    omega
  exact ⟨hlt _ (List.mem_map_of_mem ha),
    hlt _ ((outlineEdges_perm t).mem_iff.mp (List.mem_map_of_mem ha))⟩

/-- **No edge of a ring of three or more runs both ways.** -/
theorem swap_not_mem_outlineEdges (h : t.ringLengths.sum < 2 ^ 32)
    (h3 : ∀ n ∈ t.ringLengths, 3 ≤ n) {a : UInt32 × UInt32} (ha : a ∈ t.outlineEdges) :
    a.swap ∉ t.outlineEdges := by
  intro hs
  obtain ⟨r, hr, hra⟩ := List.mem_flatMap.mp ha
  have hlengths : t.ringRanges.map (fun r => r.2.toNat - r.1.toNat) = t.ringLengths :=
    rangesFrom_lengths t.ringLengths 0 (by simpa using h)
  have hlen := h3 _ (hlengths ▸ List.mem_map_of_mem hr)
  -- the edge after it in its ring is the only one from there
  have hmem : a.2 ∈ (ringEdges r).map Prod.fst := by
    rw [ringEdges_fst]
    exact (ringEdges_snd_perm r).mem_iff.mp (List.mem_map_of_mem hra)
  obtain ⟨b, hb, e⟩ := List.mem_map.mp hmem
  obtain rfl : b = a.swap := Prod.ext e
    (outlineEdges_next h (e ▸ List.mem_flatMap.mpr ⟨r, hr, hb⟩) hs)
  have h₁ := mem_ringEdges.mp hra
  have h₂ := mem_ringEdges.mp hb
  grind

/-- **Only in rings of three or more** no edge runs both ways. -/
theorem three_le_of_swap_not_mem (h : t.ringLengths.sum < 2 ^ 32) (hpos : ∀ n ∈ t.ringLengths, 0 < n)
    (hs : ∀ a ∈ t.outlineEdges, a.swap ∉ t.outlineEdges) : ∀ n ∈ t.ringLengths, 3 ≤ n := by
  intro n hn
  have h0 := hpos n hn
  rw [← rangesFrom_lengths t.ringLengths 0 (by simpa using h)] at hn
  obtain ⟨r, hr, rfl⟩ := List.mem_map.mp hn
  by_contra hlt
  -- the first index and the one after it, which is the first again in a ring of one
  obtain ⟨b, hb⟩ : ∃ b : UInt32, b.toNat = r.2.toNat - 1 := by
    have hlast := r.2.toNat_lt
    exact ⟨(r.2.toNat - 1).toUInt32, toNat_toUInt32 (by omega)⟩
  have hab : (r.1, b) ∈ ringEdges r := mem_ringEdges.mpr (by grind)
  have hba : (b, r.1) ∈ ringEdges r := mem_ringEdges.mpr (by grind)
  exact hs _ (List.mem_flatMap.mpr ⟨r, hr, hab⟩) (List.mem_flatMap.mpr ⟨r, hr, hba⟩)

end Triangulation

end Prims
