import Prims.Proofs.Sweep.Layout

/-!
# Sweep — Segments

What a swept profile of `n` vertices consists of.  The vertices of layer `k` are those from `n * k` on, each
where the path places it, scaled (`positions_assemble`).  The triangles are `2 * n` for every segment between
joined layers, one segment after the other, and the two caps of a sweep that is not welded
(`length_assemble`); the walls of a segment stand on its two layers, each on one ring (`mem_segment`).  Main
statement: `extrude_layout`.
-/

namespace Prims

open Triangle

/-- Rows of one length, one after the other. -/
theorem drop_take_flatten {α : Type} {rows : List (List α)} {n k : Nat} (hrows : ∀ r ∈ rows, r.length = n)
    (hk : k < rows.length) : (rows.flatten.drop (n * k)).take n = rows[k] := by
  have hlengths : rows.map List.length = List.replicate rows.length n :=
    List.eq_replicate_iff.mpr ⟨List.length_map _, fun x hx => by
      obtain ⟨r, hr, rfl⟩ := List.mem_map.mp hx
      exact hrows r hr⟩
  have hsum : ∀ j ≤ rows.length, ((rows.map List.length).take j).sum = n * j := by
    intro j hj
    rw [hlengths, List.take_replicate, List.sum_replicate_nat, Nat.min_eq_left hj, Nat.mul_comm]
  have hrow := List.drop_take_succ_flatten_eq_getElem rows k hk
  rw [hsum k hk.le, hsum (k + 1) hk, List.drop_take, Nat.mul_succ, Nat.add_sub_cancel_left] at hrow
  exact hrow

/-- An element of rows of one length, by its row and its place there. -/
theorem getElem?_flatten {α : Type} {rows : List (List α)} {row : List α} {n k i : Nat}
    (hrows : ∀ r ∈ rows, r.length = n) (hrow : rows[k]? = some row) (hi : i < n) :
    rows.flatten[n * k + i]? = row[i]? := by
  obtain ⟨hk, rfl⟩ := List.getElem?_eq_some_iff.mp hrow
  rw [← drop_take_flatten hrows hk, List.getElem?_take_of_lt hi, List.getElem?_drop]

namespace Triangulation

variable {t : Triangulation} {layers : List (List Point)} {count k : UInt32}

/-! ### Walls -/

theorem length_outlineEdges (h : t.ringLengths.sum < 2 ^ 32) :
    t.outlineEdges.length = t.ringLengths.sum := by
  have := congrArg List.length (outlineEdges_fst h)
  simpa using this

theorem length_segment (h : t.ringLengths.sum < 2 ^ 32) (count k : UInt32) :
    (t.segment count k).length = 2 * t.ringLengths.sum := by
  simp [segment, wall, ← length_outlineEdges h, List.map_const', Nat.mul_comm]

/-- **The walls of a segment** stand on its two layers, each on one ring. -/
theorem mem_segment {s : Triangle} (hs : s ∈ t.segment count k) : ∃ r ∈ t.ringRanges, ∀ j ∈ s.indices,
    ∃ v : Spot, j = t.vertexAt v ∧ (v.1 = k ∨ v.1 = (k + 1) % count) ∧ v.2 ∈ indexRange r := by
  obtain ⟨e, he, hs⟩ := List.mem_flatMap.mp hs
  obtain ⟨r, hr, he⟩ := List.mem_flatMap.mp he
  have hstart : e.1 ∈ indexRange r := ringEdges_fst r ▸ List.mem_map_of_mem he
  have hend : e.2 ∈ indexRange r := (ringEdges_snd_perm r).mem_iff.mp (List.mem_map_of_mem he)
  refine ⟨r, hr, ?_⟩
  simp only [wall, List.mem_cons, List.not_mem_nil, or_false] at hs
  rcases hs with rfl | rfl
  · simp only [indices, List.forall_mem_cons, List.not_mem_nil, false_implies, implies_true, and_true]
    exact ⟨⟨(k, e.1), rfl, .inl rfl, hstart⟩, ⟨(k, e.2), rfl, .inl rfl, hend⟩,
      ⟨((k + 1) % count, e.2), rfl, .inr rfl, hend⟩⟩
  · simp only [indices, List.forall_mem_cons, List.not_mem_nil, false_implies, implies_true, and_true]
    exact ⟨⟨(k, e.1), rfl, .inl rfl, hstart⟩, ⟨((k + 1) % count, e.2), rfl, .inr rfl, hend⟩,
      ⟨((k + 1) % count, e.1), rfl, .inr rfl, hstart⟩⟩

/-- The rings run over vertices of the profile. -/
theorem toNat_lt_of_mem_ring (h : t.ringLengths.sum < 2 ^ 32) {r : UInt32 × UInt32} (hr : r ∈ t.ringRanges)
    {a : UInt32} (ha : a ∈ indexRange r) : a.toNat < t.ringLengths.sum := by
  rw [← ringEdges_fst] at ha
  obtain ⟨e, he, rfl⟩ := List.mem_map.mp ha
  exact (outlineEdges_lt h (List.mem_flatMap.mpr ⟨r, hr, he⟩)).1

/-! ### Segments and caps -/

/-- How many pairs of layers are joined: all round a welded sweep, otherwise from the first layer to the
last. -/
def segmentCount (layers : List (List Point)) : Nat :=
  if weldsShut layers then (keptLayers layers).length else (keptLayers layers).length - 1

theorem segmentCount_le (layers : List (List Point)) : segmentCount layers ≤ (keptLayers layers).length := by
  unfold segmentCount
  split
  · exact Nat.le_refl _
  · exact Nat.sub_le _ _

/-- The walls of the first segments, one list for each. -/
def segments (t : Triangulation) (count : UInt32) (m : Nat) : List (List Triangle) :=
  (List.range m).map fun k => t.segment count k.toUInt32

/-- The segments one after the other, then the caps of a sweep that is not welded. -/
theorem triangles_assemble (hlen : 0 < layers.length) (hkept : (keptLayers layers).length < 2 ^ 32) :
    (t.assemble layers).triangles =
      (t.segments (keptLayers layers).length.toUInt32 (segmentCount layers)).flatten ++
      if weldsShut layers then []
      else t.mesh.triangles.flatMap (caps (t.layerStart ((keptLayers layers).length.toUInt32 - 1))) := by
  have hcount := toNat_toUInt32 hkept
  have hpred : ((keptLayers layers).length.toUInt32 - 1).toNat = (keptLayers layers).length - 1 := by
    rw [Mesh.toNat_pred (by rw [hcount]; exact keptLayers_pos hlen), hcount]
  show t.surface (keptLayers layers).length.toUInt32 (weldsShut layers) = _
  unfold segmentCount segments
  cases weldsShut layers with
  | true => rw [surface_closed, hcount, if_pos rfl, if_pos rfl, List.append_nil, List.flatMap_def]
  | false => rw [surface_open, hpred, if_neg Bool.false_ne_true, if_neg Bool.false_ne_true, List.flatMap_def]

theorem length_of_mem_segments (h : t.ringLengths.sum < 2 ^ 32) {m : Nat} :
    ∀ ts ∈ t.segments count m, ts.length = 2 * t.ringLengths.sum := by
  intro ts hts
  obtain ⟨k, -, rfl⟩ := List.mem_map.mp hts
  exact length_segment h count _

theorem length_segments (t : Triangulation) (count : UInt32) (m : Nat) : (t.segments count m).length = m := by
  simp [segments]

theorem length_flatten_segments (h : t.ringLengths.sum < 2 ^ 32) (count : UInt32) (m : Nat) :
    (t.segments count m).flatten.length = 2 * t.ringLengths.sum * m := by
  rw [List.length_flatten, List.map_congr_left (length_of_mem_segments h), List.map_const',
    List.sum_replicate_nat, length_segments, Nat.mul_comm]

/-- **How many triangles a swept profile has**: two for each vertex and segment, and the caps. -/
theorem length_assemble (h : t.ringLengths.sum < 2 ^ 32) (hlen : 0 < layers.length)
    (hkept : (keptLayers layers).length < 2 ^ 32) : (t.assemble layers).triangles.length =
      2 * t.ringLengths.sum * segmentCount layers +
        if weldsShut layers then 0 else 2 * t.mesh.triangleCount := by
  rw [triangles_assemble hlen hkept, List.length_append, length_flatten_segments h]
  split
  · rfl
  · simp [caps, Mesh.triangleCount, List.map_const', Nat.mul_comm]

/-- The triangles of a segment, by their place in the list. -/
theorem drop_take_assemble (h : t.ringLengths.sum < 2 ^ 32) (hlen : 0 < layers.length)
    (hkept : (keptLayers layers).length < 2 ^ 32) {k : Nat} (hk : k < segmentCount layers) :
    ((t.assemble layers).triangles.drop (2 * t.ringLengths.sum * k)).take (2 * t.ringLengths.sum) =
      t.segment (keptLayers layers).length.toUInt32 k.toUInt32 := by
  have hroom := Nat.mul_le_mul_left (2 * t.ringLengths.sum) (Nat.succ_le_of_lt hk)
  rw [Nat.mul_succ] at hroom
  rw [triangles_assemble hlen hkept,
    List.drop_append_of_le_length (by rw [length_flatten_segments h]; omega),
    List.take_append_of_le_length (by rw [List.length_drop, length_flatten_segments h]; omega),
    drop_take_flatten (length_of_mem_segments h) (by rwa [length_segments])]
  simp [segments]

/-! ### Layers -/

theorem length_keptLayers (layers : List (List Point)) :
    (keptLayers layers).length = if weldsShut layers then layers.length - 1 else layers.length := by
  unfold keptLayers
  split
  · exact List.length_dropLast
  · rfl

/-- The layers that are kept are the first ones. -/
theorem getElem?_keptLayers {k : Nat} (hk : k < (keptLayers layers).length) :
    (keptLayers layers)[k]? = layers[k]? := by
  rw [length_keptLayers] at hk
  unfold keptLayers
  split
  next h =>
    rw [if_pos h] at hk
    rw [List.dropLast_eq_take, List.getElem?_take_of_lt hk]
  next => rfl

theorem getElem?_layers {path : SweepPath} {profile : List Point} {k : Nat} (hk : k < path.steps + 1) :
    (path.layers profile)[k]? = some (profile.map (path.place k)) := by
  simp [SweepPath.layers, hk]

/-- **Vertex `n * k + i`** is where layer `k` has vertex `i` of the profile. -/
theorem positions_assemble {path : SweepPath} {k i : Nat}
    (hk : k < (keptLayers (path.layers t.mesh.positions.toList)).length) (hi : i < t.mesh.vertexCount) :
    (t.assemble (path.layers t.mesh.positions.toList)).positions[t.mesh.vertexCount * k + i]? =
      (t.mesh.positions[i]?).map (path.place k) := by
  have hrows : ∀ l ∈ keptLayers (path.layers t.mesh.positions.toList), l.length = t.mesh.vertexCount :=
    length_of_mem_keptLayers fun l hl => (SweepPath.length_of_mem_layers hl).trans Array.length_toList
  have hsteps : k < path.steps + 1 := by
    rw [length_keptLayers, SweepPath.length_layers] at hk
    split at hk <;> omega
  have hrow := (getElem?_keptLayers hk).trans (getElem?_layers hsteps)
  show (keptLayers (path.layers t.mesh.positions.toList)).flatten.toArray[_]? = _
  rw [List.getElem?_toArray, getElem?_flatten hrows hrow hi, List.getElem?_map, Array.getElem?_toList]

/-! ### The swept profile -/

/-- The walls of segment `k`, by the numbers of their vertices. -/
theorem mem_drop_take_assemble (hsum : t.ringLengths.sum = t.mesh.vertexCount) (hn : 0 < t.mesh.vertexCount)
    (hlen : 0 < layers.length) (hfit : t.mesh.vertexCount * (keptLayers layers).length < 2 ^ 32) {k : Nat}
    (hk : k < segmentCount layers) {s : Triangle}
    (hs : s ∈ ((t.assemble layers).triangles.drop (2 * t.mesh.vertexCount * k)).take (2 * t.mesh.vertexCount)) :
    ∃ r ∈ t.ringRanges, ∀ j ∈ s.indices, ∃ a ∈ indexRange r,
      j.toNat = t.mesh.vertexCount * k + a.toNat ∨
        j.toNat = t.mesh.vertexCount * ((k + 1) % (keptLayers layers).length) + a.toNat := by
  have hpos := keptLayers_pos hlen
  have hle := segmentCount_le layers
  have hn32 : t.ringLengths.sum < 2 ^ 32 := hsum ▸ lt_of_le_of_lt (Nat.le_mul_of_pos_right _ hpos) hfit
  have hkept : (keptLayers layers).length < 2 ^ 32 := lt_of_le_of_lt (Nat.le_mul_of_pos_left _ hn) hfit
  have hcount := toNat_toUInt32 hkept
  have hfits : t.Fits (keptLayers layers).length.toUInt32 := by rwa [Fits, hcount]
  rw [← hsum, drop_take_assemble hn32 hlen hkept hk] at hs
  obtain ⟨r, hr, hcorners⟩ := mem_segment hs
  refine ⟨r, hr, fun j hj => ?_⟩
  obtain ⟨⟨l, a⟩, rfl, hl, ha⟩ := hcorners j hj
  have hak : a.toNat < t.mesh.vertexCount := hsum ▸ toNat_lt_of_mem_ring hn32 hr ha
  have hlower : k.toUInt32.toNat = k := toNat_toUInt32 (by omega)
  have hupper : ((k.toUInt32 + 1) % (keptLayers layers).length.toUInt32).toNat =
      (k + 1) % (keptLayers layers).length := by
    rw [toNat_succ_mod (by rw [hcount]; omega), hcount, succ_mod (by omega)]
  refine ⟨a, ha, ?_⟩
  rcases hl with rfl | rfl
  · refine .inl ?_
    rw [toNat_vertexAt hfits ⟨by rw [hlower, hcount]; omega, hak⟩, hlower]
  · refine .inr ?_
    have hlt := Nat.mod_lt (k + 1) hpos
    rw [toNat_vertexAt hfits ⟨by rw [hupper, hcount]; exact hlt, hak⟩, hupper]

/-- **The layout of a swept profile.**  A profile of `n` vertices swept along a path is a mesh whatever the size.
With `L` layers left after welding, its vertex `n * k + i` is where the path places vertex `i` of the profile
at step `k`, scaled; its triangles are the same for every size, two for each vertex and segment and, unless
the sweep is welded, twice those of the profile, and name vertices that are there; those of segment `k`
stand on layers `k` and `k + 1`, counted round, and on one ring.  There are always two layers left, and only
sweeps of three layers are welded. -/
theorem extrude_layout (hsum : t.ringLengths.sum = t.mesh.vertexCount) (hn : 0 < t.mesh.vertexCount)
    (hin : t.mesh.InRange) (path : SweepPath)
    (hfit : t.mesh.vertexCount * (keptLayers (path.layers t.mesh.positions.toList)).length < 2 ^ 32) :
    let n := t.mesh.vertexCount
    let welded := weldsShut (path.layers t.mesh.positions.toList)
    let L := (keptLayers (path.layers t.mesh.positions.toList)).length
    L = (if welded then path.steps else path.steps + 1) ∧ 2 ≤ L ∧ (welded = true → 3 ≤ path.steps + 1) ∧
    ∃ triangles : List Triangle,
      triangles.length = (if welded then 2 * n * L else 2 * n * (L - 1) + 2 * t.mesh.triangleCount) ∧
      (∀ s ∈ triangles, ∀ j ∈ s.indices, j.toNat < n * L) ∧
      (∀ k < (if welded then L else L - 1), ∀ s ∈ (triangles.drop (2 * n * k)).take (2 * n),
        ∃ r ∈ t.ringRanges, ∀ j ∈ s.indices, ∃ a ∈ indexRange r,
          j.toNat = n * k + a.toNat ∨ j.toNat = n * ((k + 1) % L) + a.toNat) ∧
      ∀ size : Point, ∃ m, (t.extrude path size).result = .ok m ∧ m.triangles = triangles ∧
        m.vertexCount = n * L ∧ ∀ k < L, ∀ i < n,
          m.positions[n * k + i]? = (t.mesh.positions[i]?).map fun p => (path.place k p).times size := by
  intro n welded L
  have hlen : (path.layers t.mesh.positions.toList).length = path.steps + 1 := path.length_layers _
  have hkept : L = if welded then path.steps else path.steps + 1 := by
    show (keptLayers _).length = _
    rw [length_keptLayers, hlen, Nat.add_sub_cancel]
  have hweld : welded = true → 3 ≤ path.steps + 1 := fun h => hlen ▸ three_le_of_weldsShut h
  have htwo : 2 ≤ L := by
    have hpos := path.steps_pos
    rw [hkept]
    split
    next h =>
      have := hweld h
      omega
    next => omega
  have hn32 : t.ringLengths.sum < 2 ^ 32 := hsum ▸ lt_of_le_of_lt (Nat.le_mul_of_pos_right n (by omega)) hfit
  have hL32 : L < 2 ^ 32 := lt_of_le_of_lt (Nat.le_mul_of_pos_left L hn) hfit
  have hwidth : ∀ l ∈ path.layers t.mesh.positions.toList, l.length = n :=
    fun l hl => (SweepPath.length_of_mem_layers hl).trans Array.length_toList
  have hcount : (t.assemble (path.layers t.mesh.positions.toList)).vertexCount = n * L :=
    vertexCount_assemble hwidth
  refine ⟨hkept, htwo, hweld, (t.assemble (path.layers t.mesh.positions.toList)).triangles, ?_, ?_, ?_,
    fun size => ?_⟩
  · rw [length_assemble hn32 (by omega) hL32, hsum]
    show 2 * n * (if welded then L else L - 1) + (if welded then 0 else _) = _
    split
    · rfl
    · rfl
  · intro s hs j hj
    rw [← hcount]
    exact assemble_inRange hsum hn hin (by omega) hwidth s hs j hj
  · intro k hk s hs
    exact mem_drop_take_assemble hsum hn (by omega) hfit hk hs
  · refine ⟨_, extrude_result (extrude?_eq hn path size), rfl, ?_, fun k hk i hi => ?_⟩
    · rw [← hcount]
      exact Array.size_map
    · show ((t.assemble _).positions.map _)[n * k + i]? = _
      rw [Array.getElem?_map, positions_assemble hk hi, Option.map_map]
      rfl

/-- A ring about the `x` axis. -/
def ringPath : CircularPath := { scale := ⟨1, 0.5⟩ }

/-- Sines and cosines of no turn, of half a turn and of a whole one, to the nearest single. -/
structure TurnRounded : Prop where
  sin_zero : (0 : Float32).sin = 0
  cos_zero : (0 : Float32).cos = 1
  sin_half : (Single.tau / 2).sin = -8.742278e-8
  cos_half : (Single.tau / 2).cos = -1
  sin_turn : Single.tau.sin = 1.7484556e-7
  cos_turn : Single.tau.cos = 1

theorem steps_ringPath : ringPath.effective = ringPath ∧ ringPath.steps = 24 := by decide +kernel

/-- The ring comes back to where it began. -/
theorem weldsShut_ring (h : TurnRounded) :
    weldsShut ((SweepPath.circular ringPath).layers squareProfile.mesh.positions.toList) = true := by
  obtain ⟨heffective, hsteps⟩ := steps_ringPath
  -- the angles of the first step and of the last one
  have hbegin : ringPath.startAngle + ringPath.sweep * ratio 0 24 = 0 := by decide +kernel
  have hend : ringPath.startAngle + ringPath.sweep * ratio 24 24 = Single.tau := by decide +kernel
  have hhalf : (0 : Float32) / 2 = 0 := by decide +kernel
  have hbegin' : 0 + ringPath.shearY * 0.9 = 0 := by decide +kernel
  have hend' : Single.tau + ringPath.shearY * 0.9 = Single.tau := by decide +kernel
  rw [weldsShut_layers_iff]
  simp only [SweepPath.steps, SweepPath.place, heffective, hsteps, CircularPath.place, Point.rotateX,
    Point.rotate, hbegin, hend, hhalf, hbegin', hend', h.sin_zero, h.cos_zero, h.sin_half, h.cos_half,
    h.sin_turn, h.cos_turn]
  decide +kernel

/-- A box of two layers, and a ring of twenty-four. -/
theorem extrude_layout_box : squareProfile.mesh.InRange ∧
    (∃ m, (squareProfile.extrude (.linear {}) ⟨2, 3, 4⟩).result = .ok m ∧ m.triangleCount = 12 ∧
      m.vertexCount = 8 ∧ m.positions[4 * 1 + 2]? = some ⟨2, 3, 2⟩) ∧
    (TurnRounded → ∃ m, (squareProfile.extrude (.circular ringPath) ⟨2, 3, 4⟩).result = .ok m ∧
      m.triangleCount = 192 ∧ m.vertexCount = 96 ∧
      ∀ s ∈ (m.triangles.drop (8 * 23)).take 8, ∀ j ∈ s.indices, 4 * 23 ≤ j.toNat ∨ j.toNat < 4) := by
  have hin : squareProfile.mesh.InRange := by decide +kernel
  refine ⟨hin, ?_, fun hturn => ?_⟩
  · have hopen : weldsShut ((SweepPath.linear {}).layers squareProfile.mesh.positions.toList) = false :=
      weldsShut_linear (by decide +kernel) (by decide)
    obtain ⟨hkept, -, -, triangles, hlength, -, -, hsize⟩ :=
      extrude_layout (t := squareProfile) (by decide) (by decide) hin (.linear {}) (by decide +kernel)
    obtain ⟨m, hm, rfl, hcount, hpositions⟩ := hsize ⟨2, 3, 4⟩
    rw [hopen, if_neg Bool.false_ne_true] at hkept hlength
    have hlayers : (SweepPath.linear {}).steps + 1 = 2 := by decide +kernel
    rw [hkept, hlayers] at hlength hcount hpositions
    refine ⟨m, hm, hlength, hcount, (hpositions 1 (by decide) 2 (by decide)).trans ?_⟩
    decide +kernel
  · have hweld := weldsShut_ring hturn
    have hkept : (keptLayers ((SweepPath.circular ringPath).layers
        squareProfile.mesh.positions.toList)).length = 24 := by
      rw [length_keptLayers, if_pos hweld, SweepPath.length_layers, SweepPath.steps, steps_ringPath.1,
        steps_ringPath.2]
    obtain ⟨-, -, -, triangles, hlength, hrange, hwalls, hsize⟩ :=
      extrude_layout (t := squareProfile) (by decide) (by decide) hin (.circular ringPath)
        (by rw [hkept]; decide)
    obtain ⟨m, hm, rfl, hcount, -⟩ := hsize ⟨2, 3, 4⟩
    rw [hkept, if_pos hweld] at hlength hwalls
    rw [hkept] at hcount
    refine ⟨m, hm, hlength, hcount, fun s hs j hj => ?_⟩
    obtain ⟨r, hr, hcorners⟩ := hwalls 23 (by decide) s hs
    obtain ⟨a, ha, hlayer⟩ := hcorners j hj
    have hlt : a.toNat < 4 := toNat_lt_of_mem_ring (t := squareProfile) (by decide) hr ha
    rcases hlayer with hlower | hupper
    · exact .inl (by rw [hlower]; exact Nat.le_add_right _ _)
    · exact .inr (by rw [hupper]; omega)

end Triangulation

end Prims
