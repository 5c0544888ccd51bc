import Mathlib.Data.List.Chain
import Prims.Proofs.Hull.Difference
import Prims.Proofs.Triangulation.Rings

/-!
# Hull — Edits

A hull comes about by edits: vertices and marks are appended, and all vertices are turned (`Hull.Edit`).
What is appended follows a grammar (`Hull.Written`): a mark stands only behind a vertex, and a vertex behind
any mark or a vertex that it is apart from.  Turning moves vertices and no mark, so it keeps the grammar but
may let neighbours coincide.  The grammar gives each mark a ring that ends there, and one more ring to a hull
that ends with a vertex (`Written.length_rings`).  Without turns a hull is what its rings give when they are
written again, up to a mark at the end (`edited_rewritten`).  Main statement: `edited_represents`.
-/

namespace Prims

/-- An entry may stand right behind another: a mark behind a vertex, a vertex behind a mark, and a vertex
behind one that it is related to. -/
def HullPoint.MayFollow (R : Point → Point → Prop) : HullPoint → HullPoint → Prop
  | .vertex q, .vertex p => R q p
  | .ringEnd,  .ringEnd  => False
  | _,         _         => True

namespace Hull

open HullPoint

variable {h : Hull} {p q : Point} {R : Point → Point → Prop} {edits : List Edit}

/-! ### Edits -/

/-- An operation on a hull, with its arguments. -/
inductive Edit where
  | addVertex (p : Point)
  | addBreak
  | rotateZ (angle : Float32)

namespace Edit

/-- The hull after the edit. -/
def apply : Edit → Hull → Hull
  | .addVertex p,   h => h.addVertex p
  | .addBreak,      h => h.addBreak
  | .rotateZ angle, h => h.rotateZ angle

/-- The edit leaves the entries that are there. -/
def appends : Edit → Bool
  | .addVertex _ | .addBreak => true
  | .rotateZ _ => false

end Edit

/-- The hull after the edits, first to last. -/
def edited (edits : List Edit) : Hull := edits.foldl (fun h e => e.apply h) empty

/-- The rings written one after the other, with a mark before each; before the first it has no effect. -/
def ofRings (rings : List Ring) : Hull := rings.foldl (fun h ring => h.addBreak.addRing ring) empty

theorem edited_concat (edits : List Edit) (e : Edit) : edited (edits ++ [e]) = e.apply (edited edits) := by
  simp [edited]

theorem ofRings_concat (rings : List Ring) (ring : Ring) :
    ofRings (rings ++ [ring]) = (ofRings rings).addBreak.addRing ring := by
  simp [ofRings]

theorem addRing_concat (h : Hull) (ring : Ring) (p : Point) :
    h.addRing (ring ++ [p]) = (h.addRing ring).addVertex p := by
  simp [addRing]

/-! ### The last entry -/

/-- The vertex that the hull ends with, unless it is empty or ends with a mark. -/
def lastVertex? (h : Hull) : Option Point := h.points.getLast?.bind vertex?

@[simp] theorem lastVertex?_empty : empty.lastVertex? = none := rfl

@[simp] theorem lastVertex?_vertex (ps : List HullPoint) (p : Point) :
    lastVertex? ⟨ps ++ [.vertex p]⟩ = some p := by
  simp [lastVertex?, vertex?]

@[simp] theorem lastVertex?_ringEnd (ps : List HullPoint) : lastVertex? ⟨ps ++ [.ringEnd]⟩ = none := by
  simp [lastVertex?, vertex?]

theorem lastVertex?_eq_some : h.lastVertex? = some q ↔ ∃ ps, h = ⟨ps ++ [.vertex q]⟩ := by
  refine ⟨fun hq => ?_, fun ⟨ps, hps⟩ => hps ▸ lastVertex?_vertex ps q⟩
  obtain ⟨x, hx, hxq⟩ := Option.bind_eq_some_iff.mp hq
  obtain ⟨ps, hps⟩ := List.getLast?_eq_some_iff.mp hx
  cases x with
  | vertex p => exact ⟨ps, congrArg Hull.mk (Option.some.inj hxq ▸ hps)⟩
  | ringEnd => cases hxq

theorem lastVertex?_eq_none : h.lastVertex? = none ↔ h = empty ∨ ∃ ps, h = ⟨ps ++ [.ringEnd]⟩ := by
  refine ⟨fun hq => ?_, by rintro (rfl | ⟨ps, rfl⟩) <;> simp⟩
  rcases List.eq_nil_or_concat' h.points with hps | ⟨ps, x, hps⟩
  · exact .inl (congrArg Hull.mk hps)
  · obtain rfl : h = ⟨ps ++ [x]⟩ := congrArg Hull.mk hps
    cases x with
    | vertex p => simp at hq
    | ringEnd => exact .inr ⟨ps, rfl⟩

theorem addVertex_eq (h : Hull) (p : Point) :
    h.addVertex p = if h.lastVertex?.any (·.same p) then h else ⟨h.points ++ [.vertex p]⟩ := by
  unfold addVertex lastVertex?
  rcases h.points.getLast? with _ | _ | _ <;> rfl

theorem addBreak_eq (h : Hull) :
    h.addBreak = if h.lastVertex?.isSome then ⟨h.points ++ [.ringEnd]⟩ else h := by
  unfold addBreak lastVertex?
  rcases h.points.getLast? with _ | _ | _ <;> rfl

/-! ### The grammar of entries -/

/-- Each entry may stand behind the one before it, the first as if it stood behind a mark. -/
def Written (R : Point → Point → Prop) (h : Hull) : Prop := (ringEnd :: h.points).IsChain (MayFollow R)

/-- One entry more, behind the last one. -/
theorem written_append {ps : List HullPoint} {x : HullPoint} :
    Written R ⟨ps ++ [x]⟩ ↔ Written R ⟨ps⟩ ∧ MayFollow R (ps.getLast?.getD .ringEnd) x := by
  show List.IsChain (MayFollow R) (ringEnd :: ps ++ [x]) ↔ _
  rw [List.isChain_append]
  simp [Written, List.getLast?_cons]

theorem mayFollow_vertex :
    MayFollow R (h.points.getLast?.getD .ringEnd) (.vertex p) ↔ ∀ q ∈ h.lastVertex?, R q p := by
  unfold lastVertex?
  rcases h.points.getLast? with _ | _ | _ <;> simp [MayFollow, vertex?]

theorem mayFollow_ringEnd :
    MayFollow R (h.points.getLast?.getD .ringEnd) .ringEnd ↔ h.lastVertex?.isSome := by
  unfold lastVertex?
  rcases h.points.getLast? with _ | _ | _ <;> simp [MayFollow, vertex?]

/-- Of two neighbours the second may follow the first. -/
theorem Written.neighbours (hw : Written R h) {x y : HullPoint} (hxy : [x, y] <:+: h.points) :
    MayFollow R x y := by
  have hpair : [x, y].IsChain (MayFollow R) :=
    List.IsChain.infix hw (List.infix_cons hxy)
  exact List.isChain_pair.mp hpair

theorem Written.mapVertices (hw : Written R h) (hall : ∀ q p, R q p) (f : Point → Point) :
    Written R (h.mapVertices f) := by
  obtain ⟨g, hg, hvertex, hend⟩ : ∃ g : HullPoint → HullPoint, (h.mapVertices f).points = h.points.map g ∧
      (∀ p, g (.vertex p) = .vertex (f p)) ∧ g .ringEnd = .ringEnd := ⟨_, rfl, fun _ => rfl, rfl⟩
  rw [Written, hg, ← hend, List.isChain_cons_map]
  refine List.IsChain.imp (fun x y hxy => ?_) hw
  cases x <;> cases y <;> simp_all [MayFollow]

/-- **An edit keeps the grammar**, a turn one that relates all vertices. -/
theorem Written.apply (hw : Written R h) (hR : ∀ q p, q.same p = false → R q p) {e : Edit}
    (he : e.appends ∨ ∀ q p, R q p) : Written R (e.apply h) := by
  cases e with
  | addVertex p =>
    show Written R (h.addVertex p)
    rw [addVertex_eq]
    split
    · exact hw
    next hsame =>
      refine written_append.mpr ⟨hw, mayFollow_vertex.mpr fun q hq => hR q p ?_⟩
      simpa [Option.mem_def.mp hq] using hsame
  | addBreak =>
    show Written R h.addBreak
    rw [addBreak_eq]
    split
    next hq => exact written_append.mpr ⟨hw, mayFollow_ringEnd.mpr hq⟩
    · exact hw
  | rotateZ angle => exact hw.mapVertices (he.resolve_left Bool.false_ne_true) _

/-- **A hull that comes about by edits is written by the grammar.** -/
theorem edited_written (hR : ∀ q p, q.same p = false → R q p)
    (he : (∀ e ∈ edits, e.appends) ∨ ∀ q p, R q p) : Written R (edited edits) := by
  induction edits using List.reverseRecOn with
  | nil => exact .singleton _
  | append_singleton edits e ih =>
    rw [edited_concat]
    refine (ih (he.imp_left fun he e hmem => he e (List.mem_append_left _ hmem))).apply hR ?_
    exact he.imp_left fun he => he e (by simp)

/-! ### Rings, as entries are appended -/

theorem rings_append_ringEnd (ps : List HullPoint) : rings ⟨ps ++ [.ringEnd]⟩ = rings ⟨ps⟩ :=
  (ringsAfter_ringEnd [] ps []).trans (List.append_nil _)

/-- A vertex behind a mark, or at the front, begins a ring, -/
theorem rings_append_of_none (hq : h.lastVertex? = none) (p : Point) :
    rings ⟨h.points ++ [.vertex p]⟩ = h.rings ++ [[p]] := by
  rcases lastVertex?_eq_none.mp hq with rfl | ⟨ps, rfl⟩
  · rfl
  · rw [rings_append_ringEnd, List.append_assoc]
    exact ringsAfter_ringEnd [] ps [.vertex p]

/-- and vertices behind a vertex go on with the last one. -/
theorem ringsAfter_append : ∀ (started : Ring) (ps : List HullPoint) (q : Point),
    ∃ rings ring, ∀ more : Ring,
      ringsAfter started (ps ++ .vertex q :: more.map .vertex) = rings ++ [ring ++ more]
  | started, [], q => ⟨[], started.reverse ++ [q], fun more => by
      rw [List.nil_append, ringsAfter, ringsAfter_vertices more q started, List.append_assoc]
      rfl⟩
  | started, .vertex p :: ps, q => by
    obtain ⟨rings, ring, hmore⟩ := ringsAfter_append (p :: started) ps q
    exact ⟨rings, ring, fun more => by rw [List.cons_append, ringsAfter, hmore]⟩
  | [], .ringEnd :: ps, q => ringsAfter_append [] ps q
  | p :: started, .ringEnd :: ps, q => by
    obtain ⟨rings, ring, hmore⟩ := ringsAfter_append [] ps q
    exact ⟨(p :: started).reverse :: rings, ring, fun more => congrArg (_ :: ·) (hmore more)⟩

theorem rings_append_of_some (hq : h.lastVertex? = some q) :
    ∃ before ring, h.rings = before ++ [ring] ∧
      ∀ p, rings ⟨h.points ++ [.vertex p]⟩ = before ++ [ring ++ [p]] := by
  obtain ⟨ps, rfl⟩ := lastVertex?_eq_some.mp hq
  obtain ⟨before, ring, hmore⟩ := ringsAfter_append [] ps q
  refine ⟨before, ring, by simpa [rings] using hmore [], fun p => ?_⟩
  simpa [rings] using hmore [p]

/-- **Each mark ends a ring**, and vertices at the end are one more. -/
theorem Written.length_rings {ps : List HullPoint} (hw : Written R ⟨ps⟩) :
    (rings ⟨ps⟩).length = ps.count .ringEnd + if (lastVertex? ⟨ps⟩).isSome then 1 else 0 := by
  induction ps using List.reverseRecOn with
  | nil => rfl
  | append_singleton ps x ih =>
    obtain ⟨hw, hx⟩ := written_append.mp hw
    have ih := ih hw
    cases x with
    | vertex p =>
      rw [List.count_append, lastVertex?_vertex]
      cases hq : lastVertex? ⟨ps⟩ with
      | none => simp_all [rings_append_of_none hq p]
      | some q =>
        obtain ⟨before, ring, hrings, happend⟩ := rings_append_of_some hq
        simp_all
    | ringEnd =>
      have hsome := mayFollow_ringEnd (h := ⟨ps⟩).mp hx
      rw [rings_append_ringEnd, lastVertex?_ringEnd, List.count_append, ih, if_pos hsome]
      rfl

/-! ### Writing the rings again -/

/-- The rings of the hull, written again, give the hull, up to a mark at its end. -/
def Rewritten (h : Hull) : Prop :=
  if h.lastVertex?.isSome then ofRings h.rings = h else (ofRings h.rings).addBreak = h

theorem Rewritten.addBreak (hr : h.Rewritten) : h.addBreak.Rewritten := by
  rw [addBreak_eq]
  split
  next hq =>
    rw [Rewritten, if_pos hq] at hr
    have hbreak := addBreak_eq h
    rw [if_pos hq] at hbreak
    rw [Rewritten, lastVertex?_ringEnd, if_neg (by simp), rings_append_ringEnd, ← hbreak]
    exact congrArg Hull.addBreak hr
  · exact hr

theorem Rewritten.addVertex (hr : h.Rewritten) (p : Point) : (h.addVertex p).Rewritten := by
  by_cases hsame : h.lastVertex?.any (·.same p)
  · rwa [addVertex_eq, if_pos hsame]
  have hadd := addVertex_eq h p
  rw [if_neg hsame] at hadd
  rw [Rewritten, hadd, lastVertex?_vertex, if_pos (by rfl), ← hadd]
  cases hq : h.lastVertex? with
  | none =>
    rw [Rewritten, hq, if_neg (by simp)] at hr
    rw [hadd, rings_append_of_none hq, ofRings_concat, hr]
    exact hadd
  | some q =>
    obtain ⟨before, ring, hrings, happend⟩ := rings_append_of_some hq
    rw [Rewritten, hq, if_pos (by rfl), hrings, ofRings_concat] at hr
    rw [hadd, happend, ofRings_concat, addRing_concat, hr]
    exact hadd

/-- **What is appended is what the rings give when they are written again.** -/
theorem edited_rewritten (he : ∀ e ∈ edits, e.appends) : (edited edits).Rewritten := by
  induction edits using List.reverseRecOn with
  | nil => exact rfl
  | append_singleton edits e ih =>
    have hr := ih fun e hmem => he e (List.mem_append_left _ hmem)
    rw [edited_concat]
    cases e with
    | addVertex p => exact hr.addVertex p
    | addBreak => exact hr.addBreak
    | rotateZ angle => exact absurd (he (.rotateZ angle) (by simp)) Bool.false_ne_true

/-! ### What the entries stand for -/

/-- **What edits make of an empty hull.**  It does not start with a mark and has no two marks in a row.  Its
rings have vertices, they are the vertices of the hull one after the other, and their lengths add up to the
number of vertices; there is one for each mark, and one more if the hull ends with a vertex.  If no edit
turned the hull, vertices next to each other differ, and the rings written again with marks between them are
the hull, possibly but for one mark at its end.  As equality of vertices is numerical, this needs no
assumption on the coordinates: one that is no number is not equal to itself. -/
theorem edited_represents (edits : List Edit) :
    let h := edited edits
    h.points.head? ≠ some .ringEnd ∧ (¬ [.ringEnd, .ringEnd] <:+: h.points) ∧
    (∀ ring ∈ h.rings, ring ≠ []) ∧ h.rings.flatten = h.vertices ∧ h.ringLengths.sum = h.vertexCount ∧
    h.rings.length = h.points.count .ringEnd + (if h.lastVertex?.isSome then 1 else 0) ∧
    ((∀ e ∈ edits, e.appends) →
      (∀ p q, [.vertex p, .vertex q] <:+: h.points → p.same q = false) ∧
      (h = ofRings h.rings ∨ h.points = (ofRings h.rings).points ++ [.ringEnd])) := by
  intro h
  have hw : Written (fun _ _ => True) h := edited_written (fun _ _ _ => trivial) (.inr fun _ _ => trivial)
  refine ⟨fun hhead => ?_, fun hdouble => ?_, ringsAfter_ne_nil [] h.points, flatten_rings h,
    sum_ringLengths h, hw.length_rings, fun he => ⟨fun p q hpq => ?_, ?_⟩⟩
  · obtain ⟨ps, hps⟩ := List.head?_eq_some_iff.mp hhead
    rw [Written, hps] at hw
    exact (List.isChain_cons_cons.mp hw).1
  · exact hw.neighbours hdouble
  · have happart : Written (fun q p => q.same p = false) h := edited_written (fun _ _ => id) (.inl he)
    exact happart.neighbours hpq
  · have hr : h.Rewritten := edited_rewritten he
    unfold Rewritten at hr
    split at hr
    · exact .inl hr.symm
    · rw [addBreak_eq] at hr
      split at hr
      · exact .inr (congrArg Hull.points hr).symm
      · exact .inl hr.symm

/-- Marks at the front and in a row, and a vertex repeated within a ring and behind its end. -/
def repeats : List Edit :=
  [.addBreak, .addVertex (.flat 1 0), .addVertex (.flat 0 1), .addVertex (.flat 0 1), .addBreak, .addBreak,
    .addVertex (.flat 0 1), .addBreak]

/-- The repeat within the ring and the empty rings are gone, the vertex behind the end is not; the rings are
the hull but for the mark at its end. -/
theorem edited_represents_repeats : (∀ e ∈ repeats, e.appends) ∧
    (edited repeats).points =
      [.vertex (.flat 1 0), .vertex (.flat 0 1), .ringEnd, .vertex (.flat 0 1), .ringEnd] ∧
    (edited repeats).rings.length = 2 ∧
    (edited repeats).points = (ofRings (edited repeats).rings).points ++ [.ringEnd] := by
  have he : ∀ e ∈ repeats, e.appends := by decide
  have hpoints : (edited repeats).points =
      [.vertex (.flat 1 0), .vertex (.flat 0 1), .ringEnd, .vertex (.flat 0 1), .ringEnd] := by decide +kernel
  obtain ⟨-, -, -, -, -, hlength, happended⟩ := edited_represents repeats
  refine ⟨he, hpoints, ?_, (happended he).2.resolve_left (by decide +kernel)⟩
  rw [hlength, lastVertex?, hpoints]
  decide +kernel

end Hull

end Prims
