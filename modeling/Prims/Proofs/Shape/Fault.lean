import Prims.Shape.Kind

/-!
# Shape — Fault

What is wrong with a shape, said without looking for it.  A shape is refused for a sculpt entry without a
map, and otherwise for the first of its limited fields that is beyond its limit (`error?_eq_some_iff`); so a
shape is valid when it has a map wherever it has a sculpt entry and no field is beyond its limit
(`error?_eq_none_iff`).  A valid shape is of the kind of sculpted prims exactly when it is sculpted
(`kind_eq_sculpt_iff`).
-/

namespace Prims

/-- A field that has a limit. -/
structure LimitedField where
  field : String
  value : Nat
  limit : Nat

namespace LimitedField

def Beyond (l : LimitedField) : Prop := l.limit < l.value

instance (l : LimitedField) : Decidable l.Beyond := Nat.decLt _ _

/-- The error that names the field. -/
def error (l : LimitedField) : ShapeError := .outOfRange l.field l.value l.limit

end LimitedField

namespace Shape

variable {s : Shape} {e : ShapeError} {k : PrimKind}

/-- The fields with a limit: the cut ranges before the path scales. -/
def limitedFields (s : Shape) : List LimitedField :=
  [⟨"profile_begin", s.profileBegin.toNat, 50000⟩, ⟨"profile_end", s.profileEnd.toNat, 50000⟩,
    ⟨"path_begin", s.pathBegin.toNat, 50000⟩, ⟨"path_end", s.pathEnd.toNat, 50000⟩,
    ⟨"path_scale_x", s.pathScaleX.toNat, 200⟩, ⟨"path_scale_y", s.pathScaleY.toNat, 200⟩]

/-- The shape is to be sculpted, but without a map. -/
def LacksMap (s : Shape) : Prop := s.sculptEntry = true ∧ s.sculptData.isEmpty = true

/-- The first of the limited fields that is beyond its limit. -/
def FirstBeyond (s : Shape) (l : LimitedField) : Prop :=
  l.Beyond ∧ ∃ earlier later, s.limitedFields = earlier ++ l :: later ∧ ∀ k ∈ earlier, ¬ k.Beyond

/-- What a shape is refused for: the missing map before any field, and the first of the fields. -/
inductive Fault (s : Shape) : ShapeError → Prop where
  | map (h : s.LacksMap) : s.Fault .emptySculptData
  | field {l : LimitedField} (h : ¬ s.LacksMap) (hl : s.FirstBeyond l) : s.Fault l.error

/-- The two searches, for cuts and then for scales, as one. -/
theorem rangeError?_eq (s : Shape) : (s.cutError? <|> s.scaleError?) =
    (s.limitedFields.find? fun l => l.Beyond).map LimitedField.error := by
  have hfields : s.limitedFields =
      s.cuts.map (fun c => ⟨c.1, c.2.toNat, cutQuanta.toNat⟩) ++
        s.scales.map fun c => ⟨c.1, c.2.toNat, largestScale.toNat⟩ := rfl
  have hcuts : s.cutError? =
      ((s.cuts.map fun c => (⟨c.1, c.2.toNat, cutQuanta.toNat⟩ : LimitedField)).find?
        fun l => l.Beyond).map LimitedField.error := by
    rw [List.find?_map, Option.map_map]
    rfl
  have hscales : s.scaleError? =
      ((s.scales.map fun c => (⟨c.1, c.2.toNat, largestScale.toNat⟩ : LimitedField)).find?
        fun l => l.Beyond).map LimitedField.error := by
    rw [List.find?_map, Option.map_map]
    rfl
  rw [hfields, List.find?_append, Option.map_or, ← hcuts, ← hscales]
  cases s.cutError? <;> rfl

/-- **The error of a shape is its fault.** -/
theorem error?_eq_some_iff : s.error? = some e ↔ s.Fault e := by
  have hmap : (s.sculptEntry && s.sculptData.isEmpty) = true ↔ s.LacksMap := Bool.and_eq_true_iff
  unfold error?
  split
  next h =>
    have hlacks := hmap.mp h
    constructor
    · intro he
      cases he
      exact .map hlacks
    · rintro (_ | ⟨hnot, -⟩)
      · rfl
      · exact absurd hlacks hnot
  next h =>
    have hlacks := fun hl => h (hmap.mpr hl)
    rw [rangeError?_eq, Option.map_eq_some_iff]
    constructor
    · rintro ⟨l, hl, rfl⟩
      obtain ⟨hbeyond, earlier, later, hsplit, hearlier⟩ := List.find?_eq_some_iff_append.mp hl
      exact .field hlacks ⟨of_decide_eq_true hbeyond, earlier, later, hsplit,
        fun k hk => by simpa using hearlier k hk⟩
    · rintro (hl | ⟨-, hbeyond, earlier, later, hsplit, hearlier⟩)
      · exact absurd hl hlacks
      · exact ⟨_, List.find?_eq_some_iff_append.mpr ⟨decide_eq_true hbeyond, earlier, later, hsplit,
          fun k hk => by simpa using hearlier k hk⟩, rfl⟩

/-- **A shape is valid** when it has a map wherever it is to be sculpted and no field is beyond its limit. -/
theorem error?_eq_none_iff : s.error? = none ↔ ¬ s.LacksMap ∧ ∀ l ∈ s.limitedFields, ¬ l.Beyond := by
  have hmap : (s.sculptEntry && s.sculptData.isEmpty) = true ↔ s.LacksMap := Bool.and_eq_true_iff
  unfold error?
  split
  next h => simp [hmap.mp h]
  next h =>
    rw [rangeError?_eq, Option.map_eq_none_iff, List.find?_eq_none, and_iff_right fun hl => h (hmap.mpr hl)]
    simp

theorem kind_eq_error_iff : s.kind = .error e ↔ s.error? = some e := by
  unfold kind
  split
  next h => rw [h, Except.error.injEq, Option.some.injEq]
  next h => simp [h]

theorem kind_eq_ok_iff : s.kind = .ok k ↔ s.error? = none ∧ s.ownKind?.getD .box = k := by
  unfold kind
  split
  next h => simp [h]
  next h => simp [h]

/-- No profile and path make a sculpted prim. -/
theorem kindOf?_ne_sculpt (scale : Float32) (profile : Option ProfileShape) (path : Option PathCurve) :
    kindOf? scale profile path ≠ some .sculpt := by
  unfold kindOf?
  split
  case h_4 => split <;> simp
  all_goals simp

/-- **Sculpted prims** are those of the valid shapes that are sculpted. -/
theorem kind_eq_sculpt_iff (h : s.error? = none) : s.kind = .ok .sculpt ↔ s.isSculpted = true := by
  rw [kind_eq_ok_iff, ownKind?]
  split
  next hs => simp [h, hs]
  next hs =>
    refine iff_of_false (fun ⟨_, hk⟩ => ?_) hs
    cases hown : kindOf? (Quanta.unpackedScale s.pathScaleY) s.profile? s.path? with
    | none =>
      rw [hown] at hk
      cases hk
    | some k =>
      rw [hown] at hk
      exact kindOf?_ne_sculpt _ _ _ (hown.trans (congrArg some hk))

end Shape

end Prims
