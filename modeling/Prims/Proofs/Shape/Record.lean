import Mathlib.Data.List.Nodup
import Mathlib.Data.Set.List
import Prims.Shape.Kind
import Prims.Shape.Record

/-!
# Shape — Record

A shape is what its record says.  Each field type has one way to write a value, and reading accepts nothing
else (`uint8?_eq_some_iff` and its siblings, `bytes?_eq_some_iff`).  So a list of values gives a shape when
it is the list of that shape's values (`ofValues?_eq_some_iff`), and an object gives a shape when it has each
of its fields with the value of that shape, wherever they stand and whatever else is there
(`ofJson?_object_iff`); it gives some shape when it has every field with a value of the field's type
(`exists_ofJson?_object_iff`).
-/

namespace Prims

namespace Json

/-! ### Values of the field types -/

variable {j : Json} {low high n : Int}

theorem integerIn?_eq_some_iff :
    j.integerIn? low high = some n ↔ j = .integer n ∧ low ≤ n ∧ n ≤ high := by
  cases j with
  | integer m =>
    rw [integerIn?, Option.ite_none_right_eq_some, Option.some.injEq, integer.injEq]
    constructor
    · rintro ⟨h, rfl⟩
      exact ⟨rfl, h⟩
    · rintro ⟨rfl, h⟩
      exact ⟨h, rfl⟩
  | null | bool b | decimal mantissa places | string s | array items | object fields =>
    exact iff_of_false nofun fun h => nomatch h.1

/-- An integer type that is read from its range: each number of the range is the value of one element. -/
theorem integerIn?_map_eq_some_iff {α : Type} (value : α → Int) {make : Int → α}
    (hvalue : ∀ a, low ≤ value a ∧ value a ≤ high) (hmake : ∀ a, make (value a) = a)
    (hback : ∀ n, low ≤ n → n ≤ high → value (make n) = n) {a : α} :
    (j.integerIn? low high).map make = some a ↔ j = .integer (value a) := by
  rw [Option.map_eq_some_iff]
  constructor
  · rintro ⟨n, hn, rfl⟩
    obtain ⟨rfl, hlow, hhigh⟩ := integerIn?_eq_some_iff.mp hn
    rw [hback n hlow hhigh]
  · rintro rfl
    exact ⟨_, integerIn?_eq_some_iff.mpr ⟨rfl, hvalue a⟩, hmake a⟩

theorem uint8?_eq_some_iff {a : UInt8} : j.uint8? = some a ↔ j = ofUInt8 a := by
  refine integerIn?_map_eq_some_iff (fun a : UInt8 => a.toNat) (fun a => ?_) (fun a => ?_) fun n hlow hhigh => ?_
  · have := a.toNat_lt
    omega
  · rw [Int.toNat_natCast, UInt8.ofNat_toNat]
  · rw [UInt8.toNat_ofNat_of_lt' (by show n.toNat < 256; omega), Int.toNat_of_nonneg hlow]

theorem uint16?_eq_some_iff {a : UInt16} : j.uint16? = some a ↔ j = ofUInt16 a := by
  refine integerIn?_map_eq_some_iff (fun a : UInt16 => a.toNat) (fun a => ?_) (fun a => ?_) fun n hlow hhigh => ?_
  · have := a.toNat_lt
    omega
  · rw [Int.toNat_natCast, UInt16.ofNat_toNat]
  · rw [UInt16.toNat_ofNat_of_lt' (by show n.toNat < 65536; omega), Int.toNat_of_nonneg hlow]

theorem int8?_eq_some_iff {a : Int8} : j.int8? = some a ↔ j = ofInt8 a := by
  refine integerIn?_map_eq_some_iff Int8.toInt (fun a => ?_) Int8.ofInt_toInt fun n hlow hhigh => ?_
  · have := a.le_toInt
    have := a.toInt_lt
    omega
  · exact Int8.toInt_ofInt_of_le hlow (by omega)

theorem int16?_eq_some_iff {a : Int16} : j.int16? = some a ↔ j = ofInt16 a := by
  refine integerIn?_map_eq_some_iff Int16.toInt (fun a => ?_) Int16.ofInt_toInt fun n hlow hhigh => ?_
  · have := a.le_toInt
    have := a.toInt_lt
    omega
  · exact Int16.toInt_ofInt_of_le hlow (by omega)

theorem bool?_eq_some_iff {b : Bool} : j.bool? = some b ↔ j = .bool b := by
  cases j with
  | bool a => rw [bool?, Option.some.injEq, bool.injEq]
  | null | integer n | decimal mantissa places | string s | array items | object fields =>
    exact iff_of_false nofun nofun

theorem items?_eq_some_iff {l : List Json} : j.items? = some l ↔ j = .array l := by
  cases j with
  | array items => rw [items?, Option.some.injEq, array.injEq]
  | null | bool b | integer n | decimal mantissa places | string s | object fields =>
    exact iff_of_false nofun nofun

/-- A look at every element of a list finds what each look finds. -/
theorem mapM_eq_some_iff {α β : Type} {f : α → Option β} {l : List α} {r : List β} :
    l.mapM f = some r ↔ l.map f = r.map some := by
  induction l generalizing r with
  | nil => cases r <;> simp
  | cons a l ih =>
    rw [List.mapM_cons, List.map_cons]
    cases r with
    | nil => cases f a <;> cases l.mapM f <;> simp
    | cons b r =>
      rw [List.map_cons, List.cons.injEq, ← ih]
      cases f a <;> cases l.mapM f <;> simp

theorem bytes?_eq_some_iff {b : ByteArray} : j.bytes? = some b ↔ j = ofBytes b := by
  have hbytes (l : List Json) (bs : List UInt8) : l.mapM uint8? = some bs ↔ l = bs.map ofUInt8 := by
    rw [mapM_eq_some_iff]
    induction l generalizing bs with
    | nil => cases bs <;> simp
    | cons a l ih => cases bs <;> simp [ih, uint8?_eq_some_iff]
  unfold bytes? ofBytes
  simp only [Option.bind_eq_bind, Option.bind_eq_some_iff, Option.pure_def, Option.some.injEq,
    items?_eq_some_iff, hbytes]
  constructor
  · rintro ⟨-, rfl, bs, rfl, rfl⟩
    rfl
  · rintro rfl
    exact ⟨_, rfl, _, rfl, rfl⟩

end Json

namespace Shape

open Json

variable {s : Shape}

/-! ### Both layouts -/

/-- **A list gives a shape** when it is the list of the shape's values. -/
theorem ofValues?_eq_some_iff {values : List Json} : ofValues? values = some s ↔ values = s.toValues := by
  constructor
  · intro h
    unfold ofValues? at h
    split at h
    next =>
      -- every value was read, so it is the one written for what was read
      iterate 21
        replace h := Option.bind_eq_some_iff.mp h
        obtain ⟨_, _, h⟩ := h
      simp only [uint8?_eq_some_iff, uint16?_eq_some_iff, int8?_eq_some_iff, int16?_eq_some_iff,
        bool?_eq_some_iff, bytes?_eq_some_iff] at *
      subst_vars
      cases h
      rfl
    next => cases h
  · rintro rfl
    simp only [ofValues?, toValues, uint8?_eq_some_iff.mpr rfl, uint16?_eq_some_iff.mpr rfl,
      int8?_eq_some_iff.mpr rfl, int16?_eq_some_iff.mpr rfl, bool?_eq_some_iff.mpr rfl,
      bytes?_eq_some_iff.mpr rfl]
    rfl

/-- A shape's fields, each with its name and its value. -/
def record (s : Shape) : List (String × Json) :=
  [("profile_curve", ofUInt8 s.profileCurve), ("profile_begin", ofUInt16 s.profileBegin),
    ("profile_end", ofUInt16 s.profileEnd), ("profile_hollow", ofUInt16 s.profileHollow),
    ("path_curve", ofUInt8 s.pathCurve), ("path_begin", ofUInt16 s.pathBegin),
    ("path_end", ofUInt16 s.pathEnd), ("path_scale_x", ofUInt8 s.pathScaleX),
    ("path_scale_y", ofUInt8 s.pathScaleY), ("path_shear_x", ofUInt8 s.pathShearX),
    ("path_shear_y", ofUInt8 s.pathShearY), ("path_twist", ofInt16 s.pathTwist),
    ("path_twist_begin", ofInt16 s.pathTwistBegin), ("path_radius_offset", ofInt8 s.pathRadiusOffset),
    ("path_taper_x", ofInt8 s.pathTaperX), ("path_taper_y", ofInt8 s.pathTaperY),
    ("path_revolutions", ofUInt8 s.pathRevolutions), ("path_skew", ofInt8 s.pathSkew),
    ("sculpt_entry", .bool s.sculptEntry), ("sculpt_type", ofUInt8 s.sculptType),
    ("sculpt_data", ofBytes s.sculptData)]

theorem record_names (s : Shape) : s.record.map Prod.fst = fieldNames := rfl

theorem record_values (s : Shape) : s.record.map Prod.snd = s.toValues := rfl

theorem toJson_eq (s : Shape) : s.toJson = .object s.record := rfl

/-- **An object gives a shape** when it has every field, with the shape's value. -/
theorem ofJson?_object_iff {fields : List (String × Json)} :
    ofJson? (.object fields) = some s ↔ ∀ f ∈ s.record, field? f.1 fields = some f.2 := by
  have hread : ofJson? (.object fields) = some s ↔
      fieldNames.mapM (fun name => field? name fields) = some s.toValues := by
    rw [ofJson?, Option.bind_eq_bind, Option.bind_eq_some_iff]
    simp only [ofValues?_eq_some_iff, exists_eq_right]
  rw [hread, mapM_eq_some_iff, ← record_names s, ← record_values, List.map_map, List.map_map,
    List.map_inj_left]
  rfl

theorem ofJson?_array_iff {values : List Json} : ofJson? (.array values) = some s ↔ values = s.toValues :=
  ofValues?_eq_some_iff

/-! ### Objects that have the fields of a shape -/

/-- A field has a value when its name comes once among the keys, and the value is the one that stands there. -/
theorem field?_eq_some_iff {name : String} {j : Json} {fields : List (String × Json)} :
    field? name fields = some j ↔ (fields.map Prod.fst).count name = 1 ∧ (name, j) ∈ fields := by
  have hcount : (fields.map Prod.fst).count name = (fields.filter fun f => f.1 == name).length := by
    rw [List.count, List.countP_map, List.countP_eq_length_filter]
    rfl
  have hmem : (name, j) ∈ fields ↔ (name, j) ∈ fields.filter fun f => f.1 == name := by
    rw [List.mem_filter, beq_self_eq_true, and_iff_left rfl]
  have hname : ∀ f ∈ fields.filter fun f => f.1 == name, f.1 = name := fun f hf =>
    beq_iff_eq.mp (List.mem_filter.mp hf).2
  rw [hcount, hmem, field?]
  generalize fields.filter (fun f => f.1 == name) = given at hname ⊢
  match given with
  | [] => simp
  | [f] => simp [Prod.ext_iff, hname f List.mem_cons_self, eq_comm]
  | _ :: _ :: _ => simp

/-- A field has a value of some kind when its name comes once, and all that stands there is of the kind. -/
theorem exists_field?_iff {name : String} {p : Json → Prop} {fields : List (String × Json)} :
    (∃ j, field? name fields = some j ∧ p j) ↔
      (fields.map Prod.fst).count name = 1 ∧ ∀ j, (name, j) ∈ fields → p j := by
  constructor
  · rintro ⟨j, hj, hp⟩
    have hone := (field?_eq_some_iff.mp hj).1
    refine ⟨hone, fun k hk => ?_⟩
    have hkj : some k = some j := (field?_eq_some_iff.mpr ⟨hone, hk⟩).symm.trans hj
    rwa [Option.some.inj hkj]
  · rintro ⟨hone, hp⟩
    have hname : name ∈ fields.map Prod.fst := List.count_pos_iff.mp (by omega)
    obtain ⟨⟨_, j⟩, hj, rfl⟩ := List.mem_map.mp hname
    exact ⟨j, field?_eq_some_iff.mpr ⟨hone, hj⟩, hp j hj⟩

/-- **The order of fields and unknown fields do not matter.** -/
theorem ofJson?_of_perm {fields others : List (String × Json)} (hothers : ∀ f ∈ others, f.1 ∉ fieldNames)
    (h : fields.Perm (s.record ++ others)) : ofJson? (.object fields) = some s := by
  refine ofJson?_object_iff.mpr fun f hf => field?_eq_some_iff.mpr ⟨?_, ?_⟩
  · have hname : f.1 ∈ fieldNames := by
      rw [← record_names s]
      exact List.mem_map_of_mem hf
    have hnone : f.1 ∉ others.map Prod.fst := fun hmem => by
      obtain ⟨o, ho, heq⟩ := List.mem_map.mp hmem
      exact hothers o ho (heq ▸ hname)
    -- the name comes once in the record, whose names differ, and not elsewhere
    rw [(h.map Prod.fst).count_eq, List.map_append, List.count_append, record_names,
      List.count_eq_one_of_mem (by decide) hname, List.count_eq_zero.mpr hnone]
  · exact h.mem_iff.mpr (List.mem_append_left _ hf)

end Shape

/-! ### Objects that are read -/

/-- What the value of a field may be. -/
inductive FieldType where
  | integer (low high : Int)
  | boolean
  | bytes
deriving DecidableEq

/-- The values of a type: of an integer type the integers of its range, and of the bytes a list of such. -/
def FieldType.Admits : FieldType → Json → Prop
  | integer low high, j => ∃ n, j = .integer n ∧ low ≤ n ∧ n ≤ high
  | boolean,          j => ∃ b, j = .bool b
  | bytes,            j => ∃ items, j = .array items ∧
    ∀ i ∈ items, ∃ n, i = .integer n ∧ 0 ≤ n ∧ n ≤ 255

namespace Shape

open Json FieldType

/-- The fields of a shape and their types. -/
def fieldTypes : List (String × FieldType) :=
  [("profile_curve", integer 0 255), ("profile_begin", integer 0 65535), ("profile_end", integer 0 65535),
    ("profile_hollow", integer 0 65535), ("path_curve", integer 0 255), ("path_begin", integer 0 65535),
    ("path_end", integer 0 65535), ("path_scale_x", integer 0 255), ("path_scale_y", integer 0 255),
    ("path_shear_x", integer 0 255), ("path_shear_y", integer 0 255),
    ("path_twist", integer (-32768) 32767), ("path_twist_begin", integer (-32768) 32767),
    ("path_radius_offset", integer (-128) 127), ("path_taper_x", integer (-128) 127),
    ("path_taper_y", integer (-128) 127), ("path_revolutions", integer 0 255),
    ("path_skew", integer (-128) 127), ("sculpt_entry", boolean), ("sculpt_type", integer 0 255),
    ("sculpt_data", bytes)]

theorem admits_integer_iff {low high : Int} {j : Json} :
    (integer low high).Admits j ↔ (j.integerIn? low high).isSome := by
  simp only [Option.isSome_iff_exists, integerIn?_eq_some_iff, Admits]

theorem admits_uint8_iff {j : Json} : (integer 0 255).Admits j ↔ ∃ a, j = ofUInt8 a := by
  simp only [admits_integer_iff, ← uint8?_eq_some_iff, ← Option.isSome_iff_exists, uint8?, Option.isSome_map]

theorem admits_uint16_iff {j : Json} : (integer 0 65535).Admits j ↔ ∃ a, j = ofUInt16 a := by
  simp only [admits_integer_iff, ← uint16?_eq_some_iff, ← Option.isSome_iff_exists, uint16?, Option.isSome_map]

theorem admits_int8_iff {j : Json} : (integer (-128) 127).Admits j ↔ ∃ a, j = ofInt8 a := by
  simp only [admits_integer_iff, ← int8?_eq_some_iff, ← Option.isSome_iff_exists, int8?, Option.isSome_map]

theorem admits_int16_iff {j : Json} : (integer (-32768) 32767).Admits j ↔ ∃ a, j = ofInt16 a := by
  simp only [admits_integer_iff, ← int16?_eq_some_iff, ← Option.isSome_iff_exists, int16?, Option.isSome_map]

theorem admits_bytes_iff {j : Json} : bytes.Admits j ↔ ∃ b, j = ofBytes b := by
  constructor
  · rintro ⟨items, rfl, hitems⟩
    have hmem : items ∈ Set.range (List.map ofUInt8) := by
      rw [Set.range_list_map]
      exact fun i hi => (admits_uint8_iff.mp (hitems i hi)).imp fun _ => Eq.symm
    obtain ⟨bs, rfl⟩ := hmem
    exact ⟨⟨bs.toArray⟩, rfl⟩
  · rintro ⟨b, rfl⟩
    refine ⟨_, rfl, fun i hi => ?_⟩
    obtain ⟨a, -, rfl⟩ := List.mem_map.mp hi
    exact admits_uint8_iff.mpr ⟨a, rfl⟩

/-- **An object gives some shape** when each field comes once in it, with a value of the field's type. -/
theorem exists_ofJson?_object_iff {fields : List (String × Json)} :
    (∃ s, ofJson? (.object fields) = some s) ↔
      ∀ f ∈ fieldTypes, (fields.map Prod.fst).count f.1 = 1 ∧ ∀ j, (f.1, j) ∈ fields → f.2.Admits j := by
  have hvalue {α : Type} (name : String) (write : α → Json) :
      (∃ j, field? name fields = some j ∧ ∃ a, j = write a) ↔ ∃ a, field? name fields = some (write a) := by
    constructor
    · rintro ⟨_, h, a, rfl⟩
      exact ⟨a, h⟩
    · rintro ⟨a, h⟩
      exact ⟨_, h, a, rfl⟩
  have hboolean {j : Json} : boolean.Admits j ↔ ∃ b, j = .bool b := Iff.rfl
  simp only [← exists_field?_iff, ofJson?_object_iff, record, fieldTypes, List.forall_mem_cons,
    List.not_mem_nil, false_imp_iff, implies_true, and_true, admits_uint8_iff, admits_uint16_iff,
    admits_int8_iff, admits_int16_iff, hboolean, admits_bytes_iff, hvalue]
  constructor
  · rintro ⟨s, h₁, h₂, h₃, h₄, h₅, h₆, h₇, h₈, h₉, h₁₀, h₁₁, h₁₂, h₁₃, h₁₄, h₁₅, h₁₆, h₁₇, h₁₈, h₁₉, h₂₀, h₂₁⟩
    exact ⟨⟨_, h₁⟩, ⟨_, h₂⟩, ⟨_, h₃⟩, ⟨_, h₄⟩, ⟨_, h₅⟩, ⟨_, h₆⟩, ⟨_, h₇⟩, ⟨_, h₈⟩, ⟨_, h₉⟩, ⟨_, h₁₀⟩,
      ⟨_, h₁₁⟩, ⟨_, h₁₂⟩, ⟨_, h₁₃⟩, ⟨_, h₁₄⟩, ⟨_, h₁₅⟩, ⟨_, h₁₆⟩, ⟨_, h₁₇⟩, ⟨_, h₁₈⟩, ⟨_, h₁₉⟩, ⟨_, h₂₀⟩,
      ⟨_, h₂₁⟩⟩
  · rintro ⟨⟨_, h₁⟩, ⟨_, h₂⟩, ⟨_, h₃⟩, ⟨_, h₄⟩, ⟨_, h₅⟩, ⟨_, h₆⟩, ⟨_, h₇⟩, ⟨_, h₈⟩, ⟨_, h₉⟩, ⟨_, h₁₀⟩,
      ⟨_, h₁₁⟩, ⟨_, h₁₂⟩, ⟨_, h₁₃⟩, ⟨_, h₁₄⟩, ⟨_, h₁₅⟩, ⟨_, h₁₆⟩, ⟨_, h₁₇⟩, ⟨_, h₁₈⟩, ⟨_, h₁₉⟩, ⟨_, h₂₀⟩,
      ⟨_, h₂₁⟩⟩
    exact ⟨⟨_, _, _, _, _, _, _, _, _, _, _, _, _, _, _, _, _, _, _, _, _⟩, h₁, h₂, h₃, h₄, h₅, h₆, h₇, h₈,
      h₉, h₁₀, h₁₁, h₁₂, h₁₃, h₁₄, h₁₅, h₁₆, h₁₇, h₁₈, h₁₉, h₂₀, h₂₁⟩

/-- An object is refused when a field is missing, is given twice or has a value that is none of its type. -/
theorem ofJson?_object_eq_none_iff {fields : List (String × Json)} :
    ofJson? (.object fields) = none ↔
      ∃ f ∈ fieldTypes, (fields.map Prod.fst).count f.1 ≠ 1 ∨ ∃ j, (f.1, j) ∈ fields ∧ ¬ f.2.Admits j := by
  rw [← Option.not_isSome_iff_eq_none, Option.isSome_iff_exists, exists_ofJson?_object_iff]
  simp only [not_forall, not_and_or, exists_prop]

/-- **Shapes survive being written and read.**  A shape is read from its own object, from that object with
its fields in any order and with unknown fields among them, and from the list of its values and no other
list; and it is valid, and of a kind, as before.  An object is refused exactly when it lacks one of the
fields, gives one more than once or gives one a value outside its type: for an integer field what is no
integer or not in the range. -/
theorem ofJson?_roundTrip (s : Shape) :
    ofJson? s.toJson = some s ∧
    (∀ fields others : List (String × Json), (∀ f ∈ others, f.1 ∉ fieldNames) →
      fields.Perm (s.record ++ others) → ofJson? (.object fields) = some s) ∧
    (∀ values, ofJson? (.array values) = some s ↔ values = s.toValues) ∧
    (∀ fields, ofJson? (.object fields) = none ↔
      ∃ f ∈ fieldTypes, (fields.map Prod.fst).count f.1 ≠ 1 ∨
        ∃ j, (f.1, j) ∈ fields ∧ ¬ f.2.Admits j) ∧
    (ofJson? s.toJson).map error? = some s.error? ∧ (ofJson? s.toJson).map kind = some s.kind := by
  have hself : ofJson? s.toJson = some s := by
    rw [toJson_eq]
    have hnone : ∀ f ∈ ([] : List (String × Json)), f.1 ∉ fieldNames := nofun
    exact ofJson?_of_perm hnone (.of_eq (List.append_nil _).symm)
  refine ⟨hself, fun _ _ => ofJson?_of_perm, fun _ => ofJson?_array_iff,
    fun _ => ofJson?_object_eq_none_iff, ?_, ?_⟩
  · rw [hself, Option.map_some]
  · rw [hself, Option.map_some]

/-- A torus with negative numbers and some bytes. -/
def twistedTorus : Shape := { torus with pathTwist := -180, pathSkew := -50, sculptData := ⟨#[255, 0]⟩ }

/-- Its fields with another value in one of them. -/
def twistedTorus.recordWith (name : String) (j : Json) : List (String × Json) :=
  twistedTorus.record.map fun f => if f.1 = name then (name, j) else f

/-- Its fields backwards behind an unknown one that comes twice are read.  Without the skew they are refused,
and so they are with a radius offset of 128 in place of theirs, and with a radius offset given again. -/
theorem ofJson?_roundTrip_torus :
    ofJson? (.object (("unit", .null) :: ("unit", .bool true) :: twistedTorus.record.reverse)) =
      some twistedTorus ∧
    ofJson? (.object (twistedTorus.record.filter fun f => f.1 ≠ "path_skew")) = none ∧
    ofJson? (.object (twistedTorus.recordWith "path_radius_offset" (.integer 128))) = none ∧
    ofJson? (.object (("path_radius_offset", .integer 0) :: twistedTorus.record)) = none := by
  obtain ⟨-, hperm, -, hrefused, -⟩ := ofJson?_roundTrip twistedTorus
  refine ⟨hperm _ [("unit", .null), ("unit", .bool true)] (by decide) ?_,
    (hrefused _).mpr ?_, (hrefused _).mpr ?_, (hrefused _).mpr ?_⟩
  · exact (@List.perm_append_comm _ [_, _] _).trans ((List.reverse_perm _).append_right _)
  · exact ⟨("path_skew", integer (-128) 127), by decide, .inl (by decide)⟩
  · refine ⟨("path_radius_offset", integer (-128) 127), by decide, .inr ⟨.integer 128, ?_, ?_⟩⟩
    · refine List.mem_map.mpr ⟨("path_radius_offset", ofInt8 twistedTorus.pathRadiusOffset), ?_, rfl⟩
      simp [record]
    · rintro ⟨n, hn, -, hle⟩
      obtain rfl := integer.inj hn
      omega
  · exact ⟨("path_radius_offset", integer (-128) 127), by decide, .inl (by decide)⟩

end Shape

end Prims
