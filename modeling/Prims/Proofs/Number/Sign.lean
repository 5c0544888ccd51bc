import Prims.Proofs.Number.Whole

/-!
# Number — Sign

The signs of machine numbers.  Negation goes through rounding and through words (`settle_neg`), so swapping
the operands of a difference negates it, up to the sign of a zero (`sub_swap`), and its square stays the same
number (`sub_mul_self_comm`).  The sign of a product is that of the signs, also where it overflows or becomes
zero (`mul_sign?`), and a product is negative when it is not zero and has the negative sign (`lt_zero_iff`).
-/

namespace Prims

open Float.Model Float.Model.UnpackedFloat

variable {spec : Format} {p q : UnpackedFloat} {s t : Sign} {m : ℕ} {e : ℤ}

/-! ### Negation -/

theorem neg_neg_sign (s : Sign) : - -s = s := by
  cases s <;> rfl

theorem roundWithAccuracy_neg (spec : Format) (s : Sign) (m : ℕ) (e : ℤ) (a : Accuracy) :
    roundWithAccuracy spec (-s) m e a = (roundWithAccuracy spec s m e a).neg := by
  unfold roundWithAccuracy
  dsimp only
  split
  · rfl
  · rfl

theorem round_neg (spec : Format) (s : Sign) (m : ℕ) (e : ℤ) :
    UnpackedFloat.round spec (-s) m e = (UnpackedFloat.round spec s m e).neg :=
  roundWithAccuracy_neg spec s _ _ _

/-- The floats differ in their sign at most. -/
def SameSize (p q : UnpackedFloat) : Prop := q = p ∨ q = p.neg

theorem normalize_neg (spec : Format) (j e : ℤ) : SameSize (UnpackedFloat.normalize spec j e .positive)
    (UnpackedFloat.normalize spec (-j) e .positive) := by
  unfold UnpackedFloat.normalize
  rcases lt_trichotomy j 0 with h | rfl | h
  · rw [compare_lt_iff_lt.mpr h, compare_gt_iff_gt.mpr (by omega : 0 < -j)]
    exact .inr (round_neg spec .negative _ e)
  · exact .inl rfl
  · rw [compare_gt_iff_gt.mpr h, compare_lt_iff_lt.mpr (by omega : -j < 0), neg_neg]
    exact .inr (round_neg spec .positive _ e)

/-- **Swapping the operands** of a difference negates it, up to the sign of a zero. -/
theorem sub_swap (spec : Format) (p q : UnpackedFloat) :
    SameSize (UnpackedFloat.sub spec p q) (UnpackedFloat.sub spec q p) := by
  cases p with
  | notANumber => cases q <;> exact .inl rfl
  | infinity s =>
    cases q with
    | notANumber => exact .inl rfl
    | zero t | finite t n f hn => exact .inr rfl
    | infinity t => cases s <;> cases t <;> first | exact .inl rfl | exact .inr rfl
  | zero s =>
    cases q with
    | notANumber => exact .inl rfl
    | infinity t => exact .inr (congrArg infinity (neg_neg_sign t).symm)
    | zero t => cases s <;> cases t <;> first | exact .inl rfl | exact .inr rfl
    | finite t n f hn => exact .inr (congrArg (finite · n f hn) (neg_neg_sign t).symm)
  | finite s m e hm =>
    cases q with
    | notANumber => exact .inl rfl
    | infinity t => exact .inr (congrArg infinity (neg_neg_sign t).symm)
    | zero t => exact .inr rfl
    | finite t n f hn =>
      have hswap := normalize_neg spec (s.apply (decreaseExponent m e (min e f)).1 -
        t.apply (decreaseExponent n f (min e f)).1) (min e f)
      rw [neg_sub, show (min e f : ℤ) = min f e from min_comm e f] at hswap
      show SameSize (UnpackedFloat.normalize spec (s.apply (decreaseExponent m e (min e f)).1 -
        t.apply (decreaseExponent n f (min e f)).1) (min e f) .positive) _
      rw [min_comm e f]
      exact hswap

theorem unpack_packComponents_neg (s : Sign) (E : BitVec spec.exponentBits)
    (f : BitVec spec.mantissaBitsWithoutImplicit) :
    unpack spec (packComponents spec (-s) E f) = (unpack spec (packComponents spec s E f)).neg := by
  unfold UnpackedFloat.unpack
  simp only [unpackMantissa_packComponents, unpackExponent_packComponents, unpackSign_packComponents,
    Sign.ofBitVec_toBitVec]
  split
  · split <;> rfl
  · split
    · split <;> rfl
    · rfl

/-- **A word keeps what differs in its sign.** -/
theorem settle_neg (spec : Format) (p : UnpackedFloat) : settle spec p.neg = (settle spec p).neg := by
  unfold settle
  cases p with
  | notANumber =>
    rw [show unpack spec (pack spec .notANumber) = .notANumber from unpack_pack (x := .notANumber) trivial]
    exact unpack_pack (x := .notANumber) trivial
  | infinity s => exact unpack_packComponents_neg s _ _
  | zero s => exact unpack_packComponents_neg s _ _
  | finite s m e hm =>
    show unpack spec (pack spec (.finite (-s) m e hm)) = _
    unfold UnpackedFloat.pack
    dsimp only
    split
    · exact unpack_packComponents_neg s _ _
    · split
      · exact unpack_packComponents_neg s _ _
      · exact unpack_packComponents_neg s _ _

theorem SameSize.settle (h : SameSize p q) : SameSize (settle spec p) (settle spec q) := by
  rcases h with rfl | rfl
  · exact .inl rfl
  · exact .inr (settle_neg spec p)

theorem neg_mul_neg_sign (s t : Sign) : -s * -t = s * t := by
  cases s <;> cases t <;> rfl

/-- The square does not see the sign. -/
theorem SameSize.mul_self (h : SameSize p q) : UnpackedFloat.mul spec q q = UnpackedFloat.mul spec p p := by
  rcases h with rfl | rfl
  · rfl
  · cases p with
    | notANumber => rfl
    | infinity s => exact congrArg infinity (neg_mul_neg_sign s s)
    | zero s => exact congrArg zero (neg_mul_neg_sign s s)
    | finite s m e hm => exact congrArg (roundWithAccuracy spec · _ _ .exact) (neg_mul_neg_sign s s)

theorem mul_comm_sign (s t : Sign) : s * t = t * s := by
  cases s <;> cases t <;> rfl

theorem mul_swap (spec : Format) (p q : UnpackedFloat) :
    UnpackedFloat.mul spec p q = UnpackedFloat.mul spec q p := by
  cases p with
  | notANumber => cases q <;> rfl
  | infinity s =>
    cases q with
    | notANumber | zero t => rfl
    | infinity t | finite t n f hn => exact congrArg infinity (mul_comm_sign s t)
  | zero s =>
    cases q with
    | notANumber | infinity t => rfl
    | zero t | finite t n f hn => exact congrArg zero (mul_comm_sign s t)
  | finite s m e hm =>
    cases q with
    | notANumber => rfl
    | infinity t => exact congrArg infinity (mul_comm_sign s t)
    | zero t => exact congrArg zero (mul_comm_sign s t)
    | finite t n f hn =>
      show roundWithAccuracy spec (s * t) (m * n) (e + f) .exact =
        roundWithAccuracy spec (t * s) (n * m) (f + e) .exact
      rw [mul_comm_sign, Nat.mul_comm, Int.add_comm]

/-! ### Signs of products -/

/-- The sign of a float; what is no number has none. -/
def sign? : UnpackedFloat → Option Sign
  | .finite s _ _ _ => some s
  | .zero s         => some s
  | .infinity s     => some s
  | .notANumber     => none

theorem roundWithAccuracy_sign? (spec : Format) (s : Sign) (m : ℕ) (e : ℤ) (a : Accuracy) :
    sign? (roundWithAccuracy spec s m e a) = some s := by
  unfold roundWithAccuracy
  dsimp only
  split
  · rfl
  · rfl

theorem unpack_packComponents_sign? {E : BitVec spec.exponentBits} (hE : E ≠ -1#_) (s : Sign)
    (f : BitVec spec.mantissaBitsWithoutImplicit) :
    sign? (unpack spec (packComponents spec s E f)) = some s := by
  unfold UnpackedFloat.unpack
  simp only [unpackMantissa_packComponents, unpackExponent_packComponents, unpackSign_packComponents,
    Sign.ofBitVec_toBitVec, if_neg hE]
  split
  · split
    · rfl
    · rfl
  · rfl

/-- **A word keeps the sign**, also of a float that is beyond the format. -/
theorem settle_sign? (spec : Format) (p : UnpackedFloat) : sign? (settle spec p) = sign? p := by
  unfold settle
  cases p with
  | notANumber => rw [unpack_pack (x := .notANumber) trivial]
  | infinity s => rw [unpack_pack (x := .infinity s) trivial]
  | zero s => rw [unpack_pack (x := .zero s) trivial]
  | finite s m e hm =>
    unfold UnpackedFloat.pack
    dsimp only
    split
    next hlarge =>
      rw [unpack_packedInfinity]
      rfl
    next hlarge =>
      have hones (k : ℕ) (hk : k + 1 < 2 ^ spec.exponentBits) : BitVec.ofNat spec.exponentBits k ≠ -1#_ := by
        intro hE
        have hE := congrArg BitVec.toNat hE
        rw [toNat_neg_one, BitVec.toNat_ofNat, Nat.mod_eq_of_lt (by omega)] at hE
        omega
      split
      · exact unpack_packComponents_sign? (hones _ (not_le.mp hlarge)) s _
      · exact unpack_packComponents_sign? (hones 0 (by omega)) s _

namespace Machine

variable {F : Type} [Machine F] {x y z : F}

theorem mul_comm (x y : F) : x * y = y * x := by
  refine injective ?_
  rw [parts_mul, parts_mul, mul_swap]

theorem sub_mul_self_comm (x y : F) : (x - y) * (x - y) = (y - x) * (y - x) := by
  refine injective ?_
  rw [parts_mul, parts_mul, parts_sub, parts_sub, (sub_swap _ _ _).settle.mul_self]

/-- **The sign of a product** with a number that is neither zero nor infinite. -/
theorem mul_sign? {n : ℕ} {f : ℤ} {hn : 0 < n} (hx : sign? (parts x) = some s)
    (hy : parts y = .finite t n f hn) : sign? (parts (x * y)) = some (s * t) := by
  rw [parts_mul, settle_sign?, hy]
  cases hp : parts x with
  | notANumber =>
    rw [hp] at hx
    cases hx
  | zero u | infinity u =>
    rw [hp] at hx
    cases hx
    rfl
  | finite u m e hm =>
    rw [hp] at hx
    cases hx
    exact roundWithAccuracy_sign? _ _ _ _ _

/-- The number is one of the two zeros. -/
def IsZero (x : F) : Prop := ∃ s, parts x = .zero s

/-- **A number is negative** by its sign, unless it is a zero. -/
theorem lt_zero_iff (hz : parts z = .zero .positive) :
    x < z ↔ sign? (parts x) = some .negative ∧ ¬ IsZero x := by
  rw [lt_iff', hz, UnpackedFloat.lt]
  unfold IsZero
  cases parts x with
  | notANumber => exact iff_of_false (by simp [UnpackedFloat.compare]) (by simp [sign?])
  | zero s => exact iff_of_false (by cases s <;> decide) fun h => h.2 ⟨s, rfl⟩
  | infinity s | finite s m e hm => cases s <;> simp [UnpackedFloat.compare, sign?]

end Machine

/-! ### Singles -/

namespace Single

open Machine

variable {x : Float32}

theorem parts_zero : parts (0 : Float32) = .zero .positive := rfl

theorem isFinite_zero : IsFinite (0 : Float32) := rfl

theorem lt_zero_iff : x < 0 ↔ sign? (parts x) = some .negative ∧ ¬ IsZero x := Machine.lt_zero_iff parts_zero

theorem decide_lt_zero {m : ℕ} {e : ℤ} {hm : 0 < m} (h : parts x = .finite s m e hm) :
    decide (x < 0) = (s == .negative) := by
  have hne : ¬ IsZero x := fun ⟨_, hz⟩ => nomatch h.symm.trans hz
  rw [Bool.eq_iff_iff, decide_eq_true_iff, lt_zero_iff, h, and_iff_left hne, beq_iff_eq]
  exact Option.some_inj

theorem beq_zero_iff : (x == 0) = true ↔ IsZero x := by
  have hbeq : (x == 0) = UnpackedFloat.beq (parts x) (.zero .positive) := rfl
  rw [hbeq, UnpackedFloat.beq]
  unfold IsZero
  cases parts x with
  | notANumber => exact iff_of_false nofun fun ⟨_, h⟩ => nomatch h
  | zero s => exact iff_of_true (by cases s <;> decide) ⟨s, rfl⟩
  | infinity s => exact iff_of_false (by cases s <;> decide) fun ⟨_, h⟩ => nomatch h
  | finite s m e hm =>
    refine iff_of_false ?_ fun ⟨_, h⟩ => nomatch h
    cases s with
    | positive => exact nofun
    | negative => exact nofun

/-- A finite single that is not zero has a mantissa. -/
theorem exists_parts (hfinite : x.isFinite = true) (hzero : (x == 0) = false) :
    ∃ s m e hm, parts x = .finite s m e hm := by
  have hparts : (parts x).isFinite = true := hfinite
  have hne : ¬ IsZero x := fun h => Bool.false_ne_true (hzero.symm.trans (beq_zero_iff.mpr h))
  cases hp : parts x with
  | notANumber | infinity s =>
    rw [hp] at hparts
    cases hparts
  | zero s => exact absurd ⟨s, hp⟩ hne
  | finite s m e hm => exact ⟨s, m, e, hm, rfl⟩

/-- **Absolute values** are exact. -/
theorem abs_exact (h : IsFinite x) : IsFinite x.abs ∧ real x.abs = |real x| := by
  have hfits : Fits (format Float32) (parts x).abs := by
    have hfits := Machine.fits x
    cases hp : parts x with
    | notANumber | infinity s | zero s => trivial
    | finite s m e hm =>
      rw [hp] at hfits
      exact hfits
  have hparts : parts x.abs = (parts x).abs := unpack_pack hfits
  rw [IsFinite] at h ⊢
  rw [real, real, hparts]
  cases hp : parts x with
  | notANumber | infinity s =>
    rw [hp] at h
    cases h
  | zero s => exact ⟨rfl, abs_zero.symm⟩
  | finite s m e hm =>
    have hsize : (0 : ℝ) ≤ m * 2 ^ e := by positivity
    refine ⟨rfl, ?_⟩
    rw [value_finite, abs_mul, abs_unit, abs_of_nonneg hsize]
    exact value_finite .positive e hm

end Single

end Prims
