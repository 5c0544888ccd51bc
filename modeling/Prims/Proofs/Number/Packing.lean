import Prims.Proofs.Number.Operations

/-!
# Number — Packing

Floats as words.  Every word holds a float of its format (`unpack_fits`), and a word made of such a float
holds it again (`unpack_pack`); a canonical float whose exponent is too large becomes the infinity of its
sign (`unpack_pack_of_large`).  So what is left of a rounded number in a word is that number, or an infinity
when it is beyond the format (`RoundsTo.unpack_pack`).
-/

namespace Prims

open Float.Model Float.Model.UnpackedFloat

variable {spec : Format} {x : UnpackedFloat} {s : Sign} {m : ℕ} {e : ℤ} {v : ℝ}

/-! ### The range of exponents -/

/-- The largest exponent of the format. -/
def largestExponent (spec : Format) : ℤ := spec.exponentBias - spec.mantissaBitsWithoutImplicit

/-- What has a mantissa is canonical, and its exponent is one of the format. -/
def Fits (spec : Format) : UnpackedFloat → Prop
  | .finite _ m e _                      => Canonical spec m e ∧ e ≤ largestExponent spec
  | .zero _ | .infinity _ | .notANumber => True

theorem Fits.isCanonical (h : Fits spec x) : IsCanonical spec x := by
  cases x with
  | finite s m e hm => exact h.1
  | zero s | infinity s | notANumber => trivial

theorem minExponent_eq (spec : Format) :
    spec.minExponent = 1 - spec.exponentBias - spec.mantissaBitsWithoutImplicit := by
  have hpow : 1 ≤ 2 ^ (spec.exponentBits - 1) := Nat.one_le_two_pow
  have hbits := mantissaBits_eq spec
  unfold Format.minExponent Format.exponentBias
  push_cast [hpow]
  omega

theorem two_pow_exponentBits (spec : Format) : 2 ^ spec.exponentBits = 2 * spec.exponentBias + 2 := by
  have hpow : 1 ≤ 2 ^ (spec.exponentBits - 1) := Nat.one_le_two_pow
  have hbits : 2 ^ spec.exponentBits = 2 ^ (spec.exponentBits - 1) * 2 := by
    rw [← pow_succ, Nat.sub_add_cancel spec.he]
  unfold Format.exponentBias
  omega

/-! ### Words -/

theorem toNat_leading {k : ℕ} (f : BitVec k) : (1#1 ++ f).toNat = 2 ^ k + f.toNat := by
  rw [BitVec.toNat_append, ← Nat.shiftLeft_add_eq_or_of_lt f.isLt, Nat.shiftLeft_eq]
  simp

theorem toNat_neg_one (k : ℕ) : (-1#k).toNat = 2 ^ k - 1 := by
  rw [BitVec.neg_one_eq_allOnes, BitVec.toNat_allOnes]

/-- **Every word holds a float of its format.** -/
theorem unpack_fits (h : 1 < spec.exponentBits) (b : BitVec spec.numBits) : Fits spec (unpack spec b) := by
  have hmin := minExponent_eq spec
  have hpow := two_pow_exponentBits spec
  have hbits := mantissaBits_eq spec
  have htwo : 2 ^ spec.mantissaBits = 2 ^ spec.mantissaBitsWithoutImplicit * 2 := by rw [hbits, pow_succ]
  have hbias : 1 ≤ spec.exponentBias := by
    have : 2 ^ 2 ≤ 2 ^ spec.exponentBits := Nat.pow_le_pow_right two_pos h
    omega
  have hf := (unpackMantissa b).isLt
  have hE := (unpackExponent b).isLt
  unfold UnpackedFloat.unpack
  dsimp only
  split
  · split
    · trivial
    · trivial
  next hones =>
    have hones : (unpackExponent b).toNat ≠ 2 ^ spec.exponentBits - 1 := fun hE =>
      hones (BitVec.eq_of_toNat_eq (hE.trans (toNat_neg_one _).symm))
    split
    next hzero =>
      split
      · trivial
      · have hzero : (unpackExponent b).toNat = 0 := congrArg BitVec.toNat hzero
        refine ⟨⟨by omega, ?_, .inl ?_⟩, ?_⟩
        · omega
        · omega
        · unfold largestExponent
          omega
    next hzero =>
      have hzero : (unpackExponent b).toNat ≠ 0 := fun hE => hzero (BitVec.eq_of_toNat_eq hE)
      have hm := toNat_leading (unpackMantissa b)
      refine ⟨⟨by omega, ?_, .inr ?_⟩, ?_⟩
      · omega
      · omega
      · unfold largestExponent
        omega

/-- A word by its parts, when it is no infinity and holds no leading bit, -/
theorem unpack_subnormal (h : 0 < spec.exponentBits) (s : Sign)
    {f : BitVec spec.mantissaBitsWithoutImplicit} (hf : 0 < f.toNat) :
    unpack spec (packComponents spec s 0#_ f) = .finite s f.toNat spec.minExponent hf := by
  have hones : (0#_ : BitVec spec.exponentBits) ≠ -1#_ := fun hE => by
    have hE := congrArg BitVec.toNat hE
    have : 2 ^ 1 ≤ 2 ^ spec.exponentBits := Nat.pow_le_pow_right two_pos h
    rw [toNat_neg_one] at hE
    rw [BitVec.toNat_zero] at hE
    omega
  have hzero : f ≠ 0#_ := fun hf0 => by simp [hf0] at hf
  have hmin := minExponent_eq spec
  unfold UnpackedFloat.unpack
  simp only [unpackMantissa_packComponents, unpackExponent_packComponents, unpackSign_packComponents,
    Sign.ofBitVec_toBitVec, if_neg hones, dif_neg hzero, if_true, BitVec.toNat_zero]
  congr 1
  omega

/-- and when it holds one. -/
theorem unpack_normal (s : Sign) {E : BitVec spec.exponentBits} (f : BitVec spec.mantissaBitsWithoutImplicit)
    (hzero : E.toNat ≠ 0) (hones : E.toNat ≠ 2 ^ spec.exponentBits - 1) :
    unpack spec (packComponents spec s E f) = .finite s (2 ^ spec.mantissaBitsWithoutImplicit + f.toNat)
      (E.toNat - (spec.exponentBias + spec.mantissaBitsWithoutImplicit)) (by positivity) := by
  have hones : E ≠ -1#_ := fun hE => hones (hE ▸ toNat_neg_one _)
  have hzero : E ≠ 0#_ := fun hE => hzero (by simp [hE])
  unfold UnpackedFloat.unpack
  simp only [unpackMantissa_packComponents, unpackExponent_packComponents, unpackSign_packComponents,
    Sign.ofBitVec_toBitVec, if_neg hones, if_neg hzero, toNat_leading]

theorem unpack_packedInfinity (spec : Format) (s : Sign) :
    unpack spec (packedInfinity spec s) = .infinity s := by
  unfold UnpackedFloat.unpack packedInfinity
  simp

/-- The word of a finite float that fits. -/
theorem unpack_pack_finite (h : Canonical spec m e) (he : e ≤ largestExponent spec) (s : Sign) (hm : 0 < m) :
    unpack spec (pack spec (.finite s m e hm)) = .finite s m e hm := by
  have hmin := minExponent_eq spec
  have hpow := two_pow_exponentBits spec
  have hbits := mantissaBits_eq spec
  have hle := h.le
  unfold largestExponent at he
  set E := (e + spec.exponentBias + spec.mantissaBitsWithoutImplicit).toNat with hE
  have hlog := Nat.log2_lt hm.ne' (k := spec.mantissaBits)
  have hpack : pack spec (.finite s m e hm) =
      if 2 ^ spec.exponentBits ≤ E + 1 then packedInfinity spec s
      else if m.log2 + 1 = spec.mantissaBits then
        packComponents spec s (BitVec.ofNat _ E) (BitVec.ofNat _ m)
      else packComponents spec s 0#_ (BitVec.ofNat _ m) := rfl
  rw [hpack, if_neg (by omega)]
  rcases Nat.lt_or_ge m (2 ^ spec.mantissaBitsWithoutImplicit) with hlt | hge
  · obtain rfl : e = spec.minExponent := h.normal.resolve_right (by omega)
    have hshort : m.log2 < spec.mantissaBitsWithoutImplicit := (Nat.log2_lt hm.ne').mpr hlt
    have hf : (BitVec.ofNat spec.mantissaBitsWithoutImplicit m).toNat = m := by
      rw [BitVec.toNat_ofNat, Nat.mod_eq_of_lt hlt]
    rw [if_neg (by omega), unpack_subnormal spec.he s (by rwa [hf])]
    congr
  · have hlong : spec.mantissaBitsWithoutImplicit ≤ m.log2 := (Nat.le_log2 hm.ne').mpr hge
    have hf : (BitVec.ofNat spec.mantissaBitsWithoutImplicit m).toNat =
        m - 2 ^ spec.mantissaBitsWithoutImplicit := by
      have hlt := h.lt
      rw [hbits, pow_succ] at hlt
      rw [BitVec.toNat_ofNat, Nat.mod_eq_sub_mod hge, Nat.mod_eq_of_lt (by omega)]
    have hE' : (BitVec.ofNat spec.exponentBits E).toNat = E := by
      rw [BitVec.toNat_ofNat, Nat.mod_eq_of_lt (by omega)]
    have := hlog.mpr h.lt
    rw [if_pos (by omega), unpack_normal s _ (by omega) (by omega)]
    congr 1
    · omega
    · omega

/-- **A word made of a float of the format holds that float.** -/
theorem unpack_pack (h : Fits spec x) : unpack spec (pack spec x) = x := by
  cases x with
  | infinity s => exact unpack_packedInfinity spec s
  | notANumber => exact unpack_packedNaN
  | zero s => exact unpack_packedZero
  | finite s m e hm => exact unpack_pack_finite h.1 h.2 s hm

/-- A float whose exponent is too large becomes an infinity. -/
theorem unpack_pack_of_large (he : largestExponent spec < e) (s : Sign) (hm : 0 < m) :
    unpack spec (pack spec (.finite s m e hm)) = .infinity s := by
  have hpow := two_pow_exponentBits spec
  unfold largestExponent at he
  have hlarge : 2 ^ spec.exponentBits ≤
      (e + spec.exponentBias + spec.mantissaBitsWithoutImplicit).toNat + 1 := by omega
  rw [← unpack_packedInfinity spec s]
  exact congrArg (unpack spec) (if_pos hlarge)

/-! ### Rounded numbers in words -/

/-- A number that no rounding takes beyond the format. -/
noncomputable def ceiling (spec : Format) : ℝ := ((2 : ℕ) : ℝ) ^ spec.exponentBias

theorem ceiling_eq (spec : Format) : ceiling spec = 2 ^ spec.exponentBias := rfl

theorem ceiling_pos (spec : Format) : 0 < ceiling spec := by
  rw [ceiling_eq]
  positivity

/-- A canonical float that does not fit is at least twice the ceiling. -/
theorem Canonical.two_mul_ceiling_le (h : Canonical spec m e) (hw : 1 < spec.exponentBits)
    (he : largestExponent spec < e) : 2 * ceiling spec ≤ m * 2 ^ e := by
  have hmin := minExponent_eq spec
  have hpow := two_pow_exponentBits spec
  have hbias : 2 ^ 2 ≤ 2 ^ spec.exponentBits := Nat.pow_le_pow_right two_pos hw
  unfold largestExponent at he
  have hfull : (2 : ℝ) ^ spec.mantissaBitsWithoutImplicit ≤ m := by
    exact_mod_cast h.normal.resolve_left (by omega)
  calc 2 * ceiling spec
      = 2 ^ spec.mantissaBitsWithoutImplicit *
          2 ^ ((spec.exponentBias : ℤ) + 1 - spec.mantissaBitsWithoutImplicit) := by
        rw [ceiling_eq, ← zpow_natCast, ← zpow_natCast, ← zpow_add₀ two_ne_zero, ← zpow_one_add₀ two_ne_zero]
        congr 1
        ring
    _ ≤ 2 ^ spec.mantissaBitsWithoutImplicit * 2 ^ e :=
        mul_le_mul_of_nonneg_left (zpow_le_zpow_right₀ one_le_two (by omega)) (by positivity)
    _ ≤ m * 2 ^ e := mul_le_mul_of_nonneg_right hfull (two_zpow_pos e).le

theorem roundoff_le_half (spec : Format) : roundoff spec ≤ 1 / 2 := by
  have hbits := mantissaBits_eq spec
  have hle : roundoff spec ≤ 2 ^ (-1 : ℤ) := zpow_le_zpow_right₀ one_le_two (by omega)
  exact hle.trans_eq (by norm_num)

theorem underflow_lt_ceiling (spec : Format) : underflow spec < ceiling spec := by
  have hmin := minExponent_nonpos spec
  rw [underflow_eq, ceiling_eq, ← zpow_natCast]
  exact zpow_lt_zpow_right₀ one_lt_two (by omega)

/-- **A rounded number in a word** is that number, or the infinity of its sign when it is beyond the
ceiling. -/
theorem RoundsTo.unpack_pack (h : RoundsTo spec v x) (hw : 1 < spec.exponentBits) :
    unpack spec (pack spec x) = x ∧ Fits spec x ∨
    ∃ s, unpack spec (pack spec x) = .infinity s ∧ ceiling spec < unit s * v := by
  have herror := h.error
  obtain ⟨s, hv, h⟩ := h
  rcases h.canonical with rfl | ⟨m, e, hm, rfl, hcanonical⟩
  · exact .inl ⟨Prims.unpack_pack (x := .zero s) trivial, trivial⟩
  · rcases le_or_gt e (largestExponent spec) with he | he
    · have hfits : Fits spec (.finite s m e hm) := ⟨hcanonical, he⟩
      exact .inl ⟨Prims.unpack_pack hfits, hfits⟩
    · refine .inr ⟨s, unpack_pack_of_large he s hm, ?_⟩
      have hlarge := hcanonical.two_mul_ceiling_le hw he
      have hvs : unit s * v = |v| := by
        nth_rewrite 1 [hv]
        rw [← mul_assoc, unit_mul_self, one_mul]
      have habs : (m : ℝ) * 2 ^ e - |v| ≤ max (roundoff spec * |v|) (underflow spec) := by
        have hvalue : value (.finite s m e hm) - v = unit s * (m * 2 ^ e - |v|) := by
          rw [value_finite, mul_sub, ← hv]
        rw [hvalue, abs_mul, abs_unit, one_mul] at herror
        exact (le_abs_self _).trans herror
      have hhalf := mul_le_mul_of_nonneg_right (roundoff_le_half spec) (abs_nonneg v)
      have hunder := underflow_lt_ceiling spec
      rw [hvs]
      by_contra hle
      rcases max_choice (roundoff spec * |v|) (underflow spec) with hmax | hmax <;>
        rw [hmax] at habs <;> linarith [ceiling_pos spec, not_lt.mp hle]

end Prims
