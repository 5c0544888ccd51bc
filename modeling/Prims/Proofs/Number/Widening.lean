import Prims.Number.Binary
import Prims.Proofs.Number.Whole

/-!
# Number — Widening

Singles as doubles.  A word is its sign, its exponent and its fraction as three numbers
(`toNat_packComponents`), and widening shifts them into their places.  Main statement: the double stands for
the same number as the single, and is finite when the single is (`real_widen`).
-/

namespace Prims

open Float.Model Float.Model.UnpackedFloat Machine

variable {spec : Format}

/-! ### Words as numbers -/

/-- A sign as a number. -/
def signNat : Sign → ℕ
  | .negative => 1
  | .positive => 0

theorem toNat_packComponents (s : Sign) (E : BitVec spec.exponentBits)
    (f : BitVec spec.mantissaBitsWithoutImplicit) : (packComponents spec s E f).toNat =
      signNat s * 2 ^ (spec.exponentBits + spec.mantissaBitsWithoutImplicit) +
        E.toNat * 2 ^ spec.mantissaBitsWithoutImplicit + f.toNat := by
  have hs : s.toBitVec.toNat = signNat s := by cases s <;> rfl
  unfold packComponents
  rw [BitVec.toNat_append, BitVec.toNat_append, ← Nat.shiftLeft_add_eq_or_of_lt f.isLt,
    ← Nat.shiftLeft_add_eq_or_of_lt E.isLt, Nat.shiftLeft_eq, Nat.shiftLeft_eq, hs, pow_add]
  ring

/-- Every word has its three parts. -/
theorem exists_packComponents (b : BitVec spec.numBits) : ∃ s E f, b = packComponents spec s E f :=
  ⟨_, _, _, (packComponents_unpackSign_unpackExponent_unpackMantissa b).symm⟩

theorem unpack_zero (s : Sign) : unpack spec (packComponents spec s 0#_ 0#_) = .zero s := unpack_packedZero

namespace Double

theorem parts_ofBits (b : UInt64) : parts (Float.ofBits b) = unpack .binary64 b.toBitVec :=
  @unpack_pack .binary64 _ (unpack_fits (by decide) _)

/-- The word of a double from its three parts. -/
theorem toBitVec_ofParts {s E f : UInt64} {t : Sign} (hs : s.toNat = signNat t) (hE : E.toNat < 2 ^ 11)
    (hf : f.toNat < 2 ^ 52) : (s <<< 63 ||| E <<< 52 ||| f).toBitVec =
      packComponents .binary64 t (BitVec.ofNat 11 E.toNat) (BitVec.ofNat 52 f.toNat) := by
  have hs1 : s.toNat ≤ 1 := by
    rw [hs]
    cases t <;> decide
  refine BitVec.eq_of_toNat_eq ?_
  rw [toNat_packComponents]
  simp only [BitVec.toNat_ofNat, Nat.mod_eq_of_lt hE, Nat.mod_eq_of_lt hf, ← hs]
  show (s <<< 63 ||| E <<< 52 ||| f).toNat = _
  have hs63 : (s <<< 63).toNat = s.toNat <<< 63 := by
    show (s.toNat <<< 63) % 2 ^ 64 = _
    rw [Nat.shiftLeft_eq, Nat.mod_eq_of_lt (by omega)]
  have hE52 : (E <<< 52).toNat = E.toNat <<< 52 := by
    show (E.toNat <<< 52) % 2 ^ 64 = _
    rw [Nat.shiftLeft_eq, Nat.mod_eq_of_lt (by omega)]
  have hlow : E.toNat <<< 52 ||| f.toNat = E.toNat * 2 ^ 52 + f.toNat := by
    rw [← Nat.shiftLeft_add_eq_or_of_lt hf, Nat.shiftLeft_eq]
  rw [UInt64.toNat_or, UInt64.toNat_or, hs63, hE52, Nat.or_assoc, hlow,
    ← Nat.shiftLeft_add_eq_or_of_lt (by omega), Nat.shiftLeft_eq]
  show s.toNat * 2 ^ 63 + _ = s.toNat * 2 ^ 63 + _ + _
  omega

theorem parts_ofParts {s E f : UInt64} {t : Sign} (hs : s.toNat = signNat t) (hE : E.toNat < 2 ^ 11)
    (hf : f.toNat < 2 ^ 52) : parts (Double.ofParts s E f) =
      unpack .binary64 (packComponents .binary64 t (BitVec.ofNat 11 E.toNat) (BitVec.ofNat 52 f.toNat)) := by
  rw [Double.ofParts, parts_ofBits, toBitVec_ofParts hs hE hf]

end Double

namespace Single

variable {x : Float32}

/-- The word of a single as a number, by its three parts. -/
theorem exists_word (x : Float32) : ∃ (t : Sign) (E : BitVec 8) (f : BitVec 23),
    parts x = unpack .binary32 (packComponents .binary32 t E f) ∧
    x.toBits.toNat = signNat t * 2 ^ 31 + E.toNat * 2 ^ 23 + f.toNat := by
  obtain ⟨t, E, f, hb⟩ := @exists_packComponents .binary32 x.toBits.toBitVec
  have hnat := toNat_packComponents t E f
  rw [← hb] at hnat
  exact ⟨t, E, f, congrArg (unpack .binary32) hb, hnat⟩

/-- The three parts of a single, as widening reads them. -/
theorem exists_fields (x : Float32) : ∃ (t : Sign) (E : BitVec 8) (f : BitVec 23),
    parts x = unpack .binary32 (packComponents .binary32 t E f) ∧
    (x.toBits.toUInt64 >>> 31).toNat = signNat t ∧
    ((x.toBits.toUInt64 >>> 23) &&& 0xff).toNat = E.toNat ∧
    (x.toBits.toUInt64 &&& 0x7fffff).toNat = f.toNat := by
  obtain ⟨t, E, f, hparts, hword⟩ := exists_word x
  have hE : E.toNat < 2 ^ 8 := E.isLt
  have hf : f.toNat < 2 ^ 23 := f.isLt
  refine ⟨t, E, f, hparts, ?_, ?_, ?_⟩
  · show x.toBits.toNat >>> 31 = _
    rw [Nat.shiftRight_eq_div_pow, hword]
    omega
  · show (x.toBits.toNat >>> 23) &&& (2 ^ 8 - 1) = _
    rw [Nat.and_two_pow_sub_one_eq_mod, Nat.shiftRight_eq_div_pow, hword]
    omega
  · show x.toBits.toNat &&& (2 ^ 23 - 1) = _
    rw [Nat.and_two_pow_sub_one_eq_mod, hword]
    omega

/-- The value of a double with a leading bit. -/
theorem real_ofParts {s E f : UInt64} {t : Sign} (hs : s.toNat = signNat t) (hE : E.toNat < 2 ^ 11 - 1)
    (hpos : E.toNat ≠ 0) (hf : f.toNat < 2 ^ 52) : IsFinite (Double.ofParts s E f) ∧
      real (Double.ofParts s E f) = unit t * ((2 ^ 52 + f.toNat : ℕ) * 2 ^ ((E.toNat : ℤ) - 1075)) := by
  have hEnat : (BitVec.ofNat 11 E.toNat).toNat = E.toNat := by
    rw [BitVec.toNat_ofNat, Nat.mod_eq_of_lt (by omega)]
  have hfnat : (BitVec.ofNat 52 f.toNat).toNat = f.toNat := by
    rw [BitVec.toNat_ofNat, Nat.mod_eq_of_lt hf]
  have hparts := Double.parts_ofParts (E := E) hs (by omega) hf
  rw [@unpack_normal .binary64 t _ _ (by rw [hEnat]; exact hpos)
    (by rw [hEnat]; exact Nat.ne_of_lt hE)] at hparts
  refine ⟨?_, ?_⟩
  · rw [IsFinite, hparts]
    rfl
  · rw [real, hparts, value_finite, hEnat, hfnat]
    rfl

/-- A fraction below a leading bit moves up with it. -/
theorem real_widened_normal {s e f : UInt64} {t : Sign} (hs : s.toNat = signNat t) (he : e.toNat < 255)
    (hf : f.toNat < 2 ^ 23) : IsFinite (Double.ofParts s (e + 896) (f <<< 29)) ∧
      real (Double.ofParts s (e + 896) (f <<< 29)) =
        unit t * ((2 ^ 23 + f.toNat : ℕ) * 2 ^ ((e.toNat : ℤ) - 150)) := by
  have hE : (e + 896).toNat = e.toNat + 896 := by
    show (e.toNat + 896) % 2 ^ 64 = _
    exact Nat.mod_eq_of_lt (by omega)
  have hF : (f <<< 29).toNat = f.toNat * 2 ^ 29 := by
    show (f.toNat <<< 29) % 2 ^ 64 = _
    rw [Nat.shiftLeft_eq, Nat.mod_eq_of_lt (by omega)]
  obtain ⟨hfinite, hreal⟩ := real_ofParts (E := e + 896) (f := f <<< 29) hs (by omega) (by omega) (by omega)
  refine ⟨hfinite, hreal.trans (congrArg (unit t * ·) ?_)⟩
  have hexp : ((e.toNat + 896 : ℕ) : ℤ) - 1075 = (e.toNat : ℤ) - 150 + (-29) := by
    push_cast
    ring
  rw [hE, hF, hexp, zpow_add₀ two_ne_zero]
  push_cast
  norm_num
  ring

/-- A fraction without a leading bit gets one. -/
theorem real_widened_subnormal {s f : UInt64} {t : Sign} (hs : s.toNat = signNat t) (hpos : f.toNat ≠ 0)
    (hf : f.toNat < 2 ^ 23) :
    let x := Double.ofParts s (f.log2 + 874) ((f <<< (52 - f.log2)) &&& 0xfffffffffffff)
    IsFinite x ∧ real x = unit t * (f.toNat * 2 ^ (-149 : ℤ)) := by
  intro x
  have hlog : f.log2.toNat = Nat.log2 f.toNat := rfl
  have hk : Nat.log2 f.toNat < 23 := (Nat.log2_lt hpos).mpr hf
  have hle := Nat.log2_self_le hpos
  have hlt := Nat.lt_log2_self (n := f.toNat)
  set k := Nat.log2 f.toNat
  have hE : (f.log2 + 874).toNat = k + 874 := by
    show (f.log2.toNat + 874) % 2 ^ 64 = _
    rw [hlog, Nat.mod_eq_of_lt (by omega)]
  have hshift : (52 - f.log2).toNat = 52 - k := by
    rw [UInt64.toNat_sub_of_le _ _ (UInt64.le_iff_toNat_le.mpr (hlog ▸ (by omega : k ≤ 52))), hlog]
    rfl
  -- the fraction with its leading bit moved to the front
  obtain ⟨shifted, hshifted⟩ : ∃ n, n = f.toNat * 2 ^ (52 - k) := ⟨_, rfl⟩
  have hlow : 2 ^ 52 ≤ shifted :=
    calc 2 ^ 52 = 2 ^ k * 2 ^ (52 - k) := by rw [← pow_add, Nat.add_sub_cancel' (by omega)]
      _ ≤ f.toNat * 2 ^ (52 - k) := Nat.mul_le_mul_right _ hle
      _ = shifted := hshifted.symm
  have hhigh : shifted < 2 ^ 53 :=
    calc shifted = f.toNat * 2 ^ (52 - k) := hshifted
      _ < 2 ^ (k + 1) * 2 ^ (52 - k) := Nat.mul_lt_mul_of_pos_right hlt (Nat.two_pow_pos _)
      _ = 2 ^ 53 := by rw [← pow_add, Nat.add_right_comm, Nat.add_sub_cancel' (by omega)]
  have hF : ((f <<< (52 - f.log2)) &&& 0xfffffffffffff).toNat = shifted - 2 ^ 52 := by
    show ((f.toNat <<< ((52 - f.log2).toNat % 64)) % 2 ^ 64) &&& (2 ^ 52 - 1) = _
    rw [hshift, Nat.mod_eq_of_lt (by omega : 52 - k < 64), Nat.shiftLeft_eq, ← hshifted,
      Nat.mod_eq_of_lt (by omega), Nat.and_two_pow_sub_one_eq_mod, Nat.mod_eq_sub_mod hlow,
      Nat.mod_eq_of_lt (by omega)]
  obtain ⟨hfinite, hreal⟩ := real_ofParts (E := f.log2 + 874)
    (f := (f <<< (52 - f.log2)) &&& 0xfffffffffffff) hs (by omega) (by omega) (by omega)
  refine ⟨hfinite, hreal.trans (congrArg (unit t * ·) ?_)⟩
  have hexp : ((k + 874 : ℕ) : ℤ) - 1075 = -149 + -((52 - k : ℕ) : ℤ) := by
    push_cast [show k ≤ 52 by omega]
    ring
  have hcancel : (2 : ℝ) ^ (52 - k) * 2 ^ (-((52 - k : ℕ) : ℤ)) = 1 := by
    rw [zpow_neg, zpow_natCast]
    exact mul_inv_cancel₀ (by positivity)
  rw [hE, hF, Nat.add_sub_cancel' hlow, hexp, zpow_add₀ two_ne_zero, hshifted]
  push_cast
  calc (f.toNat : ℝ) * 2 ^ (52 - k) * (2 ^ (-149 : ℤ) * 2 ^ (-((52 - k : ℕ) : ℤ)))
      = f.toNat * 2 ^ (-149 : ℤ) * (2 ^ (52 - k) * 2 ^ (-((52 - k : ℕ) : ℤ))) := by ring
    _ = f.toNat * 2 ^ (-149 : ℤ) := by rw [hcancel, mul_one]

/-- **Widening is exact.** -/
theorem real_widen (h : IsFinite x) : IsFinite (widen x) ∧ real (widen x) = real x := by
  obtain ⟨t, E, f, hx, hsign, hexponent, hfraction⟩ := exists_fields x
  have hE : E.toNat < 2 ^ 8 := E.isLt
  have hf : f.toNat < 2 ^ 23 := f.isLt
  unfold widen
  dsimp only
  split
  next hones =>
    -- an infinity or no number
    have hones : E = -1#8 := BitVec.eq_of_toNat_eq (hexponent.symm.trans (congrArg UInt64.toNat hones))
    rw [IsFinite, hx, hones] at h
    unfold UnpackedFloat.unpack at h
    simp only [unpackMantissa_packComponents, unpackExponent_packComponents, if_true] at h
    split at h <;> cases h
  next hones =>
    have hones : E.toNat ≠ 255 := fun hE => hones (UInt64.toNat_inj.mp (hexponent.trans hE))
    split
    next hzero =>
      have hzero : E.toNat ≠ 0 := fun hE => hzero (UInt64.toNat_inj.mp (hexponent.trans hE))
      obtain ⟨hfinite, hreal⟩ := real_widened_normal hsign (e := (x.toBits.toUInt64 >>> 23) &&& 0xff)
        (f := x.toBits.toUInt64 &&& 0x7fffff) (by omega) (by omega)
      refine ⟨hfinite, hreal.trans ?_⟩
      rw [hexponent, hfraction, real, hx, @unpack_normal .binary32 t _ f hzero hones, value_finite]
      rfl
    next hzero =>
      have hzero : E = 0#8 := BitVec.eq_of_toNat_eq
        (hexponent.symm.trans (congrArg UInt64.toNat (not_not.mp hzero)))
      split
      next hfzero =>
        have hfzero : f = 0#23 := BitVec.eq_of_toNat_eq (hfraction.symm.trans (congrArg UInt64.toNat hfzero))
        have hparts := Double.parts_ofParts (E := 0) (f := 0) hsign (by decide) (by decide)
        have hzeros : parts (Double.ofParts (x.toBits.toUInt64 >>> 31) 0 0) = .zero t :=
          hparts.trans (@unpack_zero .binary64 t)
        refine ⟨?_, ?_⟩
        · rw [IsFinite, hzeros]
          rfl
        · rw [real, real, hzeros, hx, hzero, hfzero, @unpack_zero .binary32]
      next hfpos =>
        have hfpos : f.toNat ≠ 0 := fun hf => hfpos (UInt64.toNat_inj.mp (hfraction.trans hf))
        obtain ⟨hfinite, hreal⟩ := real_widened_subnormal hsign (hfraction ▸ hfpos) (hfraction ▸ hf)
        refine ⟨hfinite, hreal.trans ?_⟩
        rw [real, hx, hzero, @unpack_subnormal .binary32 (by decide) t _ (Nat.pos_of_ne_zero hfpos),
          value_finite, hfraction]
        rfl

end Single

end Prims
