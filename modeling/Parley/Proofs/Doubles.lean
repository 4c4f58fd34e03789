import Parley.Value
import Mathlib.Algebra.Order.Ring.Int

/-!
# Numbers that are read are whole

A run of digits is read as the double nearest to it, or as infinity if it is beyond all doubles.
The nearest double is a whole number too: what is rounded off lies before the point, or there is
nothing behind it.  So a number in a script is finite and whole, or infinite, and never the double
that is no number.

There are two ways from a whole number to its double, by a product of doubles for small ones and by
a long product for others.  Both end with rounding a whole number that has 53 bits or more; the
first one also packs a double into its bits and unpacks it again.

* `whole_round` — rounding a whole number gives a whole number.
* `Whole.unpack_pack` — packing keeps whole numbers whole.
* `exists_whole_ofDigits` — a run of digits is read as a whole number.
* `isNaN_ofDigits` — so it is read as a number.
* `isFinite_eq` — what is a number is finite or infinite.
-/

namespace Parley.Number

open Float.Model Float.Model.UnpackedFloat

/-! ## Shifting -/

theorem mantissa_shiftRight (m : ExtendedMantissa) (n : Nat) :
    (m >>> n).mantissa = m.mantissa / 2 ^ n := by
  induction n with
  | zero => exact (Nat.div_one _).symm
  | succ n ih =>
    show (m >>> n).mantissa / 2 = _
    rw [ih, Nat.div_div_eq_div_mul, Nat.pow_succ]

/-- Shifting a multiple loses nothing. -/
theorem shiftRight_exact {m n : Nat} (h : 2 ^ n ∣ m) :
    ExtendedMantissa.mk m false false >>> n = ⟨m / 2 ^ n, false, false⟩ := by
  induction n with
  | zero => exact congrArg (ExtendedMantissa.mk · false false) (Nat.div_one m).symm
  | succ n ih =>
    show ExtendedMantissa.shiftRightOne (ExtendedMantissa.mk m false false >>> n) = _
    obtain ⟨t, rfl⟩ := h
    rw [ih ⟨2 * t, by rw [Nat.pow_succ, Nat.mul_assoc]⟩, ExtendedMantissa.shiftRightOne,
      Nat.mul_div_cancel_left t (Nat.two_pow_pos _), Nat.pow_succ, Nat.mul_assoc,
      Nat.mul_div_cancel_left _ (Nat.two_pow_pos _)]
    simp

theorem roundedMantissa_bounds (m : ExtendedMantissa) :
    m.mantissa ≤ m.roundedMantissa ∧ m.roundedMantissa ≤ m.mantissa + 1 := by
  obtain ⟨m, round, sticky⟩ := m
  cases round <;> cases sticky <;>
    simp only [ExtendedMantissa.roundedMantissa, ExtendedMantissa.accuracy,
      Accuracy.roundToNearestEven] <;> omega

/-- Above the smallest doubles a mantissa is shifted to 53 bits. -/
theorem shiftToTargetExponent_eq {m : Nat} {e : Int} (h : -1074 ≤ (m.log2 : Int) + e - 52) :
    shiftToTargetExponent .binary64 m e .exact =
      (ExtendedMantissa.mk m false false >>> (m.log2 - 52), e + (m.log2 - 52 : Nat)) := by
  have htarget : Format.binary64.targetExponent (totalExponent m e) = (m.log2 : Int) + e - 52 := by
    show max ((m.log2 : Int) + 1 + e - 53) (-1074) = _
    omega
  have hamount : ((m.log2 : Int) + e - 52 - e).toNat = m.log2 - 52 := by omega
  rw [shiftToTargetExponent, htarget, shiftToExponent, hamount]
  rfl

/-! ## Whole numbers -/

/-- A whole number that is not negative, as rounding leaves it. -/
inductive Whole : UnpackedFloat → Prop
  | zero : Whole (.zero .positive)
  | infinity : Whole (.infinity .positive)
  | finite {m : Nat} {e : Int} (bits : m.log2 = 52) (low : -52 ≤ e) (whole : 2 ^ (-e).toNat ∣ m)
      (pos : 0 < m) : Whole (.finite .positive m e pos)

/-- A mantissa that is rounded up to 54 bits is shifted once more. -/
theorem whole_carry {m : Nat} {e : Int} (hlow : 2 ^ 52 ≤ m) (hhigh : m ≤ 2 ^ 53) (he : -52 ≤ e)
    (hwhole : 2 ^ (-e).toNat ∣ m) :
    ∀ pos, Whole (.finite .positive (shiftToTargetExponent .binary64 m e .exact).1.mantissa
      (shiftToTargetExponent .binary64 m e .exact).2 pos) := by
  obtain hlt | rfl := Nat.lt_or_eq_of_le hhigh
  · have hbits : m.log2 = 52 := (Nat.log2_eq_iff (by omega)).mpr ⟨hlow, hlt⟩
    rw [shiftToTargetExponent_eq (by omega), mantissa_shiftRight, hbits]
    dsimp only
    rw [Nat.sub_self, Nat.pow_zero, Nat.div_one, Int.natCast_zero, Int.add_zero]
    exact fun pos => .finite hbits he hwhole pos
  · rw [shiftToTargetExponent_eq (by rw [Nat.log2_two_pow]; omega), mantissa_shiftRight,
      Nat.log2_two_pow]
    exact fun pos => .finite Nat.log2_two_pow (by omega) (Nat.pow_dvd_pow 2 (by omega)) pos

/-- **Rounding** a whole number gives a whole number. -/
theorem whole_round {m : Nat} {e : Int} (hbits : 52 ≤ m.log2) (hwhole : 2 ^ (-e).toNat ∣ m) :
    Whole (roundWithAccuracy .binary64 .positive m e .exact) := by
  have hne : m ≠ 0 := by
    rintro rfl
    exact absurd hbits (by decide)
  have hone : (-e).toNat ≤ m.log2 :=
    (Nat.le_log2 hne).mpr (Nat.le_of_dvd (Nat.pos_of_ne_zero hne) hwhole)
  generalize hshifted : ExtendedMantissa.mk m false false >>> (m.log2 - 52) = shifted
  have hmantissa : shifted.mantissa = m / 2 ^ (m.log2 - 52) := by
    rw [← hshifted, mantissa_shiftRight]
  have hlow : 2 ^ 52 ≤ shifted.mantissa := by
    rw [hmantissa, Nat.le_div_iff_mul_le (Nat.two_pow_pos _), ← Nat.pow_add,
      Nat.add_sub_cancel' hbits]
    exact Nat.log2_self_le hne
  have hhigh : shifted.mantissa < 2 ^ 53 := by
    rw [hmantissa, Nat.div_lt_iff_lt_mul (Nat.two_pow_pos _), ← Nat.pow_add]
    have hlog := Nat.lt_log2_self (n := m)
    rwa [show 53 + (m.log2 - 52) = m.log2 + 1 by omega]
  have hround := roundedMantissa_bounds shifted
  -- what lies behind the point is not shifted out, so if it is there rounding changes nothing
  have hrounded : 2 ^ (-(e + (m.log2 - 52 : Nat))).toNat ∣ shifted.roundedMantissa := by
    by_cases hpoint : m.log2 - 52 ≤ (-e).toNat
    · have hsplit : 2 ^ (-e).toNat =
          2 ^ (m.log2 - 52) * 2 ^ (-(e + (m.log2 - 52 : Nat))).toNat := by
        rw [← Nat.pow_add]
        congr 1
        omega
      obtain ⟨t, ht⟩ := hwhole
      rw [hsplit, Nat.mul_assoc] at ht
      rw [← hshifted, shiftRight_exact ⟨_, ht⟩]
      refine ⟨t, ?_⟩
      show m / 2 ^ (m.log2 - 52) = _
      rw [Nat.div_eq_of_eq_mul_right (Nat.two_pow_pos _) ht]
    · rw [Int.toNat_of_nonpos (by omega)]
      exact Nat.one_dvd _
  unfold roundWithAccuracy
  rw [shiftToTargetExponent_eq (by omega), hshifted]
  dsimp only
  by_cases hzero : (shiftToTargetExponent .binary64 shifted.roundedMantissa
      (e + (m.log2 - 52 : Nat)) .exact).1.mantissa = 0
  · rw [dif_pos hzero]
    exact .zero
  · rw [dif_neg hzero]
    exact whole_carry (by omega) (by omega) (by omega) hrounded _

/-! ## Packing -/

theorem unpackSign_packComponents {spec : Format} (sign : Sign)
    (exponent : BitVec spec.exponentBits) (mantissa : BitVec spec.mantissaBitsWithoutImplicit) :
    unpackSign (packComponents spec sign exponent mantissa) = sign.toBitVec := by
  ext i hi
  obtain rfl : i = 0 := by omega
  delta unpackSign packComponents
  simp [BitVec.getLsbD_append, BitVec.getElem_append]

theorem pack_finite {m : Nat} {e : Int} (hbits : m.log2 = 52) (pos : 0 < m) :
    UnpackedFloat.pack .binary64 (.finite .positive m e pos) =
      if 2 ^ 11 ≤ (e + 1075).toNat + 1 then packedInfinity .binary64 .positive
      else packComponents .binary64 .positive (BitVec.ofNat 11 (e + 1075).toNat)
        (BitVec.ofNat 52 m) := by
  have hbiased : e + (Format.binary64.exponentBias : Int) +
      (Format.binary64.mantissaBitsWithoutImplicit : Int) = e + 1075 := by
    show e + 1023 + 52 = _
    omega
  unfold UnpackedFloat.pack
  simp only [hbiased, hbits]
  rw [if_pos (show 52 + 1 = Format.binary64.mantissaBits from rfl)]

/-- A double that is neither small nor large has a leading one in front of its fraction. -/
theorem unpack_normal {b : BitVec Format.binary64.numBits} {m : Nat} {e : Int}
    (hsign : unpackSign b = 0#1) (hlow : 0 < (unpackExponent b).toNat)
    (hhigh : (unpackExponent b).toNat < 2047) (hm : (1#1 ++ unpackMantissa b).toNat = m)
    (he : ((unpackExponent b).toNat : Int) - 1075 = e) (pos : 0 < m) :
    UnpackedFloat.unpack .binary64 b = .finite .positive m e pos := by
  have hones : unpackExponent b ≠ -1#11 := by
    intro h
    rw [h] at hhigh
    exact absurd hhigh (by decide)
  have hzeros : unpackExponent b ≠ 0#11 := by
    intro h
    rw [h] at hlow
    exact absurd hlow (by decide)
  subst hm he
  unfold UnpackedFloat.unpack
  dsimp only
  rw [if_neg hones, if_neg hzeros, hsign]
  rfl

/-- **Packing** keeps whole numbers whole. -/
theorem Whole.unpack_pack {f : UnpackedFloat} (h : Whole f) :
    Whole (UnpackedFloat.unpack .binary64 (UnpackedFloat.pack .binary64 f)) := by
  cases h with
  | zero => exact .zero
  | infinity => exact .infinity
  | @finite m e hbits hlow hwhole pos =>
    obtain ⟨hmin, hmax⟩ := (Nat.log2_eq_iff pos.ne').mp hbits
    rw [pack_finite hbits pos]
    split
    · exact .infinity
    · generalize hb : packComponents .binary64 .positive (BitVec.ofNat 11 (e + 1075).toNat)
        (BitVec.ofNat 52 m) = b
      have hsign : unpackSign b = 0#1 := by
        rw [← hb, unpackSign_packComponents]
        rfl
      have hexponent : (unpackExponent b).toNat = (e + 1075).toNat := by
        rw [← hb, unpackExponent_packComponents]
        exact Nat.mod_eq_of_lt (show (e + 1075).toNat < 2 ^ 11 by omega)
      have hscale : ((unpackExponent b).toNat : Int) - 1075 = e := by omega
      have hmantissa : (1#1 ++ unpackMantissa b).toNat = m := by
        rw [← hb, unpackMantissa_packComponents]
        show 2 ^ 52 ||| m % 2 ^ 52 = m
        rw [Nat.or_comm, Nat.or_two_pow_eq_add_of_lt (Nat.mod_lt _ (Nat.two_pow_pos _))]
        omega
      rw [unpack_normal hsign (by omega) (by omega) hmantissa hscale pos]
      exact .finite hbits hlow hwhole pos

/-! ## Reading -/

/-- A whole number times one is a whole number. -/
theorem Whole.mul_one {f : UnpackedFloat} (h : Whole f) :
    Whole (UnpackedFloat.mul .binary64 f (.finite .positive (2 ^ 52) (-52) (by decide))) := by
  cases h with
  | zero => exact .zero
  | infinity => exact .infinity
  | @finite m e hbits hlow hwhole pos =>
    refine whole_round ?_ ?_
    · rw [Nat.le_log2 (Nat.mul_pos pos (Nat.two_pow_pos _)).ne']
      exact Nat.le_mul_of_pos_left _ pos
    · have hplaces : (-(e + -52)).toNat ≤ (-e).toNat + 52 := by omega
      refine Nat.dvd_trans (Nat.pow_dvd_pow 2 hplaces) ?_
      rw [Nat.pow_add]
      exact Nat.mul_dvd_mul_right hwhole _

theorem whole_ofNat (n : Nat) : Whole (UnpackedFloat.ofNat .binary64 n) := by
  unfold UnpackedFloat.ofNat UnpackedFloat.ofInt UnpackedFloat.normalize
  split
  · rename_i hneg
    rw [compare_lt_iff_lt] at hneg
    omega
  · exact .zero
  · rename_i hpos
    rw [compare_gt_iff_gt] at hpos
    have hne : n ≠ 0 := by omega
    have htarget : Format.binary64.targetExponent (totalExponent n 0) = (n.log2 : Int) - 52 := by
      show max ((n.log2 : Int) + 1 + 0 - 53) (-1074) = _
      omega
    unfold UnpackedFloat.round decreaseExponent
    rw [Int.toNat_natCast, htarget]
    dsimp only
    generalize hshift : (0 - ((n.log2 : Int) - 52)).toNat = shift
    rw [Nat.shiftLeft_eq]
    refine whole_round ?_ ?_
    · rw [Nat.le_log2 (Nat.mul_pos (Nat.pos_of_ne_zero hne) (Nat.two_pow_pos _)).ne']
      calc 2 ^ 52 ≤ 2 ^ (n.log2 + shift) := Nat.pow_le_pow_right (by decide) (by omega)
        _ = 2 ^ n.log2 * 2 ^ shift := Nat.pow_add 2 _ _
        _ ≤ n * 2 ^ shift := Nat.mul_le_mul_right _ (Nat.log2_self_le hne)
    · rw [show (-(0 - (shift : Int))).toNat = shift by omega]
      exact Nat.dvd_mul_left _ _

theorem mul_finite {spec : Format} {m m' : Nat} {e e' : Int} (pos : 0 < m) (pos' : 0 < m') :
    UnpackedFloat.mul spec (.finite .positive m e pos) (.finite .positive m' e' pos') =
      roundWithAccuracy spec .positive (m * m') (e + e') .exact := rfl

theorem whole_ofScientific (n : Nat) : Whole (UnpackedFloat.ofScientific .binary64 n 0) := by
  unfold UnpackedFloat.ofScientific
  by_cases hzero : n = 0
  · rw [dif_pos hzero]
    exact .zero
  rw [dif_neg hzero]
  by_cases hlarge : (0 : Int) > 2 ^ Format.binary64.exponentBits
  · rw [if_pos hlarge]
    exact .infinity
  rw [if_neg hlarge]
  by_cases hsmall : (0 : Int) < -(2 ^ Format.binary64.exponentBits + n.log2)
  · rw [if_pos hsmall]
    exact .zero
  rw [if_neg hsmall, if_pos (Int.le_refl 0), mul_finite,
    show Format.binary64.mantissaBits = 53 from rfl, Int.toNat_zero, Nat.pow_zero, Nat.mul_one,
    Int.add_zero, Nat.shiftLeft_eq]
  refine whole_round ?_ (Nat.dvd_mul_left _ _)
  rw [Nat.le_log2 (Nat.mul_pos (Nat.pos_of_ne_zero hzero) (Nat.two_pow_pos _)).ne']
  omega

/-- **A whole number** is read as a whole number, by either of the two ways. -/
theorem exists_whole_ofScientific (n : Nat) :
    ∃ f, Whole f ∧ Float.ofScientific n false 0 = .ofModel (Float.Model.pack f) := by
  unfold Float.ofScientific
  split
  · have hone : (Float.ofBits 0x3FF0000000000000).toModel.unpack =
        .finite .positive (2 ^ 52) (-52) (by decide) := rfl
    refine ⟨_, (whole_ofNat n.toUInt64.toNat).unpack_pack.mul_one, ?_⟩
    rw [← hone]
    rfl
  · exact ⟨_, whole_ofScientific n, rfl⟩

/-- **A run of digits** is read as a whole number. -/
theorem exists_whole_ofDigits (digits : List Char) :
    ∃ f, Whole f ∧ ofDigits digits = .ofModel (Float.Model.pack f) := by
  unfold ofDigits nearestDouble
  dsimp only
  split
  · exact exists_whole_ofScientific 0
  · split
    · exact ⟨_, .infinity, rfl⟩
    · split
      · exact exists_whole_ofScientific 0
      · rw [if_pos (Int.le_refl 0)]
        exact exists_whole_ofScientific _

/-- A whole number is a number. -/
theorem Whole.isNaN {f : UnpackedFloat} (h : Whole f) : f.isNaN = false := by
  cases h <;> rfl

/-- A run of digits is read as a number. -/
theorem isNaN_ofDigits (digits : List Char) : (ofDigits digits).isNaN = false := by
  obtain ⟨f, hwhole, hdigits⟩ := exists_whole_ofDigits digits
  rw [hdigits]
  exact hwhole.unpack_pack.isNaN

/-- What is a number is finite or infinite. -/
theorem isFinite_eq {x : Float} (h : x.isNaN = false) : x.isFinite = !x.isInf := by
  show x.toModel.unpack.isFinite = !x.toModel.unpack.isInf
  have hmodel : x.toModel.unpack.isNaN = false := h
  revert hmodel
  cases x.toModel.unpack with
  | infinity s => exact fun _ => rfl
  | notANumber => exact fun h => Bool.noConfusion h
  | zero s => exact fun _ => rfl
  | finite s m e hm => exact fun _ => rfl

end Parley.Number
