import Parley.Proofs.Doubles
import Parley.Proofs.Printing

/-!
# Whole numbers are written with digits only

A whole number lies on the grid of the whole numbers, so its shortest decimal has no fraction, and
its text no point.  So a run of digits is displayed as a run of digits, unless it is infinite.

* `Whole.bits_pack` — the bits of a whole number say that it is one.
* `written_ofDigits` — a run of digits is written with digits only, unless it is infinite.
-/

namespace Parley.Number

open Float.Model Float.Model.UnpackedFloat

/-! ## Bits -/

theorem toNat_packComponents (exponent : BitVec 11) (mantissa : BitVec 52) :
    (packComponents .binary64 .positive exponent mantissa).toNat =
      2 ^ 52 * exponent.toNat + mantissa.toNat := by
  show (0#1 ++ exponent ++ mantissa).toNat = _
  rw [BitVec.toNat_append, BitVec.toNat_append, Nat.two_pow_add_eq_or_of_lt mantissa.isLt,
    Nat.shiftLeft_eq, Nat.mul_comm]
  simp

/-- The bits of a whole number. -/
inductive WholeBits (b : Nat) : Prop
  | zero (h : b = 0)
  | infinity (h : b = 0x7FF0000000000000)
  | finite (pos : 0 < b) (small : b < 0x7FF0000000000000)
      (whole : 2 ^ (-(Dyadic.ofBits b).exponent).toNat ∣ (Dyadic.ofBits b).mantissa)

theorem Whole.bits_pack {f : UnpackedFloat} (h : Whole f) :
    WholeBits (UnpackedFloat.pack .binary64 f).toNat := by
  cases h with
  | zero => exact .zero rfl
  | infinity => exact .infinity rfl
  | @finite m e hbits hlow hwhole pos =>
    obtain ⟨hmin, hmax⟩ := (Nat.log2_eq_iff pos.ne').mp hbits
    rw [pack_finite hbits pos]
    split
    · exact .infinity rfl
    · rw [toNat_packComponents, BitVec.toNat_ofNat, BitVec.toNat_ofNat,
        Nat.mod_eq_of_lt (show (e + 1075).toNat < 2 ^ 11 by omega)]
      generalize hb : 2 ^ 52 * (e + 1075).toNat + m % 2 ^ 52 = b
      have hdouble : (Dyadic.ofBits b).mantissa = m ∧ (Dyadic.ofBits b).exponent = e := by
        simp only [Dyadic.ofBits, Nat.one_shiftLeft]
        rw [if_neg (by omega)]
        constructor <;> dsimp only <;> omega
      refine .finite (by omega) (by omega) ?_
      rw [hdouble.1, hdouble.2]
      exact hwhole

/-! ## Writing -/

/-- **A whole number** is written with digits only, unless it is infinite. -/
theorem written_of_whole {x : Float} (h : WholeBits x.toBits.toNat) :
    (x = infinity ∧ written x = "inf") ∨ ∀ c ∈ (written x).toList, isDigit c = true := by
  cases h with
  | zero h =>
    obtain rfl : x = 0 := eq_of_toBits h
    exact .inr (List.all_eq_true.mp (by decide))
  | infinity h =>
    obtain rfl : x = infinity := eq_of_toBits h
    exact .inl ⟨rfl, rfl⟩
  | finite pos small whole =>
    have hunsigned : x.toBits.toNat % (1 <<< 63) = x.toBits.toNat := by
      rw [Nat.one_shiftLeft]
      exact Nat.mod_eq_of_lt (by omega)
    have htext : written x = (Dyadic.ofBits x.toBits.toNat).shortest.positional := by
      unfold written magnitude
      dsimp only
      rw [hunsigned, if_neg (by omega), if_neg (by rw [Nat.one_shiftLeft]; omega),
        if_neg (by omega), if_neg (by omega)]
    have hpos : 0 < (Dyadic.ofBits x.toBits.toNat).mantissa :=
      Dyadic.mantissa_ofBits_pos (by rw [hunsigned]; exact pos)
    rw [htext, Decimal.positional_of_nonneg (Dyadic.exponent_shortest_nonneg hpos whole),
      String.toList_ofList]
    exact .inr fun _ => isDigit_of_mem_padded

/-- **A run of digits** is written with digits only, unless it is infinite. -/
theorem written_ofDigits (digits : List Char) :
    (ofDigits digits = infinity ∧ written (ofDigits digits) = "inf") ∨
      ∀ c ∈ (written (ofDigits digits)).toList, isDigit c = true := by
  obtain ⟨f, hwhole, hdigits⟩ := exists_whole_ofDigits digits
  rw [hdigits]
  exact written_of_whole hwhole.bits_pack

end Parley.Number
