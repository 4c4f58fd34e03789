import Parley.Number.Written
import Parley.Number.Reading
import Parley.Proofs.Intervals
import Mathlib.Data.List.TakeWhile

/-!
# Numbers are told apart by their texts

A number is written with the shortest decimal that is read as it.  The text of a decimal gives the
decimal back, as far as its value goes: the digits without the point are a number, and the digits
behind the point tell by which power of ten it is divided.  As no decimal is read as two doubles, no
two doubles are written alike, not even those that are no decimals: there is only one that is no
number, and nothing but a sign bit is written as a minus sign.

* `Decimal.halves_positional` — the text of a decimal gives its value back.
* `magnitude_injective` — so doubles without sign are told apart by their texts.
* `written_injective` — no two doubles are written alike.
-/

namespace Parley.Number

open Parley.Number.Dyadic (grid)

/-! ## Digits and points -/

theorem isDigit_of_mem_toDigits {n : Nat} {c : Char} (h : c ∈ Nat.toDigits 10 n) :
    isDigit c = true := by
  have hdigit := Nat.isDigit_of_mem_toDigits (by decide) (by decide) h
  simp only [Char.isDigit, Bool.and_eq_true, decide_eq_true_eq] at hdigit
  simp only [isDigit, Bool.and_eq_true, decide_eq_true_eq]
  exact hdigit

/-- A whole number is written with digits only. -/
theorem isDigit_of_mem_padded {n k : Nat} {c : Char}
    (h : c ∈ Nat.toDigits 10 n ++ List.replicate k '0') : isDigit c = true := by
  obtain h | h := List.mem_append.mp h
  · exact isDigit_of_mem_toDigits h
  · rw [List.eq_of_mem_replicate h]
    rfl

theorem natOfDigits_toDigits (n : Nat) : natOfDigits (Nat.toDigits 10 n) = n :=
  Nat.ofDigitChars_ten_toDigits

theorem natOfDigits_append_zeros (ds : List Char) (n : Nat) :
    natOfDigits (ds ++ List.replicate n '0') = natOfDigits ds * 10 ^ n :=
  (Nat.ofDigitChars_append 0).trans (Nat.ofDigitChars_replicate_zero.trans (Nat.mul_comm _ _))

theorem natOfDigits_zeros_append (ds : List Char) (n : Nat) :
    natOfDigits (List.replicate n '0' ++ ds) = natOfDigits ds := by
  refine (Nat.ofDigitChars_append 0).trans ?_
  rw [Nat.ofDigitChars_replicate_zero]
  rfl

/-- The digits before the point of a text, and those after it. -/
def halves (cs : List Char) : List Char × List Char :=
  (cs.takeWhile isDigit, (cs.dropWhile isDigit).drop 1)

theorem halves_whole {ws : List Char} (h : ∀ c ∈ ws, isDigit c = true) : halves ws = (ws, []) := by
  rw [halves, List.takeWhile_eq_self_iff.mpr h, List.dropWhile_eq_nil_iff.mpr h]
  rfl

theorem halves_point {ws : List Char} (h : ∀ c ∈ ws, isDigit c = true) (fs : List Char) :
    halves (ws ++ '.' :: fs) = (ws, fs) := by
  have hpoint : isDigit '.' = false := rfl
  rw [halves, List.takeWhile_append_of_pos h, List.dropWhile_append_of_pos h,
    List.takeWhile_cons_of_neg (by simp [hpoint]), List.dropWhile_cons_of_neg (by simp [hpoint]),
    List.append_nil]
  rfl

/-- **The text of a decimal** has as many digits after its point as the decimal, and without the
point it is the number of the digits. -/
theorem Decimal.halves_positional (d : Decimal) :
    (halves d.positional.toList).2.length = (-d.exponent).toNat ∧
      natOfDigits ((halves d.positional.toList).1 ++ (halves d.positional.toList).2) =
        d.digits * (grid d.exponent).1 := by
  have hdigits : ∀ c ∈ Nat.toDigits 10 d.digits, isDigit c = true :=
    fun _ => isDigit_of_mem_toDigits
  by_cases hexponent : 0 ≤ d.exponent
  · rw [Decimal.positional_of_nonneg hexponent, String.toList_ofList,
      halves_whole fun _ => isDigit_of_mem_padded, List.append_nil, natOfDigits_append_zeros,
      natOfDigits_toDigits]
    exact ⟨(Int.toNat_of_nonpos (by omega)).symm, rfl⟩
  · have hone : (grid d.exponent).1 = 1 := by
      rw [grid, Int.toNat_of_nonpos (by omega)]
    rw [hone, Nat.mul_one]
    by_cases hplaces : (-d.exponent).toNat < (Nat.toDigits 10 d.digits).length
    · rw [Decimal.positional]
      simp only [hexponent, if_false, hplaces, if_true, String.toList_ofList]
      rw [halves_point fun c hc => hdigits c (List.mem_of_mem_take hc), List.take_append_drop,
        List.length_drop, natOfDigits_toDigits]
      exact ⟨by omega, rfl⟩
    · rw [Decimal.positional]
      simp only [hexponent, if_false, hplaces, String.toList_ofList]
      have hzero : ∀ c ∈ ['0'], isDigit c = true := List.forall_mem_singleton.mpr rfl
      have hsplit : ∀ cs, '0' :: '.' :: cs = ['0'] ++ '.' :: cs := fun _ => rfl
      rw [List.cons_append, List.cons_append, hsplit, halves_point hzero,
        show ['0'] = List.replicate 1 '0' from rfl, natOfDigits_zeros_append,
        natOfDigits_zeros_append, natOfDigits_toDigits, List.length_append, List.length_replicate]
      exact ⟨by omega, rfl⟩

/-- A decimal is written with digits and a point. -/
theorem Decimal.digit_or_point {d : Decimal} {c : Char} (h : c ∈ d.positional.toList) :
    isDigit c = true ∨ c = '.' := by
  have hzero : isDigit '0' = true := rfl
  rw [Decimal.positional] at h
  split at h
  · rw [String.toList_ofList] at h
    exact .inl (isDigit_of_mem_padded h)
  · split at h
    · rw [String.toList_ofList] at h
      obtain h | h := List.mem_append.mp h
      · exact .inl (isDigit_of_mem_toDigits (List.mem_of_mem_take h))
      · obtain rfl | h := List.mem_cons.mp h
        · exact .inr rfl
        · exact .inl (isDigit_of_mem_toDigits (List.mem_of_mem_drop h))
    · rw [String.toList_ofList] at h
      simp only [List.cons_append, List.mem_cons, List.mem_append, List.mem_replicate] at h
      obtain rfl | rfl | ⟨-, rfl⟩ | h := h
      · exact .inl hzero
      · exact .inr rfl
      · exact .inl hzero
      · exact .inl (isDigit_of_mem_toDigits h)

/-- Decimals that are written alike are one number. -/
theorem Decimal.eq_of_positional {d e : Decimal} (h : d.positional = e.positional) :
    d.digits * (grid d.exponent).1 * (grid e.exponent).2 =
      e.digits * (grid e.exponent).1 * (grid d.exponent).2 := by
  have hd := d.halves_positional
  have he := e.halves_positional
  rw [h] at hd
  rw [hd.2.symm.trans he.2, show (grid d.exponent).2 = (grid e.exponent).2 from
    congrArg (Nat.pow 10) (hd.1.symm.trans he.1)]

/-! ## Doubles without their signs -/

/-- The bits of a double without its sign. -/
def unsigned (bits : Nat) : Nat := bits % (1 <<< 63)

theorem magnitude_unsigned (bits : Nat) : magnitude bits = magnitude (unsigned bits) := by
  have hdouble : Dyadic.ofBits bits = Dyadic.ofBits (unsigned bits) := by
    simp only [Dyadic.ofBits, unsigned, Nat.one_shiftLeft]
    rw [show bits % 2 ^ 63 % 2 ^ 52 = bits % 2 ^ 52 by omega,
      show bits % 2 ^ 63 / 2 ^ 52 % 2 ^ 11 = bits / 2 ^ 52 % 2 ^ 11 by omega]
  rw [magnitude, magnitude, hdouble, unsigned, Nat.mod_mod]

/-- What a magnitude is written as. -/
inductive Magnitude (b : Nat) : String → Prop
  | zero (h : b = 0) : Magnitude b "0"
  | infinite (h : b = 0x7FF0000000000000) : Magnitude b "inf"
  | finite (d : Decimal) (h : (Dyadic.ofBits b).holds d.exponent d.digits = true)
      (pos : 0 < d.digits) : Magnitude b d.positional

theorem magnitude_spec {b : Nat} (hb : b < 1 <<< 63) : Magnitude b (magnitude b) := by
  rw [magnitude, Nat.mod_eq_of_lt hb]
  by_cases hzero : b = 0
  · rw [if_pos hzero]
    exact .zero hzero
  · rw [if_neg hzero]
    by_cases hinf : b = 0x7FF0000000000000
    · rw [if_pos hinf]
      exact .infinite hinf
    · rw [if_neg hinf]
      have hpos : 0 < (Dyadic.ofBits b).mantissa :=
        Dyadic.mantissa_ofBits_pos (by rw [Nat.mod_eq_of_lt hb]; omega)
      have hholds := Dyadic.holds_shortest hpos
      exact .finite _ hholds (Dyadic.digits_pos_of_holds (Dyadic.exponent_ofBits b) hpos hholds)

theorem Decimal.positional_ne_zero {d : Decimal} (h : 0 < d.digits) : d.positional ≠ "0" := by
  intro heq
  have hvalue := d.halves_positional.2
  rw [heq] at hvalue
  have hpos := Nat.mul_pos h (Dyadic.grid_pos d.exponent).1
  rw [← hvalue] at hpos
  exact absurd hpos (by decide)

theorem Decimal.positional_ne_inf (d : Decimal) : d.positional ≠ "inf" := by
  intro heq
  have hletter : 'i' ∈ d.positional.toList := heq ▸ by decide
  obtain hdigit | hpoint := Decimal.digit_or_point hletter
  · exact absurd hdigit (by decide)
  · exact absurd hpoint (by decide)

/-- **Magnitudes** that are written alike are one. -/
theorem magnitude_injective {a b : Nat} (ha : a < 1 <<< 63) (hb : b < 1 <<< 63)
    (h : magnitude a = magnitude b) : a = b := by
  have hspec := magnitude_spec ha
  have hspec' := magnitude_spec hb
  rw [h] at hspec
  generalize magnitude b = text at hspec hspec'
  cases hspec with
  | zero hzero =>
    generalize htext : "0" = text at hspec'
    cases hspec' with
    | zero hzero' => rw [hzero, hzero']
    | infinite hinf => exact absurd htext (by decide)
    | finite d hd hpos => exact absurd htext.symm (Decimal.positional_ne_zero hpos)
  | infinite hinf =>
    generalize htext : "inf" = text at hspec'
    cases hspec' with
    | zero hzero => exact absurd htext (by decide)
    | infinite hinf' => rw [hinf, hinf']
    | finite d hd hpos => exact absurd htext.symm (Decimal.positional_ne_inf d)
  | finite d hd hpos =>
    generalize htext : d.positional = text at hspec'
    cases hspec' with
    | zero hzero => exact absurd htext (Decimal.positional_ne_zero hpos)
    | infinite hinf => exact absurd htext (Decimal.positional_ne_inf d)
    | finite e he hpos' =>
      have hvalue := Decimal.eq_of_positional htext
      obtain hlt | heq | hlt := Nat.lt_trichotomy a b
      · exact absurd hvalue (Dyadic.holds_apart hlt hb hd he)
      · exact heq
      · exact absurd hvalue.symm (Dyadic.holds_apart hlt ha he hd)

/-- No magnitude has a minus sign or a letter of `NaN`. -/
theorem magnitude_plain {b : Nat} (hb : b < 1 <<< 63) :
    '-' ∉ (magnitude b).toList ∧ 'N' ∉ (magnitude b).toList := by
  have hspec := magnitude_spec hb
  generalize magnitude b = text at hspec
  cases hspec with
  | zero _ => decide
  | infinite _ => decide
  | finite d _ _ =>
    constructor <;> intro h <;> obtain hdigit | hpoint := Decimal.digit_or_point h
    · cases hdigit
    · exact absurd hpoint (by decide)
    · cases hdigit
    · exact absurd hpoint (by decide)

/-! ## Doubles -/

theorem eq_of_toBits {x y : Float} (h : x.toBits.toNat = y.toBits.toNat) : x = y := by
  obtain ⟨⟨a, ha⟩⟩ := x
  obtain ⟨⟨b, hb⟩⟩ := y
  obtain rfl : a = b := UInt64.toNat_inj.mp h
  rfl

section

open Float.Model Float.Model.UnpackedFloat

theorem toNat_unpackExponent (b : BitVec Format.binary64.numBits) :
    (unpackExponent b).toNat = b.toNat / 2 ^ 52 % 2 ^ 11 := by
  simp only [unpackExponent, BitVec.toNat_cast, BitVec.extractLsb_toNat, Nat.shiftRight_eq_div_pow]

theorem toNat_unpackMantissa (b : BitVec Format.binary64.numBits) :
    (unpackMantissa b).toNat = b.toNat % 2 ^ 52 := by
  simp only [unpackMantissa, BitVec.toNat_cast, BitVec.extractLsb_toNat, Nat.shiftRight_zero]

/-- There is one double that is no number. -/
theorem toBits_of_nan {x : Float} (h : 0x7FF0000000000000 < unsigned x.toBits.toNat) :
    x.toBits.toNat = 0x7FF8000000000000 := by
  have hbits : x.toModel.toBits.toBitVec.toNat = x.toBits.toNat := rfl
  rw [unsigned, Nat.one_shiftLeft] at h
  have hexponent : @unpackExponent .binary64 x.toModel.toBits.toBitVec = -1#_ := by
    apply BitVec.eq_of_toNat_eq
    rw [toNat_unpackExponent, hbits]
    simp
    omega
  have hmantissa : @unpackMantissa .binary64 x.toModel.toBits.toBitVec ≠ 0#_ := by
    intro hzero
    have hnat := congrArg BitVec.toNat hzero
    rw [toNat_unpackMantissa, hbits] at hnat
    simp at hnat
    omega
  rw [← hbits, x.toModel.valid.eq_packedNaN hexponent hmantissa]
  rfl

end

theorem unsigned_lt (bits : Nat) : unsigned bits < 1 <<< 63 := Nat.mod_lt _ (by decide)

theorem written_of_nan {x : Float} (h : 0x7FF0000000000000 < unsigned x.toBits.toNat) :
    written x = "NaN" := if_pos h

/-- A number is written as its magnitude, after a minus sign if its first bit is set. -/
theorem written_of_number {x : Float} (h : ¬0x7FF0000000000000 < unsigned x.toBits.toNat) :
    (written x).toList =
      (if 1 <<< 63 ≤ x.toBits.toNat then ['-'] else []) ++
        (magnitude (unsigned x.toBits.toNat)).toList := by
  rw [← magnitude_unsigned]
  refine (congrArg String.toList (if_neg h)).trans ?_
  split
  · exact String.toList_append
  · rfl

/-- What is written with an `N` is no number. -/
theorem nan_of_written {x : Float} (h : 'N' ∈ (written x).toList) :
    0x7FF0000000000000 < unsigned x.toBits.toNat := by
  by_contra hnumber
  rw [written_of_number hnumber] at h
  obtain hsign | hmagnitude := List.mem_append.mp h
  · split at hsign <;> simp at hsign
  · exact (magnitude_plain (unsigned_lt _)).2 hmagnitude

/-- **Numbers are told apart by their texts**: no two doubles are written alike. -/
theorem written_injective : Function.Injective written := by
  intro x y h
  apply eq_of_toBits
  by_cases hx : 0x7FF0000000000000 < unsigned x.toBits.toNat
  · have hy : 0x7FF0000000000000 < unsigned y.toBits.toNat :=
      nan_of_written (by rw [← h, written_of_nan hx]; decide)
    rw [toBits_of_nan hx, toBits_of_nan hy]
  · have hy : ¬0x7FF0000000000000 < unsigned y.toBits.toNat := fun hy =>
      hx (nan_of_written (by rw [h, written_of_nan hy]; decide))
    have htext := congrArg String.toList h
    rw [written_of_number hx, written_of_number hy] at htext
    have hplain : ∀ z : Float, '-' ∉ (magnitude (unsigned z.toBits.toNat)).toList :=
      fun _ => (magnitude_plain (unsigned_lt _)).1
    have hsame : (1 <<< 63 ≤ x.toBits.toNat ↔ 1 <<< 63 ≤ y.toBits.toNat) := by
      constructor
      · intro hsign
        by_contra hsign'
        rw [if_pos hsign, if_neg hsign', List.nil_append] at htext
        exact hplain y (htext ▸ List.mem_cons_self)
      · intro hsign
        by_contra hsign'
        rw [if_neg hsign', if_pos hsign, List.nil_append] at htext
        exact hplain x (htext.symm ▸ List.mem_cons_self)
    rw [if_congr hsame rfl rfl, List.append_cancel_left_eq] at htext
    have hunsigned :=
      magnitude_injective (unsigned_lt _) (unsigned_lt _) (String.toList_inj.mp htext)
    have hx' := x.toBits.toNat_lt
    have hy' := y.toBits.toNat_lt
    rw [Nat.one_shiftLeft] at hsame
    rw [unsigned, unsigned, Nat.one_shiftLeft] at hunsigned
    omega

end Parley.Number
