/-
  Capability.Proofs.Doubles — the values of doubles: when two are equal, and which one an integer is
  turned into.

  (1) `unpack_of_ofFloat`, `ofFloat_pack`: the exact value of a double is the one its bits are computed
      with, in the one form a double has for it (`Dyadic.IsCanonical`).
  (2) `beq_iff_value_eq`: finite doubles are equal iff their values are.
  (3) `valueOf_ofInt`: an integer of 64 bits is turned into a double at most half a unit of the last
      place away from it, and into its own value up to 2^53.
-/

import Mathlib
import Capability.Decimal.Binary

namespace Capability.Decimal

open Float.Model Float.Model.UnpackedFloat

/-! ## Values -/

/-- The rational number a dyadic stands for. -/
def Dyadic.value (d : Dyadic) : ℚ := (if d.negative then -1 else 1) * d.mantissa * 2 ^ d.exponent

/-- The value of a finite double. -/
def valueOf (x : Float) : Option ℚ := (Dyadic.ofFloat x).map Dyadic.value

/-- The form in which a double holds a value: with all 53 bits, or with the least exponent. -/
structure Dyadic.IsCanonical (d : Dyadic) : Prop where
  fits : d.mantissa < 2 ^ 53
  least : -1074 ≤ d.exponent
  greatest : d.exponent ≤ 971
  full : 2 ^ 52 ≤ d.mantissa ∨ d.exponent = -1074

/-- The sign of a dyadic. -/
def Dyadic.sign (d : Dyadic) : Sign := if d.negative then .negative else .positive

/-! ## Bits -/

theorem toNat_unpackMantissa (b : BitVec 64) :
    (@unpackMantissa Format.binary64 b).toNat = b.toNat % 2 ^ 52 := by
  simp [unpackMantissa]

theorem toNat_unpackExponent (b : BitVec 64) :
    (@unpackExponent Format.binary64 b).toNat = b.toNat / 2 ^ 52 % 2 ^ 11 := by
  simp [unpackExponent, Nat.shiftRight_eq_div_pow]

theorem toNat_unpackSign (b : BitVec 64) :
    (@unpackSign Format.binary64 b).toNat = b.toNat / 2 ^ 63 % 2 := by
  simp [unpackSign, Nat.shiftRight_eq_div_pow]

theorem toNat_append {m n : Nat} (x : BitVec m) (y : BitVec n) : (x ++ y).toNat = x.toNat * 2 ^ n + y.toNat := by
  rw [BitVec.toNat_append, ← Nat.shiftLeft_add_eq_or_of_lt y.isLt, Nat.shiftLeft_eq]

theorem toNat_packComponents (s : Sign) (e : BitVec 11) (m : BitVec 52) :
    (packComponents Format.binary64 s e m).toNat = s.toBitVec.toNat * 2 ^ 63 + e.toNat * 2 ^ 52 + m.toNat := by
  have joined : (packComponents Format.binary64 s e m).toNat = (s.toBitVec ++ e ++ m).toNat := rfl
  rw [joined, toNat_append, toNat_append]
  ring

theorem sign_toNat (d : Dyadic) : d.sign.toBitVec.toNat = if d.negative then 1 else 0 := by
  cases h : d.negative <;> simp [Dyadic.sign, h, Sign.toBitVec]

/-- The exponent that is kept for infinities and for what is no number. -/
theorem reserved_iff (b : BitVec 64) : @unpackExponent Format.binary64 b = -1#_ ↔
    b.toNat / 2 ^ 52 % 2 ^ 11 = 2047 := by
  rw [← toNat_unpackExponent, ← BitVec.toNat_inj]
  rfl

theorem ofBitVec_unpackSign (b : BitVec 64) :
    Sign.ofBitVec (@unpackSign Format.binary64 b) = if 2 ^ 63 ≤ b.toNat then .negative else .positive := by
  have top := toNat_unpackSign b
  have small := b.isLt
  by_cases hb : 2 ^ 63 ≤ b.toNat
  · have one : @unpackSign Format.binary64 b ≠ 0#1 := fun h => by
      rw [h, BitVec.toNat_zero] at top
      omega
    rw [if_pos hb, Sign.ofBitVec, if_neg one]
  · have zero : @unpackSign Format.binary64 b = 0#1 := BitVec.eq_of_toNat_eq (by
      rw [top, BitVec.toNat_zero]
      omega)
    rw [if_neg hb, Sign.ofBitVec, if_pos zero]

/-- What a double with a known value is computed with. -/
theorem unpack_of_ofFloat {x : Float} {d : Dyadic} (h : Dyadic.ofFloat x = some d) :
    d.IsCanonical ∧ x.toModel.unpack = if hm : d.mantissa = 0 then .zero d.sign
      else .finite d.sign d.mantissa d.exponent (Nat.pos_of_ne_zero hm) := by
  have fraction := toNat_unpackMantissa x.toBits.toBitVec
  have scale := toNat_unpackExponent x.toBits.toBitVec
  have sign := ofBitVec_unpackSign x.toBits.toBitVec
  have unpacked : x.toModel.unpack = UnpackedFloat.unpack Format.binary64 x.toBits.toBitVec := rfl
  have bits : x.toBits.toNat = x.toBits.toBitVec.toNat := rfl
  rw [unpacked, UnpackedFloat.unpack]
  simp only [Dyadic.ofFloat, bits] at h
  generalize x.toBits.toBitVec = b at *
  have reserved : @unpackExponent Format.binary64 b = -1#_ ↔ b.toNat / 2 ^ 52 % 2 ^ 11 = 2047 := reserved_iff b
  have subnormal : @unpackExponent Format.binary64 b = 0#_ ↔ b.toNat / 2 ^ 52 % 2 ^ 11 = 0 := by
    rw [← scale, ← BitVec.toNat_inj]
    rfl
  have zero : @unpackMantissa Format.binary64 b = 0#_ ↔ b.toNat % 2 ^ 52 = 0 := by
    rw [← fraction, ← BitVec.toNat_inj]
    rfl
  have below : b.toNat % 2 ^ 52 < 2 ^ 52 := Nat.mod_lt _ (by norm_num)
  have scales : b.toNat / 2 ^ 52 % 2 ^ 11 < 2 ^ 11 := Nat.mod_lt _ (by norm_num)
  have bias : (Format.binary64.exponentBias : Int) + (Format.binary64.mantissaBitsWithoutImplicit : Int) = 1075 := rfl
  by_cases hr : b.toNat / 2 ^ 52 % 2 ^ 11 = 2047
  · rw [if_pos hr] at h
    exact absurd h nofun
  by_cases hs : b.toNat / 2 ^ 52 % 2 ^ 11 = 0
  · rw [if_neg hr, if_pos hs] at h
    obtain rfl := Option.some.inj h
    refine ⟨⟨below.trans (by norm_num), le_rfl, by norm_num, .inr rfl⟩, ?_⟩
    simp only [reserved, subnormal, zero, hs, sign, scale, fraction, bias, Dyadic.sign, decide_eq_true_eq]
    rfl
  · rw [if_neg hr, if_neg hs] at h
    obtain rfl := Option.some.inj h
    refine ⟨⟨by dsimp only; omega, by dsimp only; omega, by dsimp only; omega, .inl (by dsimp only; omega)⟩, ?_⟩
    simp only [reserved, subnormal, hr, hs, sign, scale, fraction, bias, toNat_append, Dyadic.sign, decide_eq_true_eq]
    rw [if_neg not_false, if_neg not_false, dif_neg (by omega)]
    rfl

/-- Finite doubles have a value. -/
theorem exists_ofFloat {x : Float} (h : x.isFinite = true) : ∃ d, Dyadic.ofFloat x = some d := by
  by_cases hr : x.toBits.toNat / 2 ^ 52 % 2 ^ 11 = 2047
  · have unpacked : x.isFinite = (UnpackedFloat.unpack Format.binary64 x.toBits.toBitVec).isFinite := rfl
    rw [unpacked, UnpackedFloat.unpack, if_pos ((reserved_iff _).mpr hr)] at h
    split at h <;> exact absurd h Bool.false_ne_true
  · simp only [Dyadic.ofFloat, if_neg hr]
    split <;> exact ⟨_, rfl⟩

/-- The value in the parts of a double. -/
theorem ofFloat_of_parts {x : Float} {negative : Bool} {scale fraction : Nat} (hs : scale < 2047)
    (hf : fraction < 2 ^ 52)
    (h : x.toBits.toNat = (if negative then 1 else 0) * 2 ^ 63 + scale * 2 ^ 52 + fraction) :
    Dyadic.ofFloat x = some (if scale = 0 then ⟨negative, fraction, -1074⟩
      else ⟨negative, 2 ^ 52 + fraction, (scale : Int) - 1075⟩) := by
  have hscale : x.toBits.toNat / 2 ^ 52 % 2 ^ 11 = scale := by split at h <;> omega
  have hfraction : x.toBits.toNat % 2 ^ 52 = fraction := by split at h <;> omega
  have hsign : decide (2 ^ 63 ≤ x.toBits.toNat) = negative := by cases negative <;> simp at h ⊢ <;> omega
  simp only [Dyadic.ofFloat, hscale, hfraction, hsign, if_neg hs.ne]
  split <;> rfl

/-- A value in the form of a double is held by one. -/
theorem ofFloat_pack {d : Dyadic} (canonical : d.IsCanonical) (hm : 0 < d.mantissa) :
    Dyadic.ofFloat (.ofModel (Float.Model.pack (.finite d.sign d.mantissa d.exponent hm))) = some d := by
  obtain ⟨fits, least, greatest, full⟩ := canonical
  have bits : (Float.ofModel (Float.Model.pack (.finite d.sign d.mantissa d.exponent hm))).toBits.toNat
      = (UnpackedFloat.pack Format.binary64 (.finite d.sign d.mantissa d.exponent hm)).toNat := rfl
  have bias : d.exponent + (Format.binary64.exponentBias : Int) + (Format.binary64.mantissaBitsWithoutImplicit : Int)
      = d.exponent + 1075 := by
    rw [add_assoc]
    rfl
  have small : ¬ 2 ^ Format.binary64.exponentBits ≤ (d.exponent + 1075).toNat + 1 := by
    show ¬ 2 ^ 11 ≤ _
    omega
  rw [UnpackedFloat.pack, bias, if_neg small] at bits
  by_cases hf : 2 ^ 52 ≤ d.mantissa
  · have log : d.mantissa.log2 + 1 = Format.binary64.mantissaBits :=
      congrArg (· + 1) ((Nat.log2_eq_iff hm.ne').mpr ⟨hf, fits⟩)
    have scale : (d.exponent + 1075).toNat % 2 ^ 11 = (d.exponent + 1075).toNat := Nat.mod_eq_of_lt (by omega)
    have fraction : d.mantissa % 2 ^ 52 = d.mantissa - 2 ^ 52 := by omega
    rw [if_pos log, toNat_packComponents, BitVec.toNat_ofNat, BitVec.toNat_ofNat, sign_toNat, scale, fraction] at bits
    rw [ofFloat_of_parts (by omega) (by omega) bits, if_neg (by omega)]
    cases d
    simp only [Option.some.injEq, Dyadic.mk.injEq, true_and] at *
    omega
  · have log : d.mantissa.log2 + 1 ≠ Format.binary64.mantissaBits := fun h =>
      absurd ((Nat.log2_eq_iff hm.ne').mp (Nat.succ.inj h)).1 hf
    have fraction : d.mantissa % 2 ^ 52 = d.mantissa := Nat.mod_eq_of_lt (by omega)
    rw [if_neg log, toNat_packComponents, BitVec.toNat_ofNat, BitVec.toNat_ofNat, sign_toNat, fraction] at bits
    rw [ofFloat_of_parts (by norm_num) (by omega) bits, if_pos rfl, ← full.resolve_left hf]

/-! ## Equality -/

/-- Two numbers with one value, written with different exponents. -/
theorem mantissa_eq {m n k : Nat} {e : Int} (h : (m : ℚ) * 2 ^ e = n * 2 ^ (e + (k : Int))) : m = n * 2 ^ k := by
  rw [zpow_add₀ two_ne_zero, mul_left_comm, mul_comm (m : ℚ)] at h
  have cancelled : (m : ℚ) = n * 2 ^ (k : Int) := mul_left_cancel₀ (zpow_ne_zero e two_ne_zero) h
  exact_mod_cast cancelled

/-- A value has one form in which a double holds it: the exponent cannot be less if all bits are taken. -/
theorem Dyadic.IsCanonical.exponent_le {a b : Dyadic} (ha : a.IsCanonical) (hb : b.IsCanonical)
    (h : (a.mantissa : ℚ) * 2 ^ a.exponent = b.mantissa * 2 ^ b.exponent) : b.exponent ≤ a.exponent := by
  by_contra below
  obtain ⟨k, hk⟩ : ∃ k : Nat, b.exponent = a.exponent + ((k + 1 : Nat) : Int) :=
    ⟨(b.exponent - a.exponent - 1).toNat, by omega⟩
  have full := hb.full.resolve_right (by have := ha.least; omega)
  rw [hk] at h
  have more := mantissa_eq h
  have fits := ha.fits
  rw [pow_succ] at more
  have := Nat.one_le_two_pow (n := k)
  nlinarith

theorem Dyadic.IsCanonical.eq_of_value_eq {a b : Dyadic} (ha : a.IsCanonical) (hb : b.IsCanonical)
    (h : (a.mantissa : ℚ) * 2 ^ a.exponent = b.mantissa * 2 ^ b.exponent) :
    a.exponent = b.exponent ∧ a.mantissa = b.mantissa := by
  have exponents := le_antisymm (hb.exponent_le ha h.symm) (ha.exponent_le hb h)
  refine ⟨exponents, ?_⟩
  rw [exponents] at h
  exact_mod_cast mul_right_cancel₀ (zpow_ne_zero _ two_ne_zero) h

theorem Dyadic.value_eq_zero_iff {d : Dyadic} : d.value = 0 ↔ d.mantissa = 0 := by
  have power : (2 : ℚ) ^ d.exponent ≠ 0 := zpow_ne_zero _ two_ne_zero
  rw [value]
  split <;> simp [power]

theorem Dyadic.value_eq_iff {a b : Dyadic} (ha : a.IsCanonical) (hb : b.IsCanonical) (za : a.mantissa ≠ 0)
    (zb : b.mantissa ≠ 0) :
    a.value = b.value ↔ a.negative = b.negative ∧ a.exponent = b.exponent ∧ a.mantissa = b.mantissa := by
  have size {d : Dyadic} (h : d.mantissa ≠ 0) : (0 : ℚ) < d.mantissa * 2 ^ d.exponent := by positivity
  constructor
  · intro h
    have sizes : a.negative = b.negative ∧
        (a.mantissa : ℚ) * 2 ^ a.exponent = b.mantissa * 2 ^ b.exponent := by
      have ofA := size za
      have ofB := size zb
      rw [value, value, mul_assoc, mul_assoc] at h
      cases hs : a.negative <;> cases hs' : b.negative <;> simp only [hs, hs', if_true, Bool.false_eq_true, if_false] at h
      · exact ⟨rfl, by linarith⟩
      · linarith
      · linarith
      · exact ⟨rfl, by linarith⟩
    exact ⟨sizes.1, ha.eq_of_value_eq hb sizes.2⟩
  · rintro ⟨hs, he, hm⟩
    rw [value, value, hs, he, hm]

/-- Finite doubles are equal iff their values are. -/
theorem beq_iff_value_eq {x y : Float} {a b : Dyadic} (hx : Dyadic.ofFloat x = some a)
    (hy : Dyadic.ofFloat y = some b) : (x == y) = true ↔ a.value = b.value := by
  obtain ⟨ha, ua⟩ := unpack_of_ofFloat hx
  obtain ⟨hb, ub⟩ := unpack_of_ofFloat hy
  have compared : (x == y) = (x.toModel.unpack.compare y.toModel.unpack == some .eq) := rfl
  rw [compared, ua, ub]
  by_cases za : a.mantissa = 0
  · by_cases zb : b.mantissa = 0
    · rw [dif_pos za, dif_pos zb, Dyadic.value_eq_zero_iff.mpr za, Dyadic.value_eq_zero_iff.mpr zb]
      exact iff_of_true rfl rfl
    · rw [dif_pos za, dif_neg zb, Dyadic.value_eq_zero_iff.mpr za, eq_comm (a := (0 : ℚ)), Dyadic.value_eq_zero_iff]
      refine iff_of_false ?_ zb
      cases b.sign <;> exact Bool.false_ne_true
  · by_cases zb : b.mantissa = 0
    · rw [dif_neg za, dif_pos zb, Dyadic.value_eq_zero_iff.mpr zb, Dyadic.value_eq_zero_iff]
      refine iff_of_false ?_ za
      cases a.sign <;> exact Bool.false_ne_true
    · rw [dif_neg za, dif_neg zb, Dyadic.value_eq_iff ha hb za zb, Dyadic.sign, Dyadic.sign]
      cases a.negative <;> cases b.negative <;>
        simp [UnpackedFloat.compare, Ordering.then_eq_eq, Ordering.swap_eq_eq]

/-! ## Rounding -/

/-- The number an extended mantissa is cut from lies where its two last bits say. -/
def Cuts (em : ExtendedMantissa) (x : ℚ) : Prop :=
  match em.roundBit, em.stickyBit with
  | false, false => x = em.mantissa
  | false, true => em.mantissa < x ∧ x < em.mantissa + 1 / 2
  | true, false => x = em.mantissa + 1 / 2
  | true, true => em.mantissa + 1 / 2 < x ∧ x < em.mantissa + 1

variable {em : ExtendedMantissa} {x : ℚ} {m k : Nat} {e : Int}

theorem Cuts.shiftRightOne (h : Cuts em x) : Cuts em.shiftRightOne (x / 2) := by
  obtain ⟨m, r, s⟩ := em
  have halves : (m : ℚ) = 2 * (m / 2 : Nat) + (m % 2 : Nat) := by exact_mod_cast (Nat.div_add_mod m 2).symm
  obtain even | odd := Nat.mod_two_eq_zero_or_one m
  · rw [even] at halves
    cases r <;> cases s <;> simp [Cuts, ExtendedMantissa.shiftRightOne, even] at h ⊢ <;> grind
  · rw [odd] at halves
    cases r <;> cases s <;> simp [Cuts, ExtendedMantissa.shiftRightOne, odd] at h ⊢ <;> grind

theorem cuts_shift (m k : Nat) : Cuts (ExtendedMantissa.mk m false false >>> k) (m / 2 ^ (k : Int)) ∧
    (ExtendedMantissa.mk m false false >>> k).mantissa = m / 2 ^ k := by
  induction k with
  | zero => exact ⟨by simp [Cuts, HShiftRight.hShiftRight, Nat.repeat], by simp [HShiftRight.hShiftRight, Nat.repeat]⟩
  | succ k ih =>
    have once : ExtendedMantissa.mk m false false >>> (k + 1)
        = (ExtendedMantissa.mk m false false >>> k).shiftRightOne := rfl
    have power : (2 : ℚ) ^ ((k + 1 : Nat) : Int) = 2 ^ (k : Int) * 2 := by
      rw [Nat.cast_succ, zpow_add_one₀ two_ne_zero]
    rw [once, power, ← div_div]
    refine ⟨ih.1.shiftRightOne, ?_⟩
    show (ExtendedMantissa.mk m false false >>> k).mantissa / 2 = _
    rw [ih.2, Nat.div_div_eq_div_mul, pow_succ]

/-- The mantissa is rounded to one of the two next to the number, and not to the farther one. -/
theorem Cuts.rounded (h : Cuts em x) : |(em.roundedMantissa : ℚ) - x| ≤ 1 / 2 ∧
    em.mantissa ≤ em.roundedMantissa ∧ em.roundedMantissa ≤ em.mantissa + 1 := by
  obtain ⟨m, r, s⟩ := em
  rw [abs_le]
  cases r <;> cases s <;>
    simp only [Cuts, ExtendedMantissa.roundedMantissa, ExtendedMantissa.accuracy, Accuracy.roundToNearestEven] at h ⊢
  · exact ⟨⟨by linarith, by linarith⟩, by omega, by omega⟩
  · exact ⟨⟨by linarith, by linarith⟩, by omega, by omega⟩
  · obtain even | odd := Nat.mod_two_eq_zero_or_one m
    · rw [even]
      exact ⟨⟨by push_cast; linarith, by push_cast; linarith⟩, by omega, by omega⟩
    · rw [odd]
      exact ⟨⟨by push_cast; linarith, by push_cast; linarith⟩, by omega, by omega⟩
  · exact ⟨⟨by push_cast; linarith, by push_cast; linarith⟩, by omega, by omega⟩

/-- A mantissa is cut to the 53 bits a double has room for. -/
theorem shiftToTargetExponent_exact (hm : m.log2 = 52 + k) (he : -1074 ≤ e + k) :
    shiftToTargetExponent Format.binary64 m e .exact = (ExtendedMantissa.mk m false false >>> k, e + (k : Int)) := by
  have target : Format.binary64.targetExponent (totalExponent m e) = e + k := by
    show max (((m.log2 : Int) + 1 + e) - 53) (-1074) = _
    omega
  have amount : (Format.binary64.targetExponent (totalExponent m e) - e).toNat = k := by omega
  dsimp only [shiftToTargetExponent, shiftToExponent]
  rw [amount]
  rfl

theorem bounds_of_log2 (hm : m.log2 = 52 + k) : 2 ^ 52 ≤ m / 2 ^ k ∧ m / 2 ^ k < 2 ^ 53 := by
  have pos : m ≠ 0 := by
    rintro rfl
    rw [Nat.log2_zero] at hm
    omega
  obtain ⟨low, high⟩ := (Nat.log2_eq_iff pos).mp hm
  rw [Nat.le_div_iff_mul_le (Nat.two_pow_pos k), Nat.div_lt_iff_lt_mul (Nat.two_pow_pos k), ← pow_add, ← pow_add]
  exact ⟨low, by rwa [show 53 + k = 52 + k + 1 by omega]⟩

/-- How a number with more bits than a double has is rounded: to the nearest multiple of its last place. -/
theorem roundWithAccuracy_exact (s : Sign) (hm : m.log2 = 52 + k) (he : -1074 ≤ e + k) :
    ∃ d : Dyadic, d.sign = s ∧ 2 ^ 52 ≤ d.mantissa ∧ d.mantissa < 2 ^ 53 ∧
      (d.exponent = e + k ∨ d.exponent = e + k + 1) ∧
      |(d.mantissa : ℚ) * 2 ^ d.exponent - m * 2 ^ e| ≤ 2 ^ (e + (k : Int)) / 2 ∧
      ∃ pos, roundWithAccuracy Format.binary64 s m e .exact = .finite s d.mantissa d.exponent pos := by
  obtain ⟨negative, rfl⟩ : ∃ negative, Dyadic.sign ⟨negative, 0, 0⟩ = s := by
    cases s
    exacts [⟨true, rfl⟩, ⟨false, rfl⟩]
  obtain ⟨cuts, cut⟩ := cuts_shift m k
  obtain ⟨near, low, high⟩ := cuts.rounded
  obtain ⟨least, most⟩ := bounds_of_log2 hm
  rw [roundWithAccuracy, shiftToTargetExponent_exact hm he]
  rw [cut] at low high
  dsimp only
  generalize (ExtendedMantissa.mk m false false >>> k).roundedMantissa = r at near low high ⊢
  have close : |(r : ℚ) * 2 ^ (e + (k : Int)) - m * 2 ^ e| ≤ 2 ^ (e + (k : Int)) / 2 := by
    have place : (0 : ℚ) < 2 ^ (e + (k : Int)) := zpow_pos two_pos _
    have scaled : (r : ℚ) * 2 ^ (e + (k : Int)) - m * 2 ^ e
        = (r - m / 2 ^ (k : Int)) * 2 ^ (e + (k : Int)) := by
      rw [zpow_add₀ two_ne_zero]
      field_simp
    rw [scaled, abs_mul, abs_of_pos place]
    nlinarith
  obtain fits | full : r < 2 ^ 53 ∨ r = 2 ^ 53 := by omega
  · have log : r.log2 = 52 + 0 := (Nat.log2_eq_iff (by omega)).mpr ⟨by omega, fits⟩
    rw [shiftToTargetExponent_exact log (by simpa using he)]
    refine ⟨⟨negative, r, e + k⟩, rfl, least.trans low, fits, .inl rfl, close, (by omega : 0 < r), ?_⟩
    simp only [(cuts_shift r 0).2, pow_zero, Nat.div_one, Nat.cast_zero, add_zero]
    exact dif_neg (by omega)
  · have log : r.log2 = 52 + 1 := (Nat.log2_eq_iff (by omega)).mpr ⟨by omega, by omega⟩
    rw [shiftToTargetExponent_exact log (by push_cast; omega)]
    refine ⟨⟨negative, 2 ^ 52, e + k + 1⟩, rfl, le_rfl, by norm_num, .inr rfl, ?_, by norm_num, ?_⟩
    · rw [zpow_add_one₀ two_ne_zero]
      convert close using 3
      rw [full]
      push_cast
      ring
    · have halved : (ExtendedMantissa.mk r false false >>> 1).mantissa = 2 ^ 52 := by
        rw [(cuts_shift r 1).2, full]
        norm_num
      simp only [halved, Nat.cast_one]
      exact dif_neg (by norm_num)

/-! ## Integers -/

theorem Dyadic.value_of_sign (d : Dyadic) : d.value = d.sign.apply d.mantissa * 2 ^ d.exponent := by
  cases h : d.negative <;> simp [value, sign, h, Sign.apply]

/-- A positive number that takes all 53 bits, with an exponent up to a bound. -/
structure Dyadic.IsNormal (d : Dyadic) (top : Int) : Prop where
  sign : d.sign = .positive
  full : 2 ^ 52 ≤ d.mantissa
  exponent_le : d.exponent ≤ top

/-- The double a number with enough bits is rounded to, which is the number itself if a double can hold it. -/
theorem ofFloat_round {m k : Nat} {e : Int} (hm : m.log2 = 52 + k) (least : -1074 ≤ e + k) (most : e + k ≤ 970) :
    ∃ d : Dyadic, Dyadic.ofFloat (.ofModel (Float.Model.pack (roundWithAccuracy Format.binary64 .positive m e .exact)))
      = some d ∧ d.IsNormal (e + k + 1) ∧ |d.value - m * 2 ^ e| ≤ 2 ^ (e + (k : Int)) / 2 ∧
      (2 ^ k ∣ m → d.value = m * 2 ^ e) := by
  obtain ⟨d, sign, low, high, exponent, close, pos, rounded⟩ := roundWithAccuracy_exact .positive hm least
  have canonical : d.IsCanonical := ⟨high, by omega, by omega, .inl low⟩
  have value : d.value = d.mantissa * 2 ^ d.exponent := by
    rw [Dyadic.value_of_sign, sign]
    rfl
  rw [← value] at close
  refine ⟨d, ?_, ⟨sign, low, by omega⟩, close, fun ⟨c, hc⟩ => ?_⟩
  · rw [rounded, ← sign]
    exact ofFloat_pack canonical pos
  · -- both are multiples of the last place, and less than one apart
    have place : (0 : ℚ) < 2 ^ (e + (k : Int)) := zpow_pos two_pos _
    have held : (m : ℚ) * 2 ^ e = c * 2 ^ (e + (k : Int)) := by
      rw [zpow_add₀ two_ne_zero, hc, zpow_natCast]
      push_cast
      ring
    obtain ⟨z, hz⟩ : ∃ z : Int, d.value = z * 2 ^ (e + (k : Int)) := by
      obtain he | he := exponent
      · exact ⟨d.mantissa, by rw [value, he]; norm_cast⟩
      · exact ⟨d.mantissa * 2, by rw [value, he, zpow_add_one₀ two_ne_zero]; push_cast; ring⟩
    rw [held, hz, ← sub_mul, abs_mul, abs_of_pos place, mul_comm, ← mul_one_div,
      mul_le_mul_iff_right₀ place] at close
    have apart : |((z - c : Int) : ℚ)| < 1 := by
      push_cast
      linarith
    have none : z - c = 0 := Int.abs_lt_one_iff.mp (by exact_mod_cast apart)
    rw [hz, held, sub_eq_zero.mp none]
    norm_cast

theorem log2_mul_two_pow {n : Nat} (pos : 0 < n) (k : Nat) : (n * 2 ^ k).log2 = n.log2 + k := by
  induction k with
  | zero => rw [pow_zero, mul_one, add_zero]
  | succ k ih =>
    rw [pow_succ', mul_left_comm, Nat.log2_two_mul (by positivity), ih]
    rfl

theorem mul_two_pow_sub {n : Nat} {k : Nat} : ((n * 2 ^ k : Nat) : ℚ) * 2 ^ (-(k : Int)) = n := by
  push_cast
  rw [zpow_neg, zpow_natCast, mul_assoc, mul_inv_cancel₀ (pow_ne_zero k two_ne_zero), mul_one]

/-- A natural number with 53 bits or less is turned into a double by way of 64 bits. -/
theorem ofFloat_toFloat {n : UInt64} (pos : 0 < n.toNat) (small : n.toNat < 2 ^ 53) :
    ∃ d : Dyadic, Dyadic.ofFloat n.toFloat = some d ∧ d.IsNormal 1 ∧ d.value = n.toNat := by
  have made : n.toFloat = .ofModel (Float.Model.pack (UnpackedFloat.normalize Format.binary64 n.toNat 0 .positive)) := rfl
  have signed : compare (n.toNat : Int) 0 = .gt := by
    rw [compare_gt_iff_gt]
    omega
  rw [made, UnpackedFloat.normalize, signed]
  generalize n.toNat = n at *
  have log : n.log2 < 53 := (Nat.log2_lt pos.ne').mpr small
  have target : Format.binary64.targetExponent (totalExponent n 0) = -((52 - n.log2 : Nat) : Int) := by
    show max (((n.log2 : Int) + 1 + 0) - 53) (-1074) = _
    omega
  have shifted : round Format.binary64 .positive (n : Int).toNat 0
      = roundWithAccuracy Format.binary64 .positive (n * 2 ^ (52 - n.log2)) (-((52 - n.log2 : Nat) : Int)) .exact := by
    rw [Int.toNat_natCast, UnpackedFloat.round, target]
    simp only [decreaseExponent, zero_sub, neg_neg, Int.toNat_natCast, Nat.shiftLeft_eq]
  have wide : (n * 2 ^ (52 - n.log2)).log2 = 52 + 0 := by
    rw [log2_mul_two_pow pos]
    omega
  obtain ⟨d, hd, normal, -, same⟩ := ofFloat_round wide (e := -((52 - n.log2 : Nat) : Int)) (by omega) (by omega)
  refine ⟨d, ?_, ⟨normal.sign, normal.full, normal.exponent_le.trans (by omega)⟩, ?_⟩
  · simp only [shifted]
    exact hd
  · rw [same (by simp), mul_two_pow_sub]

/-- A double with all bits times one is the same number. -/
theorem ofFloat_mul_one {x : Float} {d : Dyadic} {top : Int} (h : Dyadic.ofFloat x = some d) (normal : d.IsNormal top)
    (ht : top ≤ 970) :
    ∃ d' : Dyadic, Dyadic.ofFloat (x * Float.ofBits 0x3FF0000000000000) = some d' ∧ d'.IsNormal (top + 1) ∧
      d'.value = d.value := by
  obtain ⟨sign, full, bound⟩ := normal
  obtain ⟨canonical, unpacked⟩ := unpack_of_ofFloat h
  rw [dif_neg (by omega), sign] at unpacked
  have one : (Float.ofBits 0x3FF0000000000000).toModel.unpack = .finite .positive (2 ^ 52) (-52) (by norm_num) := rfl
  have product : x * Float.ofBits 0x3FF0000000000000 = .ofModel (Float.Model.pack
      (UnpackedFloat.mul Format.binary64 x.toModel.unpack (Float.ofBits 0x3FF0000000000000).toModel.unpack)) := rfl
  have log : d.mantissa.log2 = 52 := (Nat.log2_eq_iff (by omega)).mpr ⟨full, canonical.fits⟩
  have wide : (d.mantissa * 2 ^ 52).log2 = 52 + 52 := by
    rw [log2_mul_two_pow (by omega), log]
  have least := canonical.least
  obtain ⟨d', hd', normal', -, same⟩ := ofFloat_round wide (e := d.exponent + -52) (by omega) (by omega)
  refine ⟨d', ?_, ⟨normal'.sign, normal'.full, normal'.exponent_le.trans (by omega)⟩, ?_⟩
  · rw [product, unpacked, one]
    exact hd'
  · rw [same (Nat.dvd_mul_left ..), Dyadic.value_of_sign, sign, zpow_add₀ two_ne_zero, mul_comm (2 ^ d.exponent : ℚ),
      ← mul_assoc]
    exact congrArg (· * _) (mul_two_pow_sub (k := 52))

/-- Half a unit of the last place is little beside the number. -/
theorem near_of_half_unit {n : Nat} {q : ℚ} (pos : 0 < n)
    (close : |q - n| ≤ 2 ^ (-((53 : Nat) : Int) + ((n.log2 + 1 : Nat) : Int)) / 2) : 2 ^ 53 * |q - n| ≤ n := by
  have low : ((2 ^ n.log2 : Nat) : ℚ) ≤ n := by exact_mod_cast Nat.log2_self_le pos.ne'
  have unit : (2 : ℚ) ^ (-((53 : Nat) : Int) + ((n.log2 + 1 : Nat) : Int)) / 2 = (2 ^ n.log2 : Nat) / 2 ^ 53 := by
    rw [zpow_add₀ two_ne_zero, zpow_neg, zpow_natCast, zpow_natCast]
    push_cast
    ring
  rw [unit, le_div_iff₀ (by norm_num)] at close
  linarith

/-- The double of a natural number of 64 bits. -/
theorem ofFloat_ofNat {n : Nat} (pos : 0 < n) (bound : n < 2 ^ 64) :
    ∃ d : Dyadic, Dyadic.ofFloat (Float.ofNat n) = some d ∧ d.IsNormal 971 ∧ 2 ^ 53 * |d.value - n| ≤ n ∧
      (n ≤ 2 ^ 53 → d.value = n) := by
  have scientific : Float.ofNat n = Float.ofScientific n false 0 := rfl
  rw [scientific, Float.ofScientific]
  by_cases small : n < 2 ^ 53
  · rw [dif_pos ⟨small, Nat.zero_le _⟩]
    have cast : n.toUInt64.toNat = n := Nat.mod_eq_of_lt bound
    obtain ⟨d, hd, normal, value⟩ := ofFloat_toFloat (n := n.toUInt64) (by omega) (by omega)
    obtain ⟨d', hd', normal', value'⟩ := ofFloat_mul_one hd normal (by norm_num)
    rw [value, cast] at value'
    refine ⟨d', hd', ⟨normal'.sign, normal'.full, normal'.exponent_le.trans (by norm_num)⟩, ?_, fun _ => value'⟩
    rw [value', sub_self, abs_zero, mul_zero]
    exact Nat.cast_nonneg n
  · rw [dif_neg fun h => small h.1]
    have low : ¬ (0 : Int) < -((2 ^ Format.binary64.exponentBits : Int) + n.log2) := by
      have : (0 : Int) ≤ 2 ^ Format.binary64.exponentBits := by positivity
      omega
    have high : ¬ (0 : Int) > 2 ^ Format.binary64.exponentBits := by
      have : (0 : Int) ≤ 2 ^ Format.binary64.exponentBits := by positivity
      omega
    have product : UnpackedFloat.ofScientific Format.binary64 n 0
        = roundWithAccuracy Format.binary64 .positive (n * 2 ^ 53) (-((53 : Nat) : Int)) .exact := by
      simp only [UnpackedFloat.ofScientific, dif_neg pos.ne', if_neg high, if_neg low, if_pos (le_refl (0 : Int)),
        UnpackedFloat.mul, Int.toNat_zero, pow_zero, mul_one, add_zero, Nat.shiftLeft_eq]
      rfl
    have log : 53 ≤ n.log2 ∧ n.log2 < 64 := ⟨(Nat.le_log2 pos.ne').mpr (by omega), (Nat.log2_lt pos.ne').mpr bound⟩
    have wide : (n * 2 ^ 53).log2 = 52 + (n.log2 + 1) := by
      rw [log2_mul_two_pow pos]
      omega
    obtain ⟨d, hd, normal, close, same⟩ := ofFloat_round wide (e := -((53 : Nat) : Int)) (by omega) (by omega)
    rw [mul_two_pow_sub] at close same
    refine ⟨d, ?_, ⟨normal.sign, normal.full, normal.exponent_le.trans (by omega)⟩, ?_, fun top => ?_⟩
    · rw [← product] at hd
      exact hd
    · exact near_of_half_unit pos close
    · obtain rfl : n = 2 ^ 53 := by omega
      exact same (by decide +kernel)

theorem ofFloat_neg {x : Float} {d : Dyadic} (h : Dyadic.ofFloat x = some d) (pos : 0 < d.mantissa) :
    Dyadic.ofFloat x.neg = some { d with negative := !d.negative } := by
  obtain ⟨canonical, unpacked⟩ := unpack_of_ofFloat h
  rw [dif_neg pos.ne'] at unpacked
  have made : x.neg = .ofModel (Float.Model.pack x.toModel.unpack.neg) := rfl
  have sign : -d.sign = Dyadic.sign { d with negative := !d.negative } := by
    cases hd : d.negative <;> simp only [Dyadic.sign, hd] <;> rfl
  rw [made, unpacked, UnpackedFloat.neg, sign]
  exact ofFloat_pack (d := { d with negative := !d.negative })
    ⟨canonical.fits, canonical.least, canonical.greatest, canonical.full⟩ pos

theorem Dyadic.value_neg (d : Dyadic) : Dyadic.value { d with negative := !d.negative } = -d.value := by
  cases h : d.negative <;> simp [value, h]

/-- The double an integer of 64 bits is turned into. -/
theorem valueOf_ofInt {n : Int} (h : n.natAbs < 2 ^ 64) : ∃ q : ℚ, valueOf (Float.ofInt n) = some q ∧
    2 ^ 53 * |q - n| ≤ |(n : ℚ)| ∧ (n.natAbs ≤ 2 ^ 53 → q = n) := by
  match n with
  | .ofNat 0 =>
    have zero : Dyadic.ofFloat (Float.ofInt (.ofNat 0)) = some ⟨false, 0, -1074⟩ := by decide +kernel
    refine ⟨0, ?_, by simp, fun _ => by simp⟩
    rw [valueOf, zero, Option.map_some, Dyadic.value_eq_zero_iff.mpr rfl]
  | .ofNat (k + 1) =>
    obtain ⟨d, hd, -, near, same⟩ := ofFloat_ofNat k.succ_pos h
    have cast : ((Int.ofNat (k + 1) : Int) : ℚ) = (k + 1 : Nat) := Int.cast_natCast _
    refine ⟨d.value, congrArg (Option.map Dyadic.value) hd, ?_, fun top => cast ▸ same top⟩
    rwa [cast, Nat.abs_cast]
  | .negSucc k =>
    obtain ⟨d, hd, normal, near, same⟩ := ofFloat_ofNat k.succ_pos h
    have negated := ofFloat_neg hd (Nat.lt_of_lt_of_le (by norm_num) normal.full)
    have cast : ((Int.negSucc k : Int) : ℚ) = -(k + 1 : Nat) := Int.cast_negSucc k
    refine ⟨-d.value, ?_, ?_, fun top => ?_⟩
    · rw [← Dyadic.value_neg]
      exact congrArg (Option.map Dyadic.value) negated
    · rwa [cast, abs_neg, Nat.abs_cast, neg_sub_neg, abs_sub_comm]
    · rw [cast, same top]

end Capability.Decimal
