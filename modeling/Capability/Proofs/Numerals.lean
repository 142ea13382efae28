/-
  Capability.Proofs.Numerals — the values of the numbers that conditions are written and computed
  with.

  (1) `toInt?_eq_some_iff`: which whole number a dyadic is, if it is one.
  (2) `numberValue_eq_some_iff`: a number stands for the integer it is, if that is less than
      9 · 10^15 away from zero, and any other finite number for its double.
  (3) `Denotes.exists_unique`: so every finite number stands for one value.
-/

import Mathlib
import Capability.Condition.Number
import Capability.Proofs.Doubles

namespace Capability

/-! ## Whole numbers -/

namespace Decimal

theorem Dyadic.toInt?_eq_some_iff {d : Dyadic} {n : Int} : d.toInt? = some n ↔ d.value = n := by
  obtain ⟨negative, m, e⟩ := d
  obtain ⟨sign, hs, square⟩ : ∃ sign : Int, (if negative then -1 else 1) = sign ∧ sign * sign = 1 :=
    ⟨_, rfl, by cases negative <;> rfl⟩
  have signed : (if negative then -1 else 1 : ℚ) = sign := by
    rw [← hs]
    split <;> simp
  simp only [toInt?, value, hs, signed]
  cases e with
  | ofNat k =>
    rw [Int.ofNat_eq_natCast, if_pos (Int.natCast_nonneg k), Int.natAbs_natCast, zpow_natCast, Option.some.injEq,
      mul_assoc]
    exact_mod_cast Iff.rfl
  | negSucc k =>
    have unit : (2 : ℚ) ^ (k + 1) ≠ 0 := by positivity
    have whole : (sign * m * 2 ^ Int.negSucc k : ℚ) = n ↔ sign * m = n * 2 ^ (k + 1) := by
      rw [zpow_negSucc, mul_inv_eq_iff_eq_mul₀ unit]
      exact_mod_cast Iff.rfl
    rw [if_neg (Int.negSucc_not_nonneg k).mp, Int.natAbs_negSucc, whole]
    by_cases hd : 2 ^ (k + 1) ∣ m
    · obtain ⟨c, rfl⟩ := hd
      rw [if_pos (Nat.dvd_mul_right ..), Nat.mul_div_cancel_left c (Nat.two_pow_pos _), Option.some.injEq]
      push_cast
      rw [mul_left_comm, mul_comm n, mul_right_inj' (by positivity)]
    · -- a number with this value would be what the mantissa is divided by the power
      rw [if_neg hd]
      refine iff_of_false (Option.some_ne_none n).symm fun h => hd ?_
      have multiple : (m : Int) = sign * n * 2 ^ (k + 1) := by
        rw [mul_assoc, ← h, ← mul_assoc, square, one_mul]
      exact_mod_cast Dvd.intro_left _ multiple.symm

end Decimal

/-! ## Numbers as values -/

namespace Condition

open Decimal

variable {x : Float} {v w : Json}

/-- What a number stands for: the integer it is, if it is one that is small enough to be kept, and
    else its double. What is not finite stands for nothing. -/
inductive Denotes (x : Float) : Json → Prop
  | whole {n : Int} : valueOf x = some (n : ℚ) → |n| < 9 * 10 ^ 15 → Denotes x (.int n)
  | other : x.isFinite → (∀ n : Int, valueOf x = some (n : ℚ) → 9 * 10 ^ 15 ≤ |n|) → Denotes x (.float x)

theorem wholeNumber?_eq_some_iff {n : Int} :
    wholeNumber? x = some n ↔ valueOf x = some (n : ℚ) ∧ |n| < 9 * 10 ^ 15 := by
  have small : n.natAbs < 9 * 10 ^ 15 ↔ |n| < 9 * 10 ^ 15 := by
    rw [Int.abs_eq_natAbs]
    omega
  rw [← small, valueOf]
  cases hx : Dyadic.ofFloat x with
  | none => simp [wholeNumber?, hx]
  | some d =>
    rw [Option.map_some, Option.some.injEq, ← Dyadic.toInt?_eq_some_iff]
    cases hd : d.toInt? with
    | none => simp [wholeNumber?, hx, hd]
    | some k =>
      simp only [wholeNumber?, hx, hd, Option.bind_eq_bind, Option.bind_some, Option.some.injEq,
        Option.ite_none_right_eq_some]
      constructor
      · rintro ⟨hk, rfl⟩
        exact ⟨rfl, hk⟩
      · rintro ⟨rfl, hk⟩
        exact ⟨hk, rfl⟩

/-- A number is kept as the value it stands for. -/
theorem numberValue_eq_some_iff : numberValue x = some v ↔ Denotes x v := by
  cases hw : wholeNumber? x with
  | some n =>
    obtain ⟨value, small⟩ := wholeNumber?_eq_some_iff.mp hw
    simp only [numberValue, hw, Option.some.injEq]
    constructor
    · rintro rfl
      exact .whole value small
    · rintro (⟨value', -⟩ | ⟨-, big⟩)
      · rw [value, Option.some.injEq, Int.cast_inj] at value'
        rw [value']
      · exact absurd small (not_lt.mpr (big n value))
  | none =>
    have big (n : Int) (value : valueOf x = some (n : ℚ)) : 9 * 10 ^ 15 ≤ |n| := by
      by_contra small
      rw [wholeNumber?_eq_some_iff.mpr ⟨value, not_le.mp small⟩] at hw
      cases hw
    simp only [numberValue, hw, Option.ite_none_right_eq_some, Option.some.injEq]
    constructor
    · rintro ⟨finite, rfl⟩
      exact .other finite big
    · rintro (⟨value, small⟩ | ⟨finite, -⟩)
      · exact absurd small (not_lt.mpr (big _ value))
      · exact ⟨finite, rfl⟩

theorem Denotes.unique (h : Denotes x v) (h' : Denotes x w) : v = w :=
  Option.some.inj ((numberValue_eq_some_iff.mpr h).symm.trans (numberValue_eq_some_iff.mpr h'))

theorem Denotes.exists_unique (h : x.isFinite) : ∃! v, Denotes x v := by
  refine existsUnique_of_exists_of_unique ?_ fun v w => Denotes.unique
  by_cases hn : ∃ n : Int, valueOf x = some (n : ℚ) ∧ |n| < 9 * 10 ^ 15
  · obtain ⟨n, value, small⟩ := hn
    exact ⟨.int n, .whole value small⟩
  · exact ⟨.float x, .other h fun n value => not_lt.mp fun small => hn ⟨n, value, small⟩⟩

end Condition

end Capability
