/-
  Capability.Proofs.Waits — how the waits between attempts grow.

  Under an exponential policy a wait is the one before it, doubled, and a longest wait is never
  exceeded. The number of doublings is counted up to 31 only. So the waits follow the powers of two
  to the end just when 31 doublings come to the longest wait, or when there is nothing to double;
  otherwise they stop growing below it.

  (1) `nanos_delay`: a wait is exact to the nanosecond, since what is beyond the longest duration is
      also beyond the longest wait.
  (2) `nanos_delay_eq_iff`: where it is the power of two that its number says.
  (3) `waits_double_31_times`: so which policies reach their longest wait.
-/

import Capability.Backoff
import Mathlib.Order.Lattice

namespace Capability

theorem Duration.nanos_scale (d : Duration) (factor : Nat) :
    (d.scale factor).nanos = min (d.nanos * factor) Duration.longest := rfl

theorem Duration.nanos_atMost (d bound : Duration) : (d.atMost bound).nanos = min d.nanos bound.nanos := by
  unfold Duration.atMost
  split <;> omega

namespace Backoff

/-- No wait overflows: a product that is cut off at the longest duration is cut off at the longest
    wait anyway. -/
theorem nanos_delay (base max : Duration) (n : Nat) :
    ((exponential base max).delay n).nanos = min (base.nanos * 2 ^ min n mostDoublings) max.nanos := by
  have bounded : max.nanos ≤ Duration.longest := max.le_longest
  show ((base.scale (2 ^ min n mostDoublings)).atMost max).nanos = _
  rw [Duration.nanos_atMost, Duration.nanos_scale]
  omega

/-- Behind the last doubling, a wait is as long as its number says just when it could not grow any
    more. -/
theorem nanos_delay_eq_iff (base max : Duration) (n : Nat) :
    ((exponential base max).delay n).nanos = min (base.nanos * 2 ^ n) max.nanos ↔
      n ≤ mostDoublings ∨ base.nanos = 0 ∨ max.nanos ≤ base.nanos * 2 ^ mostDoublings := by
  rw [nanos_delay]
  by_cases early : n ≤ mostDoublings
  · simp [early]
  · have last : min n mostDoublings = mostDoublings := by omega
    rw [last]
    simp only [early, false_or]
    by_cases still : base.nanos = 0
    · simp [still]
    · have grown : 0 < base.nanos * 2 ^ mostDoublings := Nat.mul_pos (by omega) (by decide)
      have further : base.nanos * 2 ^ mostDoublings * 2 ≤ base.nanos * 2 ^ n := by
        rw [Nat.mul_assoc, ← Nat.pow_succ]
        exact Nat.mul_le_mul_left _ (Nat.pow_le_pow_right (by decide) (by omega))
      omega

theorem delay_monotone (base max : Duration) : Monotone fun n => ((exponential base max).delay n).nanos := by
  intro m n hmn
  show ((exponential base max).delay m).nanos ≤ ((exponential base max).delay n).nanos
  rw [nanos_delay, nanos_delay]
  have fewer : base.nanos * 2 ^ min m mostDoublings ≤ base.nanos * 2 ^ min n mostDoublings :=
    Nat.mul_le_mul_left _ (Nat.pow_le_pow_right (by decide) (by omega))
  omega

/-- The longest wait is reached by the last doubling or not at all. -/
theorem settles_iff (base max : Duration) :
    (∃ last, ∀ n, last ≤ n → ((exponential base max).delay n).nanos = max.nanos) ↔
      max.nanos ≤ base.nanos * 2 ^ mostDoublings := by
  have late {n : Nat} (hn : mostDoublings ≤ n) :
      ((exponential base max).delay n).nanos = min (base.nanos * 2 ^ mostDoublings) max.nanos := by
    rw [nanos_delay, Nat.min_eq_right hn]
  constructor
  · intro ⟨last, h⟩
    have reached := h (last + mostDoublings) (by omega)
    rw [late (by omega)] at reached
    omega
  · intro h
    refine ⟨mostDoublings, fun n hn => ?_⟩
    rw [late hn]
    omega

/-- The default policy is not cut short: its waits are doubled until they are thirty seconds long. -/
theorem default_nanos_delay (n : Nat) :
    (Backoff.default.delay n).nanos = min (500 * 10 ^ 6 * 2 ^ n) (30 * 10 ^ 9) :=
  (nanos_delay_eq_iff (.ofMillis 500) (.ofMillis 30000) n).mpr (.inr (.inr (by decide)))

/-- Under every exponential policy, the wait after the attempt with the number `n`, counted from zero,
    is the base times the `n`-th power of two, or the longest wait if that is less, where `n` counts as
    31 if it is greater. A wait behind that follows the powers of two only if the base is zero or 31
    doublings of it come to the longest wait. The waits never get shorter, and just if 31 doublings come
    to the longest wait do they reach it for good. -/
theorem waits_double_31_times (base max : Duration) :
    (∀ n, ((exponential base max).delay n).nanos = min (base.nanos * 2 ^ min n 31) max.nanos) ∧
      (∀ n, ((exponential base max).delay n).nanos = min (base.nanos * 2 ^ n) max.nanos ↔
        n ≤ 31 ∨ base.nanos = 0 ∨ max.nanos ≤ base.nanos * 2 ^ 31) ∧
      Monotone (fun n => ((exponential base max).delay n).nanos) ∧
      ((∃ last, ∀ n, last ≤ n → ((exponential base max).delay n).nanos = max.nanos) ↔
        max.nanos ≤ base.nanos * 2 ^ 31) :=
  ⟨nanos_delay base max, nanos_delay_eq_iff base max, delay_monotone base max, settles_iff base max⟩

/-- A nanosecond is not doubled a 32nd time, although 30 seconds are allowed, and never waits that
    long. -/
theorem a_nanosecond_stops_growing :
    ((exponential (.ofNanos 1) (.ofMillis 30000)).delay 32).nanos ≠ min (1 * 2 ^ 32) (30 * 10 ^ 9) ∧
      0 < (Duration.ofNanos 1).nanos ∧
      ¬∃ last, ∀ n, last ≤ n → ((exponential (.ofNanos 1) (.ofMillis 30000)).delay n).nanos = 30 * 10 ^ 9 := by
  refine ⟨by decide, by decide, fun settled => ?_⟩
  have enough := (settles_iff (.ofNanos 1) (.ofMillis 30000)).mp settled
  exact absurd enough (by decide)

end Backoff

end Capability
