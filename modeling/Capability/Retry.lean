/-
  Capability.Retry — attempts that are repeated while there is hope.

  Attempts are numbered from zero. The first that succeeds decides. A failure that may pass
  is announced, followed by a wait and another attempt, until the retries are used up; a
  cancellation during the wait ends everything.
-/

import Capability.Backoff
import Capability.Fault

namespace Capability

/-- What came of repeated attempts, and how many of them were retries. -/
structure Retried (α : Type) where
  outcome : Except Fault α
  retries : Nat

/-- What it takes to attempt something: the attempt of a number, the announcement that the
    attempt of a number follows after a wait, and the wait, which tells whether it was
    cancelled. -/
structure Attempts (m : Type → Type u) (α : Type) where
  attempt : Nat → m (Except Fault α)
  announce : Nat → Duration → m Unit
  pause : Duration → m Bool

/-- Makes the attempt of number `n` and, with `retries` of them left, the next ones. -/
def Attempts.run {m : Type → Type u} [Monad m] {α : Type} (a : Attempts m α) (backoff : Backoff)
    (retries n : Nat) : m (Retried α) := do
  match ← a.attempt n with
  | .ok v => pure ⟨.ok v, n⟩
  | .error fault =>
    match retries with
    | 0 => pure ⟨.error fault, n⟩
    | retries + 1 =>
      if fault.isRetryable then
        let delay := backoff.delay n
        a.announce (n + 1) delay
        if ← a.pause delay then pure ⟨.error .cancelled, n⟩
        else a.run backoff retries (n + 1)
      else pure ⟨.error fault, n⟩

end Capability
