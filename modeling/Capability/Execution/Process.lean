/-
  Capability.Execution.Process — what a run does, as a tree of requests.

  A process is finished, or makes a request and goes on according to the reply, or splits
  into branches and goes on according to what became of them. It says nothing about who
  answers, how long an answer takes, or which branch moves first.
-/

import Capability.Event
import Capability.Interaction
import Capability.Skill

namespace Capability.Execution

/-- Why a strand of a run stopped without an error. -/
inductive Flow where
  /-- An end node was completed. -/
  | ended
  /-- A node was reached at which somebody else goes on. -/
  | boundary (id : String)
  /-- A node had no successor to go to. -/
  | deadEnd
  deriving DecidableEq, Repr, Inhabited

/-- Why a strand of a run was broken off. -/
inductive Halt where
  | cancelled
  | failed (node : String) (fault : Fault)
  deriving DecidableEq, Repr, Inhabited

/-- The scope of a branch that is over, and how it ended. -/
structure Outcome where
  ending : Except Halt Flow
  scope : Scope
  deriving Inhabited

/-- Something that is answered from outside: an attempt at a skill, or a question. -/
inductive Call where
  | skill (i : Invocation)
  | question (q : Question)
  deriving Inhabited

/-- How a call ends. -/
inductive Answer where
  | given (outcome : Except Fault Json)
  /-- The time limit of the call passed first. -/
  | timedOut
  /-- The run was cancelled first. -/
  | cancelled
  deriving Inhabited

inductive Request where
  /-- Counts the dispatch of a node; answered by whether the run may still make it. -/
  | visit
  /-- Asks whether the run is cancelled. -/
  | stopped
  | notify (n : Notice)
  | call (c : Call) (limit : Option Duration)
  /-- Waits; answered by whether a cancellation ended the wait. -/
  | pause (d : Duration)

def Request.Reply : Request → Type
  | .visit => Bool
  | .stopped => Bool
  | .notify _ => Unit
  | .call _ _ => Answer
  | .pause _ => Bool

/-- What becomes of branches that run side by side. -/
inductive Joining where
  /-- All of them are waited for. -/
  | all
  /-- The first that ends without being broken off wins, and the others are cancelled. -/
  | first
  deriving DecidableEq, Repr, Inhabited

/-- The outcomes of branches in the order of their declaration, and which one won. -/
structure Gathered where
  outcomes : List Outcome
  winner : Option Nat
  deriving Inhabited

/-- A process that ends with an `α`. -/
inductive Process : Type → Type 1 where
  | done {α : Type} (a : α) : Process α
  | ask {α : Type} (q : Request) (next : q.Reply → Process α) : Process α
  | split {α : Type} (joining : Joining) (count : Nat) (branch : Fin count → Process Outcome)
      (next : Gathered → Process α) : Process α

namespace Process

instance {α : Type} [Inhabited α] : Inhabited (Process α) := ⟨.done default⟩

/-- Goes on with another process when the first one is done. -/
def bind {α β : Type} : Process α → (α → Process β) → Process β
  | .done a, f => f a
  | .ask q next, f => .ask q fun r => (next r).bind f
  | .split joining count branch next, f => .split joining count branch fun g => (next g).bind f

instance : Monad Process where
  pure := .done
  bind := bind

@[simp] theorem bind_done {α β : Type} (a : α) (f : α → Process β) : (done a).bind f = f a := rfl

theorem bind_assoc {α β γ : Type} (p : Process α) (f : α → Process β) (g : β → Process γ) :
    (p.bind f).bind g = p.bind fun a => (f a).bind g := by
  induction p with
  | done a => rfl
  | ask q next ih => simp only [bind]; congr; funext r; exact ih r f
  | split joining count branch next _ ih => simp only [bind]; congr; funext g; exact ih g f

theorem bind_pure {α : Type} (p : Process α) : p.bind .done = p := by
  induction p with
  | done a => rfl
  | ask q next ih => simp only [bind]; congr; funext r; exact ih r
  | split joining count branch next _ ih => simp only [bind]; congr; funext g; exact ih g

instance : LawfulMonad Process := .mk' Process bind_pure (fun _ _ => rfl) bind_assoc

/-- A process that makes one request. -/
def request (q : Request) : Process q.Reply := .ask q .done

end Process

end Capability.Execution
