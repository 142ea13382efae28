/-
  Capability.Context — the variables of a run and the history of its steps.

  A branch of a run works on a fork: the same variables, an empty history, and nothing
  written yet. Merging the branch back carries over the variables it wrote, and only
  those, so that the last of several merged branches that wrote a variable decides it.

  (1) `lookup_set`: a variable that is set has its new value, the others keep theirs.
  (2) `history_merge`: the steps of a branch stand behind those before it.
-/

import Capability.Duration

namespace Capability

open Json Json.Decode

/-- How far a step has come. -/
inductive StepStatus where
  | pending
  | running
  | completed
  | failed
  | skipped
  | waiting
  deriving DecidableEq, Repr, Inhabited

namespace StepStatus

def name : StepStatus → String
  | .pending => "pending"
  | .running => "running"
  | .completed => "completed"
  | .failed => "failed"
  | .skipped => "skipped"
  | .waiting => "waiting"

/-- The name of a status in progress reports. -/
def title : StepStatus → String
  | .pending => "Pending"
  | .running => "Running"
  | .completed => "Completed"
  | .failed => "Failed"
  | .skipped => "Skipped"
  | .waiting => "Waiting"

def ofName? (name : String) : Option StepStatus :=
  [pending, running, completed, failed, skipped, waiting].find? (·.name = name)

def decoder : Decoder StepStatus := constant ofName?

/-- Whether the step is over. -/
def isFinished : StepStatus → Bool
  | .completed | .failed | .skipped => true
  | _ => false

theorem isFinished_iff {s : StepStatus} : s.isFinished = true ↔ s = .completed ∨ s = .failed ∨ s = .skipped := by
  cases s <;> simp [isFinished]

end StepStatus

/-- An entry of the history. -/
structure Step where
  node : String
  status : StepStatus := .pending
  result : Option Json := none
  error : Option String := none
  fallbackUsed : Bool := false
  retryCount : Nat := 0
  durationMs : Nat := 0
  /-- Whether it was closed because a cancellation interrupted it; documents do not show it. -/
  interrupted : Bool := false
  deriving Inhabited

/-- How much effort the user wants. -/
inductive PreferredDepth where
  | quick
  | balanced
  | thorough
  deriving DecidableEq, Repr, Inhabited

namespace PreferredDepth

def name : PreferredDepth → String
  | .quick => "quick"
  | .balanced => "balanced"
  | .thorough => "thorough"

def ofName? (name : String) : Option PreferredDepth :=
  [quick, balanced, thorough].find? (·.name = name)

def decoder : Decoder PreferredDepth := constant ofName?

end PreferredDepth

/-- Variables and history of one scope. -/
structure Context where
  intent : String := ""
  availableTime : Option Duration := none
  depth : PreferredDepth := .balanced
  vars : Keyed Json := []
  history : List Step := []
  /-- The variables written since the scope was created or forked. -/
  written : List String := []
  deriving Inhabited

namespace Context

def get? (c : Context) (key : String) : Option Json := c.vars.lookup key

/-- Writes a variable. -/
def set (c : Context) (key : String) (value : Json) : Context :=
  { c with vars := c.vars.insert key value, written := c.written.insert key }

/-- Writes several variables. -/
def apply (c : Context) (updates : Keyed Json) : Context :=
  updates.foldl (fun c p => c.set p.1 p.2) c

/-- Appends a step. -/
def push (c : Context) (s : Step) : Context := { c with history := c.history ++ [s] }

/-- Changes the step at a position, if there is one. -/
def modifyStep (c : Context) (index : Nat) (f : Step → Step) : Context :=
  { c with history := c.history.modify index f }

/-- The scope of a branch that starts here. -/
def fork (c : Context) : Context := { c with history := [], written := [] }

/-- Carries over a variable of a branch, if the branch has it. -/
def carry (branch c : Context) (key : String) : Context :=
  match branch.get? key with
  | some v => c.set key v
  | none => c

/-- Carries over what a branch wrote, and appends its history. -/
def merge (c branch : Context) : Context :=
  let c := branch.written.foldl branch.carry c
  { c with history := c.history ++ branch.history }

/-- Appends the history of a branch whose writes are dropped. -/
def absorb (c branch : Context) : Context := { c with history := c.history ++ branch.history }

theorem lookup_set (c : Context) (key key' : String) (value : Json) :
    (c.set key value).get? key' = if key' = key then some value else c.get? key' :=
  Keyed.lookup_insert key key' value c.vars

@[simp] theorem history_set (c : Context) (key : String) (value : Json) :
    (c.set key value).history = c.history := rfl

/-- The step at the end of a history is found at the position at which it was begun. -/
theorem modify_last (steps : List Step) (e : Step) (f : Step → Step) :
    (steps ++ [e]).modify steps.length f = steps ++ [f e] := by
  induction steps with
  | nil => rfl
  | cons s steps ih => simp [ih]

@[simp] theorem history_carry (branch c : Context) (key : String) : (branch.carry c key).history = c.history := by
  unfold carry
  split <;> rfl

theorem history_merge (c branch : Context) : (c.merge branch).history = c.history ++ branch.history := by
  have fold : ∀ keys : List String, ∀ c : Context, (keys.foldl branch.carry c).history = c.history := by
    intro keys
    induction keys with
    | nil => exact fun _ => rfl
    | cons key keys ih => exact fun c => (ih _).trans (history_carry branch c key)
  simp only [merge, fold]

end Context

/-! ## Documents -/

/-- A step without its point in time. -/
def Step.toJson (s : Step) : Json :=
  .obj [("node_id", .str s.node), ("status", .str s.status.name), ("result", ofOption s.result),
    ("error", ofText? s.error), ("fallback_used", .bool s.fallbackUsed),
    ("retry_count", ofNat s.retryCount), ("duration_ms", ofNat s.durationMs)]

end Capability
