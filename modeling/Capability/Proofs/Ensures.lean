/-
  Capability.Proofs.Ensures — what is certain of the end of a process.

  A process ensures something if it is true of everything the process can end with, whatever
  is replied to its requests and whoever wins its splits. `J` tells how its splits may join.

  (1) `Course.ensured`: what a process ensures is true at the end of each of its courses.
  (2) `Process.ensures_bind`, `Walk.ensures_bind`: what comes first ensures what comes next.
  (3) `Walk.ensures_finishStep`, `Walk.ensures_cancelStep`: what is certain once a step is closed.
-/

import Capability.Execution.Run
import Capability.Proofs.Course

namespace Capability.Execution

variable {J : Joining → Prop}

theorem ok_of_toOption {ε α : Type*} {r : Except ε α} {a : α} (h : r.toOption = some a) : r = .ok a := by
  cases r with
  | ok a' => exact congrArg Except.ok (Option.some.inj h)
  | error => cases h

/-! ## Processes -/

/-- Everything a process can end with satisfies `Q`, and its splits join as `J` allows. -/
def Process.Ensures (J : Joining → Prop) : {α : Type} → Process α → (α → Prop) → Prop
  | _, .done a, Q => Q a
  | _, .ask _ next, Q => ∀ r, (next r).Ensures J Q
  | _, .split joining count branch next, Q =>
    J joining ∧ ∃ P : Fin count → Outcome → Prop, (∀ i, (branch i).Ensures J (P i)) ∧
      ∀ outcomes winner, (∀ i, P i (outcomes i)) → (next ⟨List.ofFn outcomes, winner⟩).Ensures J Q

theorem Process.Ensures.mono {α : Type} {p : Process α} {Q Q' : α → Prop} (h : p.Ensures J Q)
    (hQ : ∀ a, Q a → Q' a) : p.Ensures J Q' := by
  induction p with
  | done a => exact hQ a h
  | ask q next ih => exact fun r => ih r (h r) hQ
  | split joining count branch next _ ih =>
    obtain ⟨hj, P, hP, hn⟩ := h
    exact ⟨hj, P, hP, fun os w ho => ih _ (hn os w ho) hQ⟩

theorem Process.ensures_bind {α β : Type} {p : Process α} {f : α → Process β} {Q : β → Prop} :
    (p.bind f).Ensures J Q ↔ p.Ensures J fun a => (f a).Ensures J Q := by
  induction p with
  | done a => rfl
  | ask q next ih => exact forall_congr' fun r => ih r
  | split joining count branch next _ ih =>
    simp only [bind, Ensures, ih]

/-! ## Courses -/

/-- Everything that can become of a standing satisfies `Q`. Nobody wins a split that waits for
    all of its branches. -/
def Standing.Ensures (J : Joining → Prop) : {α : Type} → Standing α → (α → Prop) → Prop
  | _, .at p, Q => p.Ensures J Q
  | _, .calling _ _ next, Q => ∀ a, (next a).Ensures J Q
  | _, .fork joining count branches winner next, Q =>
    J joining ∧ (joining = .all → winner = none) ∧
      ∃ P : Fin count → Outcome → Prop, (∀ i, (branches i).Ensures J (P i)) ∧
      ∀ outcomes winner, (∀ i, P i (outcomes i)) → (next ⟨List.ofFn outcomes, winner⟩).Ensures J Q
  | _, .finished a, Q => Q a

theorem Move.ensures {limit : Nat} {α : Type} {b : Bool} {s s' : Standing α} {w w' : Shared} {act : Act}
    (h : Move limit b s w act s' w') {Q : α → Prop} (hs : s.Ensures J Q) : s'.Ensures J Q := by
  induction h with
  | visit | stopped | notify | skip | pause | cut => exact hs _
  | call | finish => exact hs
  | answer | expire | interrupt => exact hs _
  | «open» =>
    obtain ⟨hj, P, hP, hn⟩ := hs
    exact ⟨hj, fun _ => rfl, P, hP, hn⟩
  | @branch _ _ _ _ joining _ _ winner _ i _ t hm ih =>
    obtain ⟨hj, hw, P, hP, hn⟩ := hs
    refine ⟨hj, fun e => ?_, P, fun j => ?_, hn⟩
    · subst e
      cases t <;> exact hw rfl
    · by_cases e : j = i
      · subst e; simpa using ih (hP j)
      · simpa [Function.update_of_ne e] using hP j
  | gather outcomes ho =>
    obtain ⟨-, -, P, hP, hn⟩ := hs
    exact hn outcomes _ fun i => by simpa [ho i, Standing.Ensures] using hP i

theorem Course.ensures {limit : Nat} {α : Type} {b : Bool} {s s' : Standing α} {w w' : Shared} {acts : List Act}
    (h : Course limit b s w acts s' w') {Q : α → Prop} (hs : s.Ensures J Q) : s'.Ensures J Q := by
  induction h with
  | stay => exact hs
  | move hm _ ih => exact ih (hm.ensures hs)
  | elsewhere _ _ _ ih => exact ih hs

/-- What a process ensures is true of whatever one of its courses ends with. -/
theorem Course.ensured {limit : Nat} {α : Type} {b : Bool} {p : Process α} {a : α} {w w' : Shared}
    {acts : List Act} (h : Course limit b (.at p) w acts (.finished a) w') {Q : α → Prop}
    (hp : p.Ensures J Q) : Q a :=
  h.ensures (s := .at p) hp

/-- What comes to be over was done before. -/
theorem Course.done_of_over {limit : Nat} {α : Type} {b : Bool} {p : Process α} {a : α} {w w' : Shared}
    {acts : List Act} (h : Course limit b (.at p) w acts (.finished a) w') :
    ∃ acts' w₁, Course limit b (.at p) w acts' (.at (.done a)) w₁ := by
  rw [← Process.bind_pure p] at h
  obtain ⟨a', acts₁, acts₂, w₁, rfl, h₁, h₂⟩ := h.split_bind
  obtain rfl : a = a' := h₂.ensured (J := fun _ => True) (Q := (· = a')) rfl
  exact ⟨acts₁, w₁, h₁⟩

/-! ## Walks -/

namespace Walk

variable {α β : Type} {s : Scope}

/-- The process of a walk from a scope. -/
def process (w : Walk α) (s : Scope) : Process (Except Halt α × Scope) := StateT.run (ExceptT.run w) s

/-- Everything a walk from a scope can come to satisfies `Q`. -/
def Ensures (J : Joining → Prop) (w : Walk α) (s : Scope) (Q : Except Halt α → Scope → Prop) : Prop :=
  (w.process s).Ensures J fun p => Q p.1 p.2

theorem process_bind (w : Walk α) (f : α → Walk β) (s : Scope) :
    (w >>= f).process s = (w.process s).bind fun p =>
      match p.1 with
      | .ok a => (f a).process p.2
      | .error h => .done (.error h, p.2) := by
  show Process.bind _ _ = Process.bind _ _
  congr 1
  funext p
  obtain ⟨_ | _, _⟩ := p <;> rfl

theorem process_lift (p : Process α) (s : Scope) :
    process (ExceptT.lift (StateT.lift p)) s = p.bind fun a => .done (.ok a, s) := by
  show (p.bind _).bind _ = _
  rw [Process.bind_assoc]
  rfl

theorem Ensures.mono {w : Walk α} {Q Q' : Except Halt α → Scope → Prop} (h : w.Ensures J s Q)
    (hQ : ∀ r s', Q r s' → Q' r s') : w.Ensures J s Q' :=
  Process.Ensures.mono h fun p => hQ p.1 p.2

theorem ensures_bind {w : Walk α} {f : α → Walk β} {Q : Except Halt β → Scope → Prop} :
    (w >>= f).Ensures J s Q ↔ w.Ensures J s fun r s' =>
      match r with
      | .ok a => (f a).Ensures J s' Q
      | .error h => Q (.error h) s' := by
  unfold Ensures
  rw [process_bind, Process.ensures_bind]
  constructor <;> intro h <;> refine h.mono fun p hp => ?_ <;> obtain ⟨_ | _, _⟩ := p <;> exact hp

@[simp] theorem ensures_pure {a : α} {Q : Except Halt α → Scope → Prop} :
    (pure a : Walk α).Ensures J s Q ↔ Q (.ok a) s := Iff.rfl

@[simp] theorem ensures_map {w : Walk α} {f : α → β} {Q : Except Halt β → Scope → Prop} :
    (f <$> w).Ensures J s Q ↔ w.Ensures J s fun r s' => Q (r.map f) s' := by
  rw [map_eq_pure_bind, ensures_bind]
  constructor <;> intro h <;> refine h.mono fun r s' hr => ?_ <;> cases r <;> exact hr

@[simp] theorem ensures_throw {h : Halt} {Q : Except Halt α → Scope → Prop} :
    (throw h : Walk α).Ensures J s Q ↔ Q (.error h) s := Iff.rfl

@[simp] theorem ensures_get {Q : Except Halt Scope → Scope → Prop} :
    (get : Walk Scope).Ensures J s Q ↔ Q (.ok s) s := Iff.rfl

@[simp] theorem ensures_modify {f : Scope → Scope} {Q : Except Halt Unit → Scope → Prop} :
    (modify f : Walk Unit).Ensures J s Q ↔ Q (.ok ()) (f s) := Iff.rfl

@[simp] theorem ensures_request {q : Request} {Q : Except Halt q.Reply → Scope → Prop} :
    (request q).Ensures J s Q ↔ ∀ r, Q (.ok r) s := Iff.rfl

@[simp] theorem ensures_notify {n : Notice} {Q : Except Halt Unit → Scope → Prop} :
    (notify n).Ensures J s Q ↔ Q (.ok ()) s :=
  ⟨fun h => h (), fun h _ => h⟩

@[simp] theorem ensures_emit {e : Event} {Q : Except Halt Unit → Scope → Prop} :
    (emit e).Ensures J s Q ↔ Q (.ok ()) s := ensures_notify

theorem ensures_split {joining : Joining} {branches : List (Walk Flow)} {fork : Scope}
    {Q : Except Halt Gathered → Scope → Prop} (hj : J joining) (P : Outcome → Prop)
    (hP : ∀ b ∈ branches, b.Ensures J fork fun r s' => P ⟨r, s'⟩)
    (hQ : ∀ outcomes winner, outcomes.length = branches.length → (∀ o ∈ outcomes, P o) →
      Q (.ok ⟨outcomes, winner⟩) s) :
    (split joining branches fork).Ensures J s Q := by
  refine ⟨hj, fun _ => P, fun i => ?_, fun os winner ho => hQ _ _ (by simp) ?_⟩
  · exact Process.ensures_bind.mpr (hP _ (List.getElem_mem i.isLt))
  · intro o h
    obtain ⟨i, rfl⟩ := List.mem_ofFn.mp h
    exact ho i

/-! ## Steps -/

@[simp] theorem ensures_beginStep {n : Node} {Q : Except Halt OpenStep → Scope → Prop} :
    (beginStep n).Ensures J s Q ↔ Q (.ok (s.nextStep n.id)) (s.beginStep n.id) := by
  simp [beginStep, ensures_bind, Except.map]

@[simp] theorem ensures_announceEnd {n : Node} {status : StepStatus} {Q : Except Halt Unit → Scope → Prop} :
    (announceEnd n status).Ensures J s Q ↔ Q (.ok ()) s := by
  simp [announceEnd, ensures_bind]

@[simp] theorem ensures_finishStep {n : Node} {step : OpenStep} {status : StepStatus} {report : StepReport}
    {Q : Except Halt Unit → Scope → Prop} :
    (finishStep n step status report).Ensures J s Q ↔ Q (.ok ()) (s.finishStep step status report) := by
  simp [finishStep, ensures_bind]

@[simp] theorem ensures_cancelStep {n : Node} {step : OpenStep} {Q : Except Halt α → Scope → Prop} :
    (cancelStep n step).Ensures J s Q ↔ Q (.error .cancelled) (s.cancelStep step) := by
  simp [cancelStep, ensures_bind]

@[simp] theorem ensures_failStep {n : Node} {step : OpenStep} {report : StepReport} {fault : Fault}
    {Q : Except Halt α → Scope → Prop} :
    (failStep n step report fault).Ensures J s Q ↔
      Q (.error (.failed n.id fault))
        (s.finishStep step .failed { report with error := some fault.message }) := by
  simp [failStep, ensures_bind]

@[simp] theorem ensures_passThrough {n : Node} {Q : Except Halt Unit → Scope → Prop} :
    (passThrough n).Ensures J s Q ↔
      Q (.ok ()) ((s.beginStep n.id).finishStep (s.nextStep n.id) .completed {}) := by
  simp [passThrough, ensures_bind]

end Walk

end Capability.Execution
