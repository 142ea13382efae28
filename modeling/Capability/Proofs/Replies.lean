/-
  Capability.Proofs.Replies — what is certain of the end of a process, and of all its branches,
  when it is known which answers were given.

  A process secures something if it is true of everything the process can end with as long as
  its calls are answered in one of the ways that are allowed. Whatever ends in one of its
  branches, and in theirs, satisfies one condition of its own. Nobody wins a split that waits
  for all of its branches.

  (1) `Course.secured`, `Standing.Secures.ended`: what is secured is true of every strand that has
      ended, at every moment of every course with such answers.
  (2) `Process.Ensures.secures`: what is ensured without a split is secured.
  (3) `Walk.Finds`: walks that only note conditions and come to a value, with what is certain of
      that value.
-/

import Capability.Proofs.Growth

namespace Capability.Execution

/-- What happens, in whichever branch. -/
def Act.core : Act → Act
  | .within _ act => act.core
  | act => act

/-- The answers that may be given to calls. -/
abbrev Replies := Call → Option Duration → Answer → Prop

/-- Every answer to a call in an act is an allowed one. -/
def Act.Keeps (R : Replies) (act : Act) : Prop :=
  ∀ k l a cancels, act.core = .answered k l a cancels → R k l a

def Request.Admits (R : Replies) : (q : Request) → q.Reply → Prop
  | .call k l, a => R k l a
  | .visit, _ | .stopped, _ | .notify _, _ | .pause _, _ => True

variable {R : Replies} {E : Outcome → Prop}

/-! ## Processes -/

/-- With allowed answers, everything a process can end with satisfies `Q`, and everything its
    branches can end with satisfies `E`. -/
def Process.Secures (R : Replies) (E : Outcome → Prop) : {α : Type} → Process α → (α → Prop) → Prop
  | _, .done a, Q => Q a
  | _, .ask q next, Q => ∀ r, q.Admits R r → (next r).Secures R E Q
  | _, .split joining count branch next, Q =>
    (∀ i, (branch i).Secures R E E) ∧
      ∀ (outcomes : Fin count → Outcome) winner, (joining = .all → winner = none) → (∀ i, E (outcomes i)) →
        (next ⟨List.ofFn outcomes, winner⟩).Secures R E Q

theorem Process.Secures.mono {α : Type} {p : Process α} {Q Q' : α → Prop} (h : p.Secures R E Q)
    (hQ : ∀ a, Q a → Q' a) : p.Secures R E Q' := by
  induction p with
  | done a => exact hQ a h
  | ask q next ih => exact fun r hr => ih r (h r hr) hQ
  | split joining count branch next _ ih => exact ⟨h.1, fun os w hw ho => ih _ (h.2 os w hw ho) hQ⟩

theorem Process.secures_bind {α β : Type} {p : Process α} {f : α → Process β} {Q : β → Prop} :
    (p.bind f).Secures R E Q ↔ p.Secures R E fun a => (f a).Secures R E Q := by
  induction p with
  | done a => rfl
  | ask q next ih => exact forall_congr' fun r => imp_congr_right fun _ => ih r
  | split joining count branch next _ ih => simp only [bind, Secures, ih]

/-- What a process without splits ensures, it secures. -/
theorem Process.Ensures.secures {α : Type} {p : Process α} {Q : α → Prop} (h : p.Ensures (fun _ => False) Q) :
    p.Secures R E Q := by
  induction p with
  | done a => exact h
  | ask q next ih => exact fun r _ => ih r (h r)
  | split joining count branch next _ _ => exact h.1.elim

/-! ## Courses -/

/-- With allowed answers, everything that can become of a standing satisfies `Q`, and everything
    that can become of its branches `E`. -/
def Standing.Secures (R : Replies) (E : Outcome → Prop) : {α : Type} → Standing α → (α → Prop) → Prop
  | _, .at p, Q => p.Secures R E Q
  | _, .calling k l next, Q => ∀ a, R k l a → (next a).Secures R E Q
  | _, .fork joining count branches winner next, Q =>
    (joining = .all → winner = none) ∧ (∀ i, (branches i).Secures R E E) ∧
      ∀ (outcomes : Fin count → Outcome) winner, (joining = .all → winner = none) → (∀ i, E (outcomes i)) →
        (next ⟨List.ofFn outcomes, winner⟩).Secures R E Q
  | _, .finished a, Q => Q a

/-- A strand that has ended with an outcome, or one of its branches has. -/
inductive Standing.Ended (o : Outcome) : Standing Outcome → Prop
  | here : Ended o (.finished o)
  | branch {joining : Joining} {count : Nat} {branches : Fin count → Standing Outcome} {winner : Option Nat}
      {next : Gathered → Process Outcome} (i : Fin count) :
      Ended o (branches i) → Ended o (.fork joining count branches winner next)

theorem Standing.Secures.ended {t : Standing Outcome} {Q : Outcome → Prop} (h : t.Secures R E Q) {o : Outcome}
    (ho : t.Ended o) : Q o ∨ E o := by
  induction ho generalizing Q with
  | here => exact .inl h
  | branch i _ ih => exact .inr ((ih (h.2.1 i)).elim id id)

section Courses

variable {limit : Nat} {α : Type} {b : Bool} {s s' : Standing α} {w w' : Shared} {Q : α → Prop}

theorem Move.secures {act : Act} (h : Move limit b s w act s' w') (ha : act.Keeps R) (hs : s.Secures R E Q) :
    s'.Secures R E Q := by
  induction h with
  | visit | stopped | notify | pause | cut => exact hs _ trivial
  | call | finish => exact hs
  | skip k l next | answer k l next | interrupt k l next => exact hs _ (ha k l _ _ rfl)
  | expire k d next => exact hs _ (ha k (some d) _ _ rfl)
  | «open» => exact ⟨fun _ => rfl, hs.1, hs.2⟩
  | @branch _ _ _ _ joining _ _ winner _ i _ t hm ih =>
    obtain ⟨hw, hP, hn⟩ := hs
    refine ⟨fun e => ?_, fun j => ?_, hn⟩
    · subst e
      cases t <;> exact hw rfl
    · by_cases e : j = i
      · subst e; simpa using ih ha (hP j)
      · simpa [Function.update_of_ne e] using hP j
  | gather outcomes ho =>
    obtain ⟨hw, hP, hn⟩ := hs
    exact hn outcomes _ hw fun i => by simpa [ho i, Standing.Secures] using hP i

theorem Course.secures {acts : List Act} (h : Course limit b s w acts s' w') (ha : ∀ act ∈ acts, act.Keeps R)
    (hs : s.Secures R E Q) : s'.Secures R E Q := by
  induction h with
  | stay => exact hs
  | move hm _ ih => exact ih (fun act h => ha act (.tail _ h)) (hm.secures (ha _ (.head _)) hs)
  | elsewhere _ _ _ ih => exact ih (fun act h => ha act (.tail _ h)) hs

/-- What a process secures is true of whatever one of its courses ends with. -/
theorem Course.secured {p : Process α} {a : α} {acts : List Act} (h : Course limit b (.at p) w acts (.finished a) w')
    (ha : ∀ act ∈ acts, act.Keeps R) (hp : p.Secures R E Q) : Q a :=
  h.secures ha hp

/-- A call runs out of time only if it has a limit. -/
theorem Move.limited {act : Act} (h : Move limit b s w act s' w') {k : Call} {l : Option Duration} {cancels : Bool}
    (ha : act.core = .answered k l .timedOut cancels) : ∃ d, l = some d := by
  induction h with
  | expire k d next => cases ha; exact ⟨d, rfl⟩
  | branch i _ ih => exact ih ha
  | _ => cases ha

theorem Course.limited {acts : List Act} (h : Course limit b s w acts s' w') {act : Act} (hact : act ∈ acts) {k : Call}
    {l : Option Duration} {cancels : Bool} (ha : act.core = .answered k l .timedOut cancels) : ∃ d, l = some d := by
  induction h with
  | stay => cases hact
  | move hm _ ih =>
    cases hact with
    | head => exact hm.limited ha
    | tail _ hact => exact ih hact
  | elsewhere _ _ _ ih =>
    cases hact with
    | head => cases ha
    | tail _ hact => exact ih hact

end Courses

/-! ## Walks -/

namespace Walk

variable {α β : Type} {s : Scope}

/-- With allowed answers, everything a walk from a scope can come to satisfies `Q`. -/
def Secures (R : Replies) (E : Outcome → Prop) (w : Walk α) (s : Scope) (Q : Except Halt α → Scope → Prop) : Prop :=
  (w.process s).Secures R E fun p => Q p.1 p.2

theorem Secures.mono {w : Walk α} {Q Q' : Except Halt α → Scope → Prop} (h : w.Secures R E s Q)
    (hQ : ∀ r s', Q r s' → Q' r s') : w.Secures R E s Q' :=
  Process.Secures.mono h fun p => hQ p.1 p.2

theorem secures_bind {w : Walk α} {f : α → Walk β} {Q : Except Halt β → Scope → Prop} :
    (w >>= f).Secures R E s Q ↔ w.Secures R E s fun r s' =>
      match r with
      | .ok a => (f a).Secures R E s' Q
      | .error h => Q (.error h) s' := by
  unfold Secures
  rw [process_bind, Process.secures_bind]
  constructor <;> intro h <;> refine h.mono fun p hp => ?_ <;> obtain ⟨_ | _, _⟩ := p <;> exact hp

/-- What a walk without splits ensures, it secures. -/
theorem Ensures.secures {w : Walk α} {Q : Except Halt α → Scope → Prop} (h : w.Ensures (fun _ => False) s Q) :
    w.Secures R E s Q :=
  Process.Ensures.secures h

@[simp] theorem secures_pure {a : α} {Q : Except Halt α → Scope → Prop} :
    (pure a : Walk α).Secures R E s Q ↔ Q (.ok a) s := Iff.rfl

@[simp] theorem secures_map {w : Walk α} {f : α → β} {Q : Except Halt β → Scope → Prop} :
    (f <$> w).Secures R E s Q ↔ w.Secures R E s fun r s' => Q (r.map f) s' := by
  rw [map_eq_pure_bind, secures_bind]
  constructor <;> intro h <;> refine h.mono fun r s' hr => ?_ <;> cases r <;> exact hr

@[simp] theorem secures_throw {h : Halt} {Q : Except Halt α → Scope → Prop} :
    (throw h : Walk α).Secures R E s Q ↔ Q (.error h) s := Iff.rfl

@[simp] theorem secures_get {Q : Except Halt Scope → Scope → Prop} :
    (get : Walk Scope).Secures R E s Q ↔ Q (.ok s) s := Iff.rfl

@[simp] theorem secures_modify {f : Scope → Scope} {Q : Except Halt Unit → Scope → Prop} :
    (modify f : Walk Unit).Secures R E s Q ↔ Q (.ok ()) (f s) := Iff.rfl

@[simp] theorem secures_notify {n : Notice} {Q : Except Halt Unit → Scope → Prop} :
    (notify n).Secures R E s Q ↔ Q (.ok ()) s :=
  ⟨fun h => h () trivial, fun h _ _ => h⟩

@[simp] theorem secures_emit {e : Event} {Q : Except Halt Unit → Scope → Prop} :
    (emit e).Secures R E s Q ↔ Q (.ok ()) s := secures_notify

@[simp] theorem secures_beginStep {n : Node} {Q : Except Halt OpenStep → Scope → Prop} :
    (beginStep n).Secures R E s Q ↔ Q (.ok (s.nextStep n.id)) (s.beginStep n.id) := by
  simp [beginStep, secures_bind, Except.map]

@[simp] theorem secures_announceEnd {n : Node} {status : StepStatus} {Q : Except Halt Unit → Scope → Prop} :
    (announceEnd n status).Secures R E s Q ↔ Q (.ok ()) s := by
  simp [announceEnd, secures_bind]

@[simp] theorem secures_finishStep {n : Node} {step : OpenStep} {status : StepStatus} {report : StepReport}
    {Q : Except Halt Unit → Scope → Prop} :
    (finishStep n step status report).Secures R E s Q ↔ Q (.ok ()) (s.finishStep step status report) := by
  simp [finishStep, secures_bind]

@[simp] theorem secures_cancelStep {n : Node} {step : OpenStep} {Q : Except Halt α → Scope → Prop} :
    (cancelStep n step).Secures R E s Q ↔ Q (.error .cancelled) (s.cancelStep step) := by
  simp [cancelStep, secures_bind]

@[simp] theorem secures_failStep {n : Node} {step : OpenStep} {report : StepReport} {fault : Fault}
    {Q : Except Halt α → Scope → Prop} :
    (failStep n step report fault).Secures R E s Q ↔
      Q (.error (.failed n.id fault))
        (s.finishStep step .failed { report with error := some fault.message }) := by
  simp [failStep, secures_bind]

theorem secures_split {joining : Joining} {branches : List (Walk Flow)} {fork : Scope}
    {Q : Except Halt Gathered → Scope → Prop} (hE : ∀ b ∈ branches, b.Secures R E fork fun r s' => E ⟨r, s'⟩)
    (hQ : ∀ outcomes winner, (joining = .all → winner = none) → (∀ o ∈ outcomes, E o) →
      Q (.ok ⟨outcomes, winner⟩) s) :
    (split joining branches fork).Secures R E s Q := by
  refine ⟨fun i => Process.secures_bind.mpr (hE _ (List.getElem_mem i.isLt)), fun os winner hw ho => hQ _ _ hw ?_⟩
  intro o h
  obtain ⟨i, rfl⟩ := List.mem_ofFn.mp h
  exact ho i

/-- The walk is not broken off, does nothing to its scope but note conditions, and what it comes
    to satisfies `P` if it is given allowed answers. -/
def Finds (R : Replies) (w : Walk α) (P : α → Prop) : Prop :=
  ∀ E s, w.Secures R E s fun r s' => (∃ a, r = .ok a ∧ P a) ∧ ∃ fs, s' = s.noting fs

variable {P P' : α → Prop}

theorem Finds.secures {w : Walk α} (h : w.Finds R P) {Q : Except Halt α → Scope → Prop}
    (hQ : ∀ a fs, P a → Q (.ok a) (s.noting fs)) : w.Secures R E s Q := by
  refine (h E s).mono fun r s' hr => ?_
  obtain ⟨⟨a, rfl, ha⟩, fs, rfl⟩ := hr
  exact hQ a fs ha

theorem Finds.secures_bind {w : Walk α} (h : w.Finds R P) {f : α → Walk β} {Q : Except Halt β → Scope → Prop}
    (hf : ∀ a fs, P a → (f a).Secures R E (s.noting fs) Q) : (w >>= f).Secures R E s Q :=
  Walk.secures_bind.mpr (h.secures hf)

theorem Notes.finds {w : Walk α} (h : w.Notes) : w.Finds R fun _ => True :=
  fun _ s => (h.ensures (J := fun _ => False) fun a fs => ⟨⟨a, rfl, trivial⟩, fs, rfl⟩).secures (s := s)

theorem Finds.pure {a : α} (h : P a) : (pure a : Walk α).Finds R P := fun _ _ => ⟨⟨a, rfl, h⟩, [], by simp⟩

theorem Finds.mono {w : Walk α} (h : w.Finds R P) (hP : ∀ a, P a → P' a) : w.Finds R P' :=
  fun _ _ => h.secures fun a fs ha => ⟨⟨a, rfl, hP a ha⟩, fs, rfl⟩

theorem Finds.bind {w : Walk α} (h : w.Finds R P) {f : α → Walk β} {P' : β → Prop} (hf : ∀ a, P a → (f a).Finds R P') :
    (w >>= f).Finds R P' := by
  intro E s
  refine h.secures_bind fun a fs ha => (hf a ha).secures fun b gs hb => ⟨⟨b, rfl, hb⟩, fs ++ gs, by simp⟩

theorem Finds.ite {c : Prop} [Decidable c] {w w' : Walk α} (h : c → w.Finds R P) (h' : ¬c → w'.Finds R P) :
    (if c then w else w').Finds R P := by
  split
  · exact h ‹_›
  · exact h' ‹_›

theorem Finds.call (node : String) (k : Call) (l : Option Duration) :
    (Execution.call node k l).Finds R fun outcome => ∃ a, R k l a ∧ outcome = a.outcome node l :=
  fun _ _ a ha => ⟨⟨_, rfl, a, ha, rfl⟩, [], by simp⟩

theorem firstWhere_finds {test : α → Walk Bool} (h : ∀ a, (test a).Notes) :
    ∀ as, (firstWhere test as).Finds R fun r => ∀ a, r = some a → a ∈ as
  | [] => .pure (by simp)
  | a :: as => .bind (h a).finds fun _ _ => .ite (fun _ => .pure (by simp)) fun _ =>
      (firstWhere_finds h as).mono fun _ hr b hb => .tail _ (hr b hb)

theorem keepWhere_finds {test : α → Walk Bool} (h : ∀ a, (test a).Notes) :
    ∀ as, (keepWhere test as).Finds R fun r => ∀ a ∈ r, a ∈ as
  | [] => .pure (by simp)
  | a :: as => .bind (h a).finds fun kept _ => .bind (keepWhere_finds h as) fun others ho => by
      refine .pure fun b hb => ?_
      cases kept with
      | true =>
        cases hb with
        | head => exact .head _
        | tail _ hb => exact .tail _ (ho b hb)
      | false => exact .tail _ (ho b hb)

end Walk

end Capability.Execution
