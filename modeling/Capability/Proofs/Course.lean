/-
  Capability.Proofs.Course — the courses a process can take when nothing is laid down about
  who answers its calls, how long that takes and which branch moves next.

  A standing is how far a process has come: a tree whose leaves are about to make a request,
  wait for the answer to a call or are over, and whose forks are the splits under way. A
  move takes one leaf further. The strands of a run share the count of dispatches and the
  cancellation; a branch is also cancelled when a sibling has won. A course is a sequence of
  moves, with whatever else happens in the run in between.

  (1) `Course.trans`, `Course.lift`: courses can be put behind one another and inside a split.
  (2) `Course.split_bind`: a process that goes on with another one does so from where the
      first one is done.
-/

import Capability.Execution.Round
import Mathlib.Logic.Function.Basic

namespace Capability.Execution

/-- What the strands of a run share. -/
structure Shared where
  /-- How many nodes were dispatched, or would have been but for the limit. -/
  visits : Nat := 0
  /-- Whether the run is cancelled, by whoever started it or because its time is used up. -/
  cancelled : Bool := false

/-- One thing that happens in a course. -/
inductive Act where
  | visited (allowed : Bool)
  | asked (stopped : Bool)
  /-- A notice; whether it made somebody cancel the run. -/
  | told (n : Notice) (cancels : Bool)
  | called (k : Call) (limit : Option Duration)
  /-- A call is over; whether somebody cancelled the run while answering it. -/
  | answered (k : Call) (limit : Option Duration) (a : Answer) (cancels : Bool)
  /-- A wait is over; whether a cancellation cut it short. -/
  | paused (d : Duration) (cut : Bool)
  | opened (count : Nat)
  | gathered (g : Gathered)
  | ended
  /-- Something in a branch of the split under way. -/
  | within (branch : Nat) (act : Act)
  /-- Dispatches by strands elsewhere, and perhaps a cancellation. -/
  | elsewhere (visits : Nat) (cancels : Bool)

/-- How far a process has come that ends with an `α`. -/
inductive Standing : Type → Type 1 where
  | at {α : Type} (p : Process α) : Standing α
  /-- Waits for the answer to a call. -/
  | calling {α : Type} (k : Call) (limit : Option Duration) (next : Answer → Process α) : Standing α
  /-- Branches of a split, and which of them has won so far. -/
  | fork {α : Type} (joining : Joining) (count : Nat) (branches : Fin count → Standing Outcome)
      (winner : Option Nat) (next : Gathered → Process α) : Standing α
  | finished {α : Type} (a : α) : Standing α

/-- The winner after a branch has moved. -/
def Standing.elect (joining : Joining) (winner : Option Nat) (i : Nat) : Standing Outcome → Option Nat
  | .finished o => Execution.elect joining winner i o
  | _ => winner

/-- What a branch does, seen from the split around it. -/
def Act.inside (i : Nat) : Act → Act
  | .elsewhere visits cancels => .elsewhere visits cancels
  | act => .within i act

/-- Whether it cancels the run. -/
def Act.cancels : Act → Bool
  | .told _ cancels | .answered _ _ _ cancels | .elsewhere _ cancels => cancels
  | .within _ act => act.cancels
  | .visited _ | .asked _ | .called .. | .paused .. | .opened _ | .gathered _ | .ended => false

/-- Goes on with another process when the first one is over. -/
def Standing.bind {α β : Type} : Standing α → (α → Process β) → Standing β
  | .at p, f => .at (p.bind f)
  | .calling k l next, f => .calling k l fun a => (next a).bind f
  | .fork joining count branches winner next, f => .fork joining count branches winner fun g => (next g).bind f
  | .finished a, f => .at (f a)

section Semantics

variable (limit : Nat)

/-- One strand moves. `stopped` tells whether a split around the process is called off. -/
inductive Move : {α : Type} → (stopped : Bool) → Standing α → Shared → Act → Standing α → Shared → Prop
  /-- A dispatch is counted; past the limit it is refused. -/
  | visit {α : Type} {b : Bool} {w : Shared} (next : Bool → Process α) :
      Move b (.at (.ask .visit next)) w (.visited (decide (w.visits < limit)))
        (.at (next (decide (w.visits < limit)))) { w with visits := w.visits + 1 }
  | stopped {α : Type} {b : Bool} {w : Shared} (next : Bool → Process α) :
      Move b (.at (.ask .stopped next)) w (.asked (b || w.cancelled)) (.at (next (b || w.cancelled))) w
  | notify {α : Type} {b : Bool} {w : Shared} (n : Notice) (next : Unit → Process α) (cancels : Bool) :
      Move b (.at (.ask (.notify n) next)) w (.told n cancels) (.at (next ()))
        { w with cancelled := w.cancelled || cancels }
  | call {α : Type} {b : Bool} {w : Shared} (k : Call) (l : Option Duration) (next : Answer → Process α) :
      (b || w.cancelled) = false →
      Move b (.at (.ask (.call k l) next)) w (.called k l) (.calling k l next) w
  /-- A cancelled strand makes no call. -/
  | skip {α : Type} {b : Bool} {w : Shared} (k : Call) (l : Option Duration) (next : Answer → Process α) :
      (b || w.cancelled) = true →
      Move b (.at (.ask (.call k l) next)) w (.answered k l .cancelled false) (.at (next .cancelled)) w
  | answer {α : Type} {b : Bool} {w : Shared} (k : Call) (l : Option Duration) (next : Answer → Process α)
      (outcome : Except Fault Json) (cancels : Bool) : (b || w.cancelled) = false →
      Move b (.calling k l next) w (.answered k l (.given outcome) cancels) (.at (next (.given outcome)))
        { w with cancelled := w.cancelled || cancels }
  | expire {α : Type} {b : Bool} {w : Shared} (k : Call) (d : Duration) (next : Answer → Process α) :
      (b || w.cancelled) = false →
      Move b (.calling k (some d) next) w (.answered k (some d) .timedOut false) (.at (next .timedOut)) w
  | interrupt {α : Type} {b : Bool} {w : Shared} (k : Call) (l : Option Duration) (next : Answer → Process α) :
      (b || w.cancelled) = true →
      Move b (.calling k l next) w (.answered k l .cancelled false) (.at (next .cancelled)) w
  /-- A wait comes to its end, which may happen at the moment of a cancellation. -/
  | pause {α : Type} {b : Bool} {w : Shared} (d : Duration) (next : Bool → Process α) :
      Move b (.at (.ask (.pause d) next)) w (.paused d false) (.at (next false)) w
  | cut {α : Type} {b : Bool} {w : Shared} (d : Duration) (next : Bool → Process α) :
      (b || w.cancelled) = true →
      Move b (.at (.ask (.pause d) next)) w (.paused d true) (.at (next true)) w
  | «open» {α : Type} {b : Bool} {w : Shared} (joining : Joining) (count : Nat)
      (branch : Fin count → Process Outcome) (next : Gathered → Process α) :
      Move b (.at (.split joining count branch next)) w (.opened count)
        (.fork joining count (fun i => .at (branch i)) none next) w
  | finish {α : Type} {b : Bool} {w : Shared} (a : α) : Move b (.at (.done a)) w .ended (.finished a) w
  /-- A branch moves. If it ends, it may win. -/
  | branch {α : Type} {b : Bool} {w w' : Shared} {joining : Joining} {count : Nat}
      {branches : Fin count → Standing Outcome} {winner : Option Nat} {next : Gathered → Process α}
      (i : Fin count) {act : Act} {s : Standing Outcome} :
      Move (b || winner.isSome) (branches i) w act s w' →
      Move b (.fork joining count branches winner next) w (.within i act)
        (.fork joining count (Function.update branches i s) (s.elect joining winner i) next) w'
  | gather {α : Type} {b : Bool} {w : Shared} {joining : Joining} {count : Nat}
      {branches : Fin count → Standing Outcome} {winner : Option Nat} {next : Gathered → Process α}
      (outcomes : Fin count → Outcome) : (∀ i, branches i = .finished (outcomes i)) →
      Move b (.fork joining count branches winner next) w (.gathered ⟨List.ofFn outcomes, winner⟩)
        (.at (next ⟨List.ofFn outcomes, winner⟩)) w

/-- Moves one after another, and what happens elsewhere in between. -/
inductive Course {α : Type} (stopped : Bool) : Standing α → Shared → List Act → Standing α → Shared → Prop
  | stay {s : Standing α} {w : Shared} : Course stopped s w [] s w
  | move {s s₁ s' : Standing α} {w w₁ w' : Shared} {act : Act} {acts : List Act} :
      Move limit stopped s w act s₁ w₁ → Course stopped s₁ w₁ acts s' w' → Course stopped s w (act :: acts) s' w'
  | elsewhere {s s' : Standing α} {w w' : Shared} {acts : List Act} (visits : Nat) (cancels : Bool) :
      Course stopped s ⟨w.visits + visits, w.cancelled || cancels⟩ acts s' w' →
      Course stopped s w (.elsewhere visits cancels :: acts) s' w'

end Semantics

/-! ## Courses -/

section Courses

variable {limit : Nat} {α β : Type} {b : Bool} {w w₁ w' : Shared}

theorem Course.single {s s' : Standing α} {act : Act} (h : Move limit b s w act s' w') :
    Course limit b s w [act] s' w' := .move h .stay

theorem Course.trans {s t u : Standing α} {acts acts' : List Act} (h : Course limit b s w acts t w₁)
    (h' : Course limit b t w₁ acts' u w') : Course limit b s w (acts ++ acts') u w' := by
  induction h with
  | stay => exact h'
  | move hm _ ih => exact .move hm (ih h')
  | elsewhere visits cancels _ ih => exact .elsewhere visits cancels (ih h')

/-- What is over stays as it is. -/
theorem Course.finished {a : α} {s : Standing α} {acts : List Act} (h : Course limit b (.finished a) w acts s w') :
    s = .finished a := by
  generalize hs : Standing.finished a = t at h
  induction h with
  | stay => rfl
  | move hm => subst hs; cases hm
  | elsewhere _ _ _ ih => exact ih hs

/-- What happens elsewhere happens to every standing. -/
theorem Course.beside {γ : Type} {a : γ} {s : Standing γ} {acts : List Act} (h : Course limit b (.finished a) w acts s w')
    {c : Bool} (t : Standing α) (i : Nat) : Course limit c t w (acts.map (Act.inside i)) t w' := by
  generalize hs : Standing.finished a = u at h
  induction h with
  | stay => exact .stay
  | move hm => subst hs; cases hm
  | elsewhere visits cancels _ ih => exact .elsewhere visits cancels (ih hs)

theorem Act.inside_eq_within {act : Act} {γ : Type} {s s' : Standing γ} (h : Move limit b s w act s' w') (i : Nat) :
    act.inside i = .within i act := by
  cases h <;> rfl

/-- A branch takes its course inside a split. -/
theorem Course.lift {joining : Joining} {count : Nat} {branches : Fin count → Standing Outcome}
    {winner : Option Nat} {next : Gathered → Process α} (i : Fin count) {t : Standing Outcome} {acts : List Act}
    (h : Course limit (b || winner.isSome) (branches i) w acts t w') (hi : ∀ o, branches i ≠ .finished o) :
    Course limit b (.fork joining count branches winner next) w (acts.map (Act.inside i))
      (.fork joining count (Function.update branches i t) (t.elect joining winner i) next) w' := by
  generalize hs : branches i = s at h
  induction h generalizing branches with
  | stay =>
    subst hs
    have he : (branches i).elect joining winner i = winner := by
      cases hb : branches i with
      | finished o => exact absurd hb (hi o)
      | _ => rfl
    rw [Function.update_eq_self, he]
    exact .stay
  | @move _ s₁ _ _ _ _ _ _ hm hc ih =>
    subst hs
    rw [List.map_cons, Act.inside_eq_within hm]
    refine .move (.branch i hm) ?_
    by_cases ho : ∃ o, s₁ = .finished o
    · obtain ⟨o, rfl⟩ := ho
      obtain rfl := hc.finished
      exact hc.beside _ i
    · have he : s₁.elect joining winner i = winner := by
        cases s₁ with
        | finished o => exact absurd ⟨o, rfl⟩ ho
        | _ => rfl
      have hu : Function.update branches i s₁ i = s₁ := Function.update_self ..
      rw [he]
      simpa only [Function.update_idem] using @ih (Function.update branches i s₁)
        (fun o h => ho ⟨o, hu.symm.trans h⟩) hu
  | elsewhere visits cancels _ ih => exact .elsewhere visits cancels (ih hi hs)

/-- Only who cancels a run makes it a cancelled one. -/
theorem Move.cancelled {s s' : Standing α} {act : Act} (h : Move limit b s w act s' w') :
    w'.cancelled = (w.cancelled || act.cancels) := by
  induction h with
  | branch i _ ih => exact ih
  | _ => simp [Act.cancels]

theorem Course.cancelled {s s' : Standing α} {acts : List Act} (h : Course limit b s w acts s' w') :
    w'.cancelled = (w.cancelled || acts.any Act.cancels) := by
  induction h with
  | stay => simp
  | move hm _ ih => rw [ih, hm.cancelled, List.any_cons, Bool.or_assoc]
  | elsewhere visits cancels _ ih => rw [ih, List.any_cons, ← Bool.or_assoc]; rfl

/-- In a run that is not cancelled nobody cancelled it. -/
theorem Course.calm {s s' : Standing α} {acts : List Act} (h : Course limit b s w acts s' w')
    (hw : w'.cancelled = false) : ∀ act ∈ acts, act.cancels = false := by
  intro act ha
  have hc := h.cancelled
  rw [hw] at hc
  obtain ⟨-, hacts⟩ := Bool.or_eq_false_iff.mp hc.symm
  simpa using List.any_eq_false.mp hacts act ha

/-- A process that goes on with another one either moves as the first one does, or the first
    one is done. -/
theorem Move.of_bind {s : Standing α} {f : α → Process β} {t : Standing β} {act : Act}
    (h : Move limit b (s.bind f) w act t w') (hs : ∀ a, s ≠ .at (.done a)) (ho : ∀ a, s ≠ .finished a) :
    ∃ s', Move limit b s w act s' w' ∧ t = s'.bind f := by
  cases s with
  | «at» p =>
    cases p with
    | done a => exact absurd rfl (hs a)
    | ask q next =>
      cases q with
      | visit => cases h; exact ⟨_, .visit _, rfl⟩
      | stopped => cases h; exact ⟨_, .stopped _, rfl⟩
      | notify n => cases h; exact ⟨_, .notify _ _ _, rfl⟩
      | call k l =>
        cases h with
        | call _ _ _ hc => exact ⟨_, .call _ _ _ hc, rfl⟩
        | skip _ _ _ hc => exact ⟨_, .skip _ _ _ hc, rfl⟩
      | pause d =>
        cases h with
        | pause => exact ⟨_, .pause _ _, rfl⟩
        | cut _ _ hc => exact ⟨_, .cut _ _ hc, rfl⟩
    | split joining count branch next => cases h; exact ⟨_, .open _ _ _ _, rfl⟩
  | calling k l next =>
    cases h with
    | answer _ _ _ o cancels hc => exact ⟨_, .answer _ _ _ o cancels hc, rfl⟩
    | expire _ _ _ hc => exact ⟨_, .expire _ _ _ hc, rfl⟩
    | interrupt _ _ _ hc => exact ⟨_, .interrupt _ _ _ hc, rfl⟩
  | fork joining count branches winner next =>
    cases h with
    | branch i hm => exact ⟨_, .branch i hm, rfl⟩
    | gather os ho => exact ⟨_, .gather os ho, rfl⟩
  | finished a => exact absurd rfl (ho a)

/-- What is not done moves alike, whatever it goes on with. -/
theorem Move.bind {s s' : Standing α} {act : Act} (h : Move limit b s w act s' w') (hs : ∀ a, s ≠ .at (.done a))
    (f : α → Process β) : Move limit b (s.bind f) w act (s'.bind f) w' := by
  cases h with
  | visit next => exact .visit fun r => (next r).bind f
  | stopped next => exact .stopped fun r => (next r).bind f
  | notify n next cancels => exact .notify n (fun r => (next r).bind f) cancels
  | call k l next hc => exact .call k l (fun a => (next a).bind f) hc
  | skip k l next hc => exact .skip k l (fun a => (next a).bind f) hc
  | answer k l next outcome cancels hc => exact .answer k l (fun a => (next a).bind f) outcome cancels hc
  | expire k d next hc => exact .expire k d (fun a => (next a).bind f) hc
  | interrupt k l next hc => exact .interrupt k l (fun a => (next a).bind f) hc
  | pause d next => exact .pause d fun r => (next r).bind f
  | cut d next hc => exact .cut d (fun r => (next r).bind f) hc
  | «open» joining count branch next => exact .open joining count branch fun g => (next g).bind f
  | finish a => exact absurd rfl (hs a)
  | branch i hm => exact .branch i hm
  | gather outcomes ho => exact .gather outcomes ho

/-- Only what is done comes to be over. -/
theorem Move.not_over {s s' : Standing α} {act : Act} (h : Move limit b s w act s' w')
    (hs : ∀ a, s ≠ .at (.done a)) : ∀ a, s' ≠ .finished a := by
  intro a e
  cases h with
  | finish a' => exact hs a' rfl
  | _ => cases e

theorem Course.split_standing {s : Standing α} {f : α → Process β} {c : β} {acts : List Act}
    (h : Course limit b (s.bind f) w acts (.finished c) w') (ho : ∀ a, s ≠ .finished a) :
    ∃ a acts₁ acts₂ w₁, acts = acts₁ ++ acts₂ ∧ Course limit b s w acts₁ (.at (.done a)) w₁ ∧
      Course limit b (.at (f a)) w₁ acts₂ (.finished c) w' := by
  generalize ht : s.bind f = t at h
  generalize hu : Standing.finished c = u at h
  induction h generalizing s with
  | stay =>
    subst hu
    cases s <;> cases ht
  | move hm hc ih =>
    subst ht
    by_cases hd : ∃ a, s = .at (.done a)
    · obtain ⟨a, rfl⟩ := hd
      exact ⟨a, [], _, _, rfl, .stay, .move hm hc⟩
    · have hs : ∀ a, s ≠ .at (.done a) := fun a e => hd ⟨a, e⟩
      obtain ⟨s', hm', rfl⟩ := hm.of_bind hs ho
      obtain ⟨a, acts₁, acts₂, w₁, rfl, h₁, h₂⟩ := ih (hm'.not_over hs) rfl hu
      exact ⟨a, _ :: acts₁, acts₂, w₁, rfl, .move hm' h₁, h₂⟩
  | elsewhere visits cancels _ ih =>
    obtain ⟨a, acts₁, acts₂, w₁, rfl, h₁, h₂⟩ := ih ho ht hu
    exact ⟨a, _ :: acts₁, acts₂, w₁, rfl, .elsewhere visits cancels h₁, h₂⟩

/-- A process that goes on with another one comes to the end of the first and goes on from
    there. -/
theorem Course.split_bind {p : Process α} {f : α → Process β} {c : β} {acts : List Act}
    (h : Course limit b (.at (p.bind f)) w acts (.finished c) w') :
    ∃ a acts₁ acts₂ w₁, acts = acts₁ ++ acts₂ ∧ Course limit b (.at p) w acts₁ (.at (.done a)) w₁ ∧
      Course limit b (.at (f a)) w₁ acts₂ (.finished c) w' :=
  Course.split_standing (s := .at p) h (by simp)

end Courses
end Capability.Execution
