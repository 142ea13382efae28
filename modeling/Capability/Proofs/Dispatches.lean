/-
  Capability.Proofs.Dispatches — how many dispatches a course makes.

  Every strand asks before it dispatches a node, and the run counts what they ask. The toll of a
  course is how many dispatches were made in it, in all of its branches, and how many refused.

  A process comes to an end at a toll if it does so on some replies. Where the branches of a split
  interleave does not matter for that: they come to their ends at tolls of their own.

  (1) `Course.dispatches_le`: no more dispatches are made than the limit allows.
  (2) `Course.refused_at_limit`: none is refused before.
  (3) `Course.comes`: a course that is over is one of the ways in which its process comes to an end.
-/

import Capability.Proofs.Replies
import Mathlib.Algebra.BigOperators.Fin
import Mathlib.Algebra.BigOperators.Pi
import Mathlib.Algebra.Group.Prod

namespace Capability.Execution

/-- Whether a dispatch that was asked for in an act was made. -/
def Act.dispatched? : Act → Option Bool
  | .visited allowed => some allowed
  | .within _ act => act.dispatched?
  | _ => none

/-- The dispatches that were made in some acts. -/
def dispatches (acts : List Act) : Nat := acts.countP (·.dispatched? = some true)

/-- The dispatches that were refused. -/
def refusals (acts : List Act) : Nat := acts.countP (·.dispatched? = some false)

theorem dispatches_cons (act : Act) (acts : List Act) :
    dispatches (act :: acts) = dispatches acts + if act.dispatched? = some true then 1 else 0 := by
  simp [dispatches, List.countP_cons]

theorem refusals_cons (act : Act) (acts : List Act) :
    refusals (act :: acts) = refusals acts + if act.dispatched? = some false then 1 else 0 := by
  simp [refusals, List.countP_cons]

/-- Nothing was dispatched elsewhere. -/
def Alone (acts : List Act) : Prop := ∀ visits cancels, Act.elsewhere visits cancels ∈ acts → visits = 0

/-! ## The limit -/

section Limit

variable {limit : Nat} {α : Type} {b : Bool} {s s' : Standing α} {w w' : Shared} {act : Act} {acts : List Act}

/-- How a move counts: a dispatch is made just if the count is below the limit. -/
theorem Move.counts (h : Move limit b s w act s' w') :
    (act.dispatched? = none ∧ w'.visits = w.visits) ∨
      (act.dispatched? = some (decide (w.visits < limit)) ∧ w'.visits = w.visits + 1) := by
  induction h with
  | visit => exact .inr ⟨rfl, rfl⟩
  | branch i _ ih => exact ih
  | _ => exact .inl ⟨rfl, rfl⟩

/-- No more dispatches are made than the limit allows. -/
theorem Course.dispatches_le (h : Course limit b s w acts s' w') : dispatches acts ≤ limit - w.visits := by
  induction h with
  | stay => exact Nat.zero_le _
  | @move _ _ _ w w₁ _ act acts hm _ ih =>
    rw [dispatches_cons]
    obtain ⟨ha, hv⟩ | ⟨ha, hv⟩ := hm.counts
    · simpa [ha, ← hv] using ih
    · by_cases hw : w.visits < limit <;> simp only [ha, hw, decide_true, decide_false, Option.some.injEq, if_true,
        Bool.false_eq_true, if_false] <;> omega
  | @elsewhere _ _ w _ acts visits cancels _ ih =>
    rw [dispatches_cons]
    have : limit - (w.visits + visits) ≤ limit - w.visits := by omega
    simpa [Act.dispatched?] using ih.trans this

/-- None is refused before the limit is reached. -/
theorem Course.refused_at_limit (h : Course limit b s w acts s' w') (ha : Alone acts) (hr : 0 < refusals acts) :
    limit ≤ w.visits + dispatches acts := by
  induction h with
  | stay => simp [refusals] at hr
  | @move _ _ _ w w₁ _ act acts hm _ ih =>
    have rest := ih fun visits cancels h => ha visits cancels (.tail _ h)
    rw [refusals_cons] at hr
    rw [dispatches_cons]
    obtain ⟨hact, hv⟩ | ⟨hact, hv⟩ := hm.counts
    · rw [hact] at hr ⊢
      rw [← hv]
      exact rest (by simpa using hr)
    · by_cases hw : w.visits < limit
      · have := rest (by simpa [hact, hw] using hr)
        simp only [hact, hw, decide_true, if_true]
        omega
      · omega
  | @elsewhere _ _ w _ acts visits cancels _ ih =>
    obtain rfl := ha visits cancels (.head _)
    rw [refusals_cons] at hr
    rw [dispatches_cons]
    exact ih (fun visits cancels h => ha visits cancels (.tail _ h)) (by simpa [Act.dispatched?] using hr)

end Limit

/-! ## Tolls -/

/-- How many dispatches were made, and how many refused. -/
abbrev Toll := Nat × Nat

/-- What a reply counts for. -/
def Request.toll : (q : Request) → q.Reply → Toll
  | .visit, true => (1, 0)
  | .visit, false => (0, 1)
  | .stopped, _ | .notify _, _ | .call _ _, _ | .pause _, _ => 0

/-- What some acts count for. -/
def tollOf (acts : List Act) : Toll := (dispatches acts, refusals acts)

/-- On allowed replies the process comes to an end, at a toll. -/
inductive Process.Comes (R : Replies) : {α : Type} → Process α → Toll → α → Prop
  | done {α : Type} (a : α) : Comes R (.done a) 0 a
  | ask {α : Type} {q : Request} {next : q.Reply → Process α} {t : Toll} {a : α} (r : q.Reply) :
      q.Admits R r → Comes R (next r) t a → Comes R (.ask q next) (q.toll r + t) a
  | split {α : Type} {joining : Joining} {count : Nat} {branch : Fin count → Process Outcome}
      {next : Gathered → Process α} {tolls : Fin count → Toll} {outcomes : Fin count → Outcome} {winner : Option Nat}
      {t : Toll} {a : α} :
      (∀ i, Comes R (branch i) (tolls i) (outcomes i)) → (joining = .all → winner = none) →
      Comes R (next ⟨List.ofFn outcomes, winner⟩) t a → Comes R (.split joining count branch next) ((∑ i, tolls i) + t) a

namespace Process.Comes

variable {R : Replies} {E : Outcome → Prop} {α β : Type} {t : Toll}

theorem of_bind {p : Process α} {f : α → Process β} {b : β} (h : (p.bind f).Comes R t b) :
    ∃ a t₁ t₂, p.Comes R t₁ a ∧ (f a).Comes R t₂ b ∧ t = t₁ + t₂ := by
  induction p generalizing t with
  | done a => exact ⟨a, 0, t, .done a, h, (zero_add t).symm⟩
  | ask q next ih =>
    cases h with
    | ask r hr h =>
      obtain ⟨a, t₁, t₂, h₁, h₂, rfl⟩ := ih r h
      exact ⟨a, _, t₂, .ask r hr h₁, h₂, (add_assoc ..).symm⟩
  | split joining count branch next _ ih =>
    cases h with
    | split hb hw h =>
      obtain ⟨a, t₁, t₂, h₁, h₂, rfl⟩ := ih _ h
      exact ⟨a, _, t₂, .split hb hw h₁, h₂, (add_assoc ..).symm⟩

/-- What a process secures is true of everything that it comes to. -/
theorem secured {p : Process α} {a : α} (h : p.Comes R t a) {Q : α → Prop} (hp : p.Secures R E Q) : Q a := by
  induction h with
  | done a => exact hp
  | ask r hr _ ih => exact ih (hp r hr)
  | split _ hw _ ihb ih => exact ih (hp.2 _ _ hw fun i => ihb i (hp.1 i))

end Process.Comes

/-! ## Courses -/

/-- As `Process.Comes`. Nobody wins a split any more that all branches are waited for in. -/
def Standing.Comes (R : Replies) : {α : Type} → Standing α → Toll → α → Prop
  | _, .at p, t, a => p.Comes R t a
  | _, .calling k l next, t, a => ∃ reply, R k l reply ∧ (next reply).Comes R t a
  | _, .fork joining count branches winner next, t, a =>
    ∃ (tolls : Fin count → Toll) (outcomes : Fin count → Outcome) (winner' : Option Nat) (t' : Toll),
      (∀ i, (branches i).Comes R (tolls i) (outcomes i)) ∧ (joining = .all → winner = none → winner' = none) ∧
        (next ⟨List.ofFn outcomes, winner'⟩).Comes R t' a ∧ t = (∑ i, tolls i) + t'
  | _, .finished a', t, a => a = a' ∧ t = 0

section Courses

variable {limit : Nat} {α : Type} {b : Bool} {s s' : Standing α} {w w' : Shared} {act : Act} {acts : List Act} {R : Replies}
  {t : Toll} {a : α}

theorem tollOf_cons (act : Act) (acts : List Act) : tollOf (act :: acts) = tollOf [act] + tollOf acts := by
  simp only [tollOf, dispatches, refusals, List.countP_cons, List.countP_nil, Prod.mk_add_mk, Prod.mk.injEq]
  constructor <;> omega

theorem tollOf_within (i : Nat) (act : Act) : tollOf [.within i act] = tollOf [act] := rfl

theorem tollOf_visited (allowed : Bool) : tollOf [.visited allowed] = Request.visit.toll allowed := by
  cases allowed <;> rfl

/-- Before a move a standing comes to whatever it comes to behind it. -/
theorem Move.comes (h : Move limit b s w act s' w') (ha : act.Keeps R) (hs : s'.Comes R t a) :
    s.Comes R (tollOf [act] + t) a := by
  induction h generalizing t with
  | visit next =>
    rw [tollOf_visited]
    exact .ask _ trivial hs
  | stopped | notify | pause | cut => exact .ask _ trivial hs
  | call k l next =>
    obtain ⟨reply, hr, hs⟩ := hs
    exact @Process.Comes.ask R _ (.call k l) next t a reply hr hs
  | skip k l next => exact .ask _ (ha k l _ _ rfl) hs
  | answer k l next | interrupt k l next => exact ⟨_, ha k l _ _ rfl, (zero_add t).symm ▸ hs⟩
  | expire k d next => exact ⟨_, ha k (some d) _ _ rfl, (zero_add t).symm ▸ hs⟩
  | «open» joining count branch next =>
    obtain ⟨tolls, outcomes, winner, t', hb, hw, hn, rfl⟩ := hs
    have opened : tollOf [.opened count] = 0 := rfl
    rw [opened, zero_add]
    exact .split hb (fun hj => hw hj rfl) hn
  | finish =>
    obtain ⟨rfl, rfl⟩ := hs
    exact .done _
  | @branch _ _ _ _ joining count branches winner next i act s hm ih =>
    obtain ⟨tolls, outcomes, winner', t', hb, hw, hn, rfl⟩ := hs
    have moved : (branches i).Comes R (tollOf [act] + tolls i) (outcomes i) := ih ha (by simpa using hb i)
    refine ⟨Function.update tolls i (tollOf [act] + tolls i), outcomes, winner', t', fun j => ?_, fun hj hnone => ?_, hn, ?_⟩
    · by_cases e : j = i
      · subst e; simpa using moved
      · simpa [Function.update_of_ne e] using hb j
    · subst hj hnone
      refine hw rfl ?_
      cases s <;> rfl
    · rw [tollOf_within, ← add_assoc]
      congr 1
      rw [Finset.sum_update_of_mem (Finset.mem_univ i), add_assoc, Finset.sdiff_singleton_eq_erase,
        Finset.add_sum_erase _ _ (Finset.mem_univ i)]
  | @gather _ _ _ joining count branches winner next outcomes ho =>
    refine ⟨fun _ => 0, outcomes, winner, t, fun i => ?_, fun _ => id, hs, ?_⟩
    · rw [ho i]
      exact ⟨rfl, rfl⟩
    · rw [Finset.sum_const_zero]
      rfl

/-- A course that is over is a way for its process to come to its end. -/
theorem Course.comes (h : Course limit b s w acts (.finished a) w') (ha : ∀ act ∈ acts, act.Keeps R) :
    s.Comes R (tollOf acts) a := by
  generalize hu : Standing.finished a = u at h
  induction h with
  | stay =>
    subst hu
    exact ⟨rfl, rfl⟩
  | move hm _ ih =>
    rw [tollOf_cons]
    exact hm.comes (ha _ (.head _)) (ih (fun act h => ha act (.tail _ h)) hu)
  | elsewhere visits cancels _ ih =>
    rw [tollOf_cons]
    exact (zero_add (tollOf _)).symm ▸ ih (fun act h => ha act (.tail _ h)) hu

end Courses

end Capability.Execution
