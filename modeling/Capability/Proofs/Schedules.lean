/-
  Capability.Proofs.Schedules — whose turn it is in a run that nobody disturbs.

  Where calls are answered by what is asked and nobody cancels the run, one thing is left open: which
  branch of the splits under way moves next, and whether the wait of a branch that is called off is
  cut short or comes to its end. That is the turn of an act. Nothing is left open in a strand that does
  not split.

  (1) `Move.determined`: in a turn, one undisturbed move can be made.
  (2) `Course.continues`: of two courses that are scheduled alike, the longer one continues the other.
  (3) `Process.alone_course`: how a process fares that does not split is found by following it.
-/

import Capability.Proofs.Steady

namespace Capability.Execution

/-- Nobody cancels the run, and calls are answered by what is asked. A branch that was called off gets
    no answer. -/
def Act.Undisturbed (answers : Answers) : Act → Prop
  | .told _ cancels => cancels = false
  | .answered k limit a cancels => (a = answers k limit ∨ a = .cancelled) ∧ cancels = false
  | .within _ act => act.Undisturbed answers
  | .elsewhere .. => False
  | .visited _ | .asked _ | .called .. | .paused .. | .opened _ | .gathered _ | .ended => True

/-- Whose turn it is: the branches around the strand that moves, from the outside, and whether a wait
    of it is cut short. -/
def Act.turn : Act → List Nat × Bool
  | .within i act => (i :: act.turn.1, act.turn.2)
  | .paused _ cut => ([], cut)
  | _ => ([], false)

/-- As long as neither is over, it is the turn of the same strands. -/
def ScheduledAlike (acts acts' : List Act) : Prop := ∀ p ∈ acts.zip acts', p.1.turn = p.2.turn

/-- The process takes a course to its end that nobody disturbs. -/
def Process.Completes {α : Type} (p : Process α) (answers : Answers) (limit : Nat) (acts : List Act) (a : α) : Prop :=
  (∃ w, Course limit false (.at p) {} acts (.finished a) w) ∧ ∀ act ∈ acts, act.Undisturbed answers

variable {answers : Answers} {limit : Nat} {α : Type} {b : Bool} {s t t' : Standing α} {w w' w₁ : Shared} {act act' : Act}
  {acts acts' : List Act}

theorem Act.Undisturbed.cancels (h : act.Undisturbed answers) : act.cancels = false := by
  induction act with
  | told n cancels => exact h
  | answered k l a cancels => exact h.2
  | within i act ih => exact ih h
  | elsewhere => exact h.elim
  | _ => rfl

@[simp] theorem scheduledAlike_cons :
    ScheduledAlike (act :: acts) (act' :: acts') ↔ act.turn = act'.turn ∧ ScheduledAlike acts acts' := by
  simp [ScheduledAlike]

theorem ScheduledAlike.symm (h : ScheduledAlike acts acts') : ScheduledAlike acts' acts := by
  intro p hp
  rw [← List.zip_swap] at hp
  obtain ⟨q, hq, rfl⟩ := List.mem_map.mp hp
  exact (h q hq).symm

/-- What happens in the same turn all the time is scheduled alike. -/
theorem ScheduledAlike.of_constant {turn : List Nat × Bool} (h : ∀ act ∈ acts, act.turn = turn)
    (h' : ∀ act ∈ acts', act.turn = turn) : ScheduledAlike acts acts' := by
  intro p hp
  obtain ⟨hl, hr⟩ := List.of_mem_zip hp
  exact (h _ hl).trans (h' _ hr).symm

/-! ## One turn after another -/

/-- In a turn, one undisturbed move can be made. -/
theorem Move.determined (h : Move limit b s w act t w') (h' : Move limit b s w act' t' w₁) (ha : act.Undisturbed answers)
    (ha' : act'.Undisturbed answers) (turn : act.turn = act'.turn) : act = act' ∧ t = t' ∧ w' = w₁ := by
  induction h generalizing act' w₁ with
  | visit | stopped | «open» | finish =>
    cases h'
    exact ⟨rfl, rfl, rfl⟩
  | notify n next cancels =>
    obtain rfl : cancels = false := ha
    cases h' with
    | notify _ _ cancels' =>
      obtain rfl : cancels' = false := ha'
      exact ⟨rfl, rfl, rfl⟩
  | call k l next hc =>
    cases h' with
    | call => exact ⟨rfl, rfl, rfl⟩
    | skip _ _ _ hc' => exact absurd (hc.symm.trans hc') nofun
  | skip k l next hc =>
    cases h' with
    | call _ _ _ hc' => exact absurd (hc.symm.trans hc') nofun
    | skip => exact ⟨rfl, rfl, rfl⟩
  | answer k l next outcome cancels hc =>
    obtain ⟨given, rfl⟩ := ha
    have given := given.resolve_right nofun
    cases h' with
    | answer _ _ _ outcome' cancels' =>
      obtain ⟨given', rfl⟩ := ha'
      cases given.trans (given'.resolve_right nofun).symm
      exact ⟨rfl, rfl, rfl⟩
    | expire => exact absurd (given.trans (ha'.1.resolve_right nofun).symm) nofun
    | interrupt _ _ _ hc' => exact absurd (hc.symm.trans hc') nofun
  | expire k d next hc =>
    cases h' with
    | answer => exact absurd ((ha.1.resolve_right nofun).trans (ha'.1.resolve_right nofun).symm) nofun
    | expire => exact ⟨rfl, rfl, rfl⟩
    | interrupt _ _ _ hc' => exact absurd (hc.symm.trans hc') nofun
  | interrupt k l next hc =>
    cases h' with
    | answer _ _ _ _ _ hc' | expire _ _ _ hc' => exact absurd (hc'.symm.trans hc) nofun
    | interrupt => exact ⟨rfl, rfl, rfl⟩
  | pause d next =>
    cases h' with
    | pause => exact ⟨rfl, rfl, rfl⟩
    | cut => cases turn
  | cut d next hc =>
    cases h' with
    | pause => cases turn
    | cut => exact ⟨rfl, rfl, rfl⟩
  | branch i hm ih =>
    cases h' with
    | branch j hm' =>
      obtain ⟨places, cut⟩ := Prod.mk.inj turn
      obtain ⟨place, inside⟩ := List.cons.inj places
      obtain rfl := Fin.ext place
      obtain ⟨rfl, rfl, rfl⟩ := ih hm' ha ha' (Prod.ext inside cut)
      exact ⟨rfl, rfl, rfl⟩
    | gather => cases turn
  | gather outcomes ho =>
    cases h' with
    | branch => cases turn
    | gather outcomes' ho' =>
      obtain rfl : outcomes = outcomes' := funext fun i => Standing.finished.inj ((ho i).symm.trans (ho' i))
      exact ⟨rfl, rfl, rfl⟩

/-- Of two undisturbed courses that are scheduled alike, the longer one continues the other. -/
theorem Course.continues (h : Course limit b s w acts t w') (h' : Course limit b s w acts' t' w₁)
    (ha : ∀ act ∈ acts, act.Undisturbed answers) (ha' : ∀ act ∈ acts', act.Undisturbed answers)
    (alike : ScheduledAlike acts acts') (hl : acts.length ≤ acts'.length) :
    ∃ rest, acts' = acts ++ rest ∧ Course limit b t w' rest t' w₁ := by
  induction h generalizing acts' with
  | stay => exact ⟨acts', rfl, h'⟩
  | move hm _ ih =>
    cases h' with
    | stay => simp at hl
    | move hm' hc' =>
      obtain ⟨turn, behind⟩ := scheduledAlike_cons.mp alike
      obtain ⟨rfl, rfl, rfl⟩ := hm.determined hm' (ha _ (.head _)) (ha' _ (.head _)) turn
      obtain ⟨rest, rfl, hc⟩ := ih hc' (fun act h => ha act (.tail _ h)) (fun act h => ha' act (.tail _ h)) behind
        (by simpa using hl)
      exact ⟨rest, rfl, hc⟩
    | elsewhere => exact (ha' _ (.head _)).elim
  | elsewhere => exact (ha _ (.head _)).elim

/-- So a process comes to one end as long as it is scheduled alike. -/
theorem Process.Completes.unique {p : Process α} {a a' : α} (h : p.Completes answers limit acts a)
    (h' : p.Completes answers limit acts' a') (alike : ScheduledAlike acts acts') : a = a' := by
  obtain ⟨⟨w, hc⟩, ha⟩ := h
  obtain ⟨⟨w', hc'⟩, ha'⟩ := h'
  obtain hl | hl := Nat.le_total acts.length acts'.length
  · obtain ⟨rest, -, hrest⟩ := hc.continues hc' ha ha' alike hl
    exact (Standing.finished.inj hrest.finished).symm
  · obtain ⟨rest, -, hrest⟩ := hc'.continues hc ha' ha alike.symm hl
    exact Standing.finished.inj hrest.finished

/-! ## Processes that do not split -/

/-- There is only one turn where nothing splits. -/
theorem Move.turn_unsplit (h : Move limit false s w act t w') (hw : w.cancelled = false) {Q : α → Prop}
    (hs : s.Ensures (fun _ => False) Q) : act.turn = ([], false) := by
  cases h with
  | cut d next hc => simp [hw] at hc
  | branch => exact hs.1.elim
  | _ => rfl

theorem Course.turns_unsplit (h : Course limit false s w acts t w') (hw : w.cancelled = false)
    (ha : ∀ act ∈ acts, act.Undisturbed answers) {Q : α → Prop} (hs : s.Ensures (fun _ => False) Q) :
    ∀ act ∈ acts, act.turn = ([], false) := by
  induction h with
  | stay => simp
  | move hm _ ih =>
    have hw₁ := hm.cancelled
    rw [hw, (ha _ (.head _)).cancels, Bool.or_false] at hw₁
    exact List.forall_mem_cons.mpr ⟨hm.turn_unsplit hw hs, ih hw₁ (fun act h => ha act (.tail _ h)) (hm.ensures hs)⟩
  | elsewhere => exact (ha _ (.head _)).elim

/-- Follows a process from a count of dispatches on: what happens, and what it ends with. None if it
    splits, or asks what is not answered. -/
def Process.alone (answers : Answers) (limit : Nat) : {α : Type} → (visits : Nat) → Process α → Option (List Act × α)
  | _, _, .done a => some ([.ended], a)
  | _, visits, .ask .visit next =>
    let allowed := decide (visits < limit)
    (alone answers limit (visits + 1) (next allowed)).map fun r => (.visited allowed :: r.1, r.2)
  | _, visits, .ask .stopped next => (alone answers limit visits (next false)).map fun r => (.asked false :: r.1, r.2)
  | _, visits, .ask (.notify n) next => (alone answers limit visits (next ())).map fun r => (.told n false :: r.1, r.2)
  | _, visits, .ask (.call k l) next =>
    if (answers k l).IsProper l then
      (alone answers limit visits (next (answers k l))).map fun r =>
        (.called k l :: .answered k l (answers k l) false :: r.1, r.2)
    else none
  | _, visits, .ask (.pause d) next => (alone answers limit visits (next false)).map fun r => (.paused d false :: r.1, r.2)
  | _, _, .split .. => none

/-- Who has taken a course to where a process is followed goes on as it is followed. -/
theorem Course.followed {p : Process α} {a : α} {before : List Act} (hb : Course limit false s w before (.at p) w₁)
    (hu : ∀ act ∈ before, act.Undisturbed answers)
    (h : (p.alone answers limit w₁.visits).map (fun r => (before ++ r.1, r.2)) = some (acts, a))
    (hp : ∀ rest, p.alone answers limit w₁.visits = some (rest, a) →
      ∃ w', Course limit false (.at p) w₁ rest (.finished a) w' ∧ ∀ act ∈ rest, act.Undisturbed answers) :
    ∃ w', Course limit false s w acts (.finished a) w' ∧ ∀ act ∈ acts, act.Undisturbed answers := by
  obtain ⟨⟨rest, a'⟩, hr, he⟩ := Option.map_eq_some_iff.mp h
  cases he
  obtain ⟨w', hc, hrest⟩ := hp rest hr
  exact ⟨w', hb.trans hc, fun act ha => (List.mem_append.mp ha).elim (hu act) (hrest act)⟩

/-- Who follows a process takes an undisturbed course of it. -/
theorem Process.alone_course {p : Process α} {a : α} (h : p.alone answers limit w.visits = some (acts, a))
    (hw : w.cancelled = false) :
    ∃ w', Course limit false (.at p) w acts (.finished a) w' ∧ ∀ act ∈ acts, act.Undisturbed answers := by
  induction p generalizing w acts with
  | done a =>
    cases h
    exact ⟨w, .single (.finish a), by simp [Act.Undisturbed]⟩
  | ask q next ih =>
    cases q with
    | visit =>
      have asked : Course limit false (.at (.ask .visit next)) w _ _ ⟨w.visits + 1, w.cancelled⟩ := .single (.visit next)
      exact asked.followed (by simp [Act.Undisturbed]) h fun _ hr => ih _ hr hw
    | stopped =>
      have asked : Move limit false (.at (.ask .stopped next)) w _ _ _ := .stopped next
      rw [hw] at asked
      exact (Course.single asked).followed (by simp [Act.Undisturbed]) h fun _ hr => ih _ hr hw
    | notify n =>
      have told : Move limit false (.at (.ask (.notify n) next)) w _ _ _ := .notify n next false
      rw [Bool.or_false] at told
      exact (Course.single told).followed (by simp [Act.Undisturbed]) h fun _ hr => ih _ hr hw
    | call k l =>
      unfold alone at h
      split at h
      next hk =>
        have called : Course limit false (.at (.ask (.call k l) next)) w _ _ _ :=
          .move (.call k l next hw) (.single (.answered hw hk next))
        exact called.followed (by simp [Act.Undisturbed]) h fun _ hr => ih _ hr hw
      next => cases h
    | pause d =>
      have paused : Course limit false (.at (.ask (.pause d) next)) w _ _ w := .single (.pause d next)
      exact paused.followed (by simp [Act.Undisturbed]) h fun _ hr => ih _ hr hw
  | split joining count branch next _ _ => cases h

/-- Whoever answers everything can follow a process that does not split to its end. -/
theorem Process.Ensures.alone {p : Process α} {Q : α → Prop} (h : p.Ensures (fun _ => False) Q)
    (hk : ∀ k l, (answers k l).IsProper l) (visits : Nat) : ∃ r, p.alone answers limit visits = some r := by
  induction p generalizing visits with
  | done a => exact ⟨_, rfl⟩
  | ask q next ih =>
    cases q with
    | visit =>
      obtain ⟨r, hr⟩ := ih (decide (visits < limit)) (h _) (visits + 1)
      exact ⟨_, congrArg (Option.map _) hr⟩
    | stopped | pause =>
      obtain ⟨r, hr⟩ := ih false (h _) visits
      exact ⟨_, congrArg (Option.map _) hr⟩
    | notify n =>
      obtain ⟨r, hr⟩ := ih () (h _) visits
      exact ⟨_, congrArg (Option.map _) hr⟩
    | call k l =>
      obtain ⟨r, hr⟩ := ih (answers k l) (h _) visits
      exact ⟨_, (if_pos (hk k l)).trans (congrArg (Option.map _) hr)⟩
  | split joining count branch next _ _ => exact h.1.elim

theorem Process.completes_of_alone {p : Process α} {a : α} (h : p.alone answers limit 0 = some (acts, a)) :
    p.Completes answers limit acts a := by
  obtain ⟨w, hc, hu⟩ := alone_course (w := {}) h rfl
  exact ⟨⟨w, hc⟩, hu⟩

/-- What is seen of a process that is followed is true of an end to which it comes. -/
theorem Process.completes_of_seen {β : Type} {p : Process α} {seen : List Act × α → β} {x : β}
    (h : (p.alone answers limit 0).map seen = some x) : ∃ acts a, p.Completes answers limit acts a ∧ seen (acts, a) = x := by
  obtain ⟨⟨acts, a⟩, hr, hx⟩ := Option.map_eq_some_iff.mp h
  exact ⟨acts, a, completes_of_alone hr, hx⟩

/-- A process that does not split comes to an end if everything is answered. -/
theorem Process.Ensures.completes {p : Process α} {Q : α → Prop} (h : p.Ensures (fun _ => False) Q)
    (hk : ∀ k l, (answers k l).IsProper l) : ∃ acts a, p.Completes answers limit acts a := by
  obtain ⟨⟨acts, a⟩, hr⟩ := h.alone hk 0
  exact ⟨acts, a, Process.completes_of_alone hr⟩

end Capability.Execution
