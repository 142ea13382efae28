/-
  Capability.Proofs.Race — a split whose branches race has one winner at the most, and what
  the others do does not matter.

  The first branch to end without being broken off wins, and the others are called off. Until
  then and afterwards they may fail or be cancelled as they like; they only leave their
  records behind.

  (1) `Race.move`: whoever moves, the winner is the first branch that has ended well.
  (2) `Course.race`: branches that race are gathered when all of them have come to their ends.
  (3) `Course.closes`: what a split comes to behind its branches.
  (4) `first_success_keeps_one_winner`: the course of such a split from its step to its join.
-/

import Capability.Proofs.Plays
import Capability.Proofs.Splits
import Mathlib.Data.List.Find
import Mathlib.Data.List.Nodup

namespace Capability.Execution

variable {limit : Nat} {α : Type} {b : Bool} {w w' : Shared}

/-- The branch that comes to its end. -/
def Act.finisher : Act → Option Nat
  | .within i .ended => some i
  | _ => none

/-- The branches of a split in the order in which they come to their ends. -/
def finishers (acts : List Act) : List Nat := acts.filterMap Act.finisher

/-! ## The race -/

/-- Whether a branch is over and was not broken off. -/
def Standing.succeeded : Standing Outcome → Bool
  | .finished o => o.ending.isOk
  | _ => false

/-- Whether there is a branch at a place that is over and was not broken off. -/
def succeededAt {count : Nat} (branches : Fin count → Standing Outcome) (i : Nat) : Bool :=
  if h : i < count then (branches ⟨i, h⟩).succeeded else false

/-- The branches that are over are those that have finished, and the first of them that
    succeeded has won. -/
structure Race {count : Nat} (order : List Nat) (branches : Fin count → Standing Outcome) (winner : Option Nat) : Prop where
  nodup : order.Nodup
  mem : ∀ i ∈ order, i < count
  finished : ∀ i : Fin count, i.val ∈ order ↔ ∃ o, branches i = .finished o
  winner : winner = order.find? (succeededAt branches)

/-- A move that comes to an end is made by what is done, and any other leads on. -/
theorem Move.ends {s s' : Standing α} {act : Act} (h : Move limit b s w act s' w') :
    (∃ a, act = .ended ∧ s = .at (.done a) ∧ s' = .finished a) ∨ act ≠ .ended ∧ ∀ a, s' ≠ .finished a := by
  cases h with
  | finish a => exact .inl ⟨a, rfl, rfl, rfl⟩
  | _ => exact .inr ⟨by simp, by simp⟩

theorem Move.not_from_over {s : Standing α} {act : Act} {a : α} (h : Move limit b (.finished a) w act s w') : False := by
  cases h

theorem succeededAt_update {count : Nat} (branches : Fin count → Standing Outcome) (i : Fin count)
    (t : Standing Outcome) (j : Nat) :
    succeededAt (Function.update branches i t) j = if j = i.val then t.succeeded else succeededAt branches j := by
  unfold succeededAt
  by_cases e : j = i.val
  · subst e; simp
  · have hne : ∀ h : j < count, (⟨j, h⟩ : Fin count) ≠ i := fun h he => e (congrArg Fin.val he)
    by_cases h : j < count
    · simp [e, h, Function.update_of_ne (hne h)]
    · simp [e, h]

/-- A branch that has not finished does not matter for who has won. -/
theorem find?_succeededAt_update {count : Nat} {order : List Nat} (branches : Fin count → Standing Outcome)
    {i : Fin count} (hi : i.val ∉ order) (t : Standing Outcome) :
    order.find? (succeededAt (Function.update branches i t)) = order.find? (succeededAt branches) := by
  refine List.find?_congr fun j hj => ?_
  have hne : j ≠ i.val := fun e => hi (e ▸ hj)
  rw [succeededAt_update, if_neg hne]

theorem Race.move {count : Nat} {order : List Nat} {branches : Fin count → Standing Outcome} {winner : Option Nat}
    (hr : Race order branches winner) {c : Bool} {i : Fin count} {act : Act} {t : Standing Outcome}
    (h : Move limit c (branches i) w act t w') :
    Race (order ++ (Act.within i act).finisher.toList) (Function.update branches i t) (t.elect .first winner i) := by
  have hi : i.val ∉ order := fun hm => by
    obtain ⟨o, ho⟩ := (hr.finished i).mp hm
    rw [ho] at h
    exact h.not_from_over
  have hne : ∀ j : Fin count, j ≠ i → (j.val ∈ order ++ [i.val] ↔ j.val ∈ order) := fun j hj => by
    have : j.val ≠ i.val := fun e => hj (Fin.ext e)
    simp [this]
  rcases h.ends with ⟨o, rfl, ho, rfl⟩ | ⟨hact, ht⟩
  · refine ⟨?_, ?_, fun j => ?_, ?_⟩
    · simpa [Act.finisher] using List.Nodup.concat hi hr.nodup
    · intro j hj
      rcases List.mem_append.mp hj with hj | hj
      · exact hr.mem j hj
      · obtain rfl := List.mem_singleton.mp hj
        exact i.isLt
    · by_cases e : j = i
      · subst e; simp [Act.finisher]
      · rw [Function.update_of_ne e]
        exact (hne j e).trans (hr.finished j)
    · have found : (order ++ [i.val]).find? (succeededAt (Function.update branches i (.finished o))) =
          winner.or (if o.ending.isOk then some i.val else none) := by
        rw [List.find?_append, find?_succeededAt_update branches hi, ← hr.winner]
        cases hok : o.ending.isOk <;> simp [succeededAt_update, Standing.succeeded, hok]
      show Execution.elect .first winner i o = (order ++ [i.val]).find? _
      rw [found]
      unfold Execution.elect
      cases winner with
      | some i' => rfl
      | none => cases o.ending <;> rfl
  · have hf : (Act.within i act).finisher = none := by
      cases act <;> first | rfl | exact absurd rfl hact
    have he : t.elect .first winner i = winner := by
      cases t with
      | finished o => exact absurd rfl (ht o)
      | _ => rfl
    rw [hf, he, Option.toList_none, List.append_nil]
    refine ⟨hr.nodup, hr.mem, fun j => ?_, ?_⟩
    · by_cases e : j = i
      · subst e
        simp [hi, ht]
      · rw [Function.update_of_ne e]
        exact hr.finished j
    · rw [find?_succeededAt_update branches hi]
      exact hr.winner

/-- Branches that have not begun. -/
theorem Race.start {count : Nat} (branch : Fin count → Process Outcome) :
    Race [] (fun i => .at (branch i)) none := by
  refine ⟨List.nodup_nil, by simp, fun i => ?_, rfl⟩
  simp

/-- Branches that race are gathered when all of them have finished. -/
theorem Course.race {J : Joining → Prop} {count : Nat} {branches : Fin count → Standing Outcome} {winner : Option Nat}
    {next : Gathered → Process α} {a : α} {acts : List Act} {order : List Nat}
    (h : Course limit b (.fork .first count branches winner next) w acts (.at (.done a)) w')
    (hr : Race order branches winner) {P : Fin count → Outcome → Prop} (hP : ∀ i, (branches i).Ensures J (P i)) :
    ∃ outcomes winner' before after w₁, acts = before ++ .gathered ⟨List.ofFn outcomes, winner'⟩ :: after ∧
      (∀ i, P i (outcomes i)) ∧ Race (order ++ finishers before) (fun i => .finished (outcomes i)) winner' ∧
      Course limit b (.at (next ⟨List.ofFn outcomes, winner'⟩)) w₁ after (.at (.done a)) w' := by
  generalize hs : Standing.fork .first count branches winner next = s at h
  generalize ht : Standing.at (.done a) = t at h
  induction h generalizing branches winner order with
  | stay => subst hs; cases ht
  | @move _ s₁ _ _ _ _ act acts hm hc ih =>
    subst hs
    cases hm with
    | @branch _ _ _ _ _ _ _ _ _ i act t hm =>
      have hP' : ∀ j, (Function.update branches i t j).Ensures J (P j) := fun j => by
        by_cases e : j = i
        · subst e
          simpa using hm.ensures (hP j)
        · simpa [Function.update_of_ne e] using hP j
      obtain ⟨outcomes, winner', before, after, w₁, rfl, ho, hr', hc'⟩ := ih (hr.move hm) hP' rfl ht
      refine ⟨outcomes, winner', _ :: before, after, w₁, rfl, ho, ?_, hc'⟩
      have split : finishers (.within i act :: before) =
          (Act.within i act).finisher.toList ++ finishers before := by
        unfold finishers
        cases hf : (Act.within i act).finisher <;> simp [hf]
      rwa [split, ← List.append_assoc]
    | gather outcomes ho =>
      subst ht
      refine ⟨outcomes, winner, [], acts, _, rfl, fun i => ?_, ?_, hc⟩
      · have hi := hP i
        rwa [ho i] at hi
      · have he : branches = fun i => .finished (outcomes i) := funext ho
        rw [← he]
        simpa [finishers] using hr
  | elsewhere visits cancels _ ih =>
    obtain ⟨outcomes, winner', before, after, w₁, rfl, ho, hr', hc'⟩ := ih hr hP hs ht
    exact ⟨outcomes, winner', _ :: before, after, w₁, rfl, ho, hr', hc'⟩

/-- A split that is under way was opened. -/
theorem Course.opens {joining : Joining} {count : Nat} {branch : Fin count → Process Outcome}
    {next : Gathered → Process α} {a : α} {acts : List Act}
    (h : Course limit b (.at (.split joining count branch next)) w acts (.at (.done a)) w') :
    ∃ before after w₁, acts = before ++ after ∧ finishers before = [] ∧
      Course limit b (.fork joining count (fun i => .at (branch i)) none next) w₁ after (.at (.done a)) w' := by
  generalize hs : Standing.at (.split joining count branch next) = s at h
  generalize ht : Standing.at (.done a) = t at h
  induction h with
  | stay => subst hs; cases ht
  | move hm hc ih =>
    subst hs ht
    cases hm
    exact ⟨[_], _, _, rfl, rfl, hc⟩
  | elsewhere visits cancels _ ih =>
    obtain ⟨before, after, w₁, rfl, hf, hc⟩ := ih hs ht
    exact ⟨_ :: before, after, w₁, rfl, hf, hc⟩

/-- Where there is no split, no branch finishes. -/
theorem Course.no_finishers {s s' : Standing α} {acts : List Act} (h : Course limit b s w acts s' w') {Q : α → Prop}
    (hs : s.Ensures (fun _ => False) Q) : finishers acts = [] := by
  induction h with
  | stay => rfl
  | @move _ _ _ _ _ _ act _ hm _ ih =>
    have hf : act.finisher = none := by
      cases hm with
      | branch => exact hs.1.elim
      | _ => rfl
    rw [finishers, List.filterMap_cons_none hf]
    exact ih (hm.ensures hs)
  | elsewhere _ _ _ ih => exact ih hs

/-- A walk that goes on with another one comes to the end of the first and goes on from
    there. -/
theorem Walk.course_bind {β : Type} {m : Walk α} {f : α → Walk β} {s t : Scope} {r : Except Halt β} {acts : List Act}
    (h : Course limit b (.at ((m >>= f).process s)) w acts (.finished (r, t)) w') {Q : Except Halt α → Scope → Prop}
    {J : Joining → Prop} (hm : m.Ensures J s Q) :
    ∃ x u acts₁ acts₂ w₁, acts = acts₁ ++ acts₂ ∧ Course limit b (.at (m.process s)) w acts₁ (.at (.done (x, u))) w₁ ∧
      Q x u ∧ Course limit b (.at (match x with
        | .ok a => (f a).process u
        | .error h => .done (.error h, u))) w₁ acts₂ (.finished (r, t)) w' := by
  rw [Walk.process_bind] at h
  obtain ⟨⟨x, u⟩, acts₁, acts₂, w₁, rfl, h₁, h₂⟩ := h.split_bind
  exact ⟨x, u, acts₁, acts₂, w₁, rfl, h₁, h₁.ensures (s := .at (m.process s)) hm, h₂⟩

/-- Whoever looks for a cancellation is told of the one there is by then. -/
theorem Course.asks {next : Bool → Process α} {a : α} {acts : List Act}
    (h : Course limit b (.at (.ask .stopped next)) w acts (.finished a) w') :
    ∃ before acts' w₁, acts = before ++ .asked (b || w₁.cancelled) :: acts' ∧
      Course limit b (.at (next (b || w₁.cancelled))) w₁ acts' (.finished a) w' := by
  generalize hs : Standing.at (.ask .stopped next) = s at h
  generalize ht : Standing.finished a = t at h
  induction h with
  | stay => subst hs; cases ht
  | move hm hc =>
    subst hs ht
    cases hm
    exact ⟨[], _, _, rfl, hc⟩
  | elsewhere visits cancels _ ih =>
    obtain ⟨before, acts', w₁, rfl, h⟩ := ih hs ht
    exact ⟨_ :: before, acts', w₁, rfl, h⟩

/-- As long as nothing is cancelled, nobody is told that it is. -/
theorem Course.asks_calmly {next : Bool → Process α} {a : α} {acts : List Act}
    (h : Course limit false (.at (.ask .stopped next)) w acts (.finished a) w') (hw : w'.cancelled = false) :
    ∃ acts' w₁, Course limit false (.at (next false)) w₁ acts' (.finished a) w' := by
  obtain ⟨_, acts', w₁, -, h⟩ := h.asks
  have calm : w₁.cancelled = false := (Bool.or_eq_false_iff.mp (h.cancelled.symm.trans hw)).1
  rw [calm] at h
  exact ⟨acts', w₁, h⟩

/-! ## Verdicts -/

theorem verdict_of_winner {g : Gathered} {i : Nat} {o : Outcome} (hi : g.winner = some i) (ho : g.outcomes[i]? = some o) :
    verdict g = .passed o.hasEnded := by
  simp [verdict, hi, ho]

/-- A branch that was cancelled weighs more than any failure. -/
theorem verdict_of_cancelled {g : Gathered} (hw : g.winner = none) (h : ∃ o ∈ g.outcomes, o.ending = .error .cancelled) :
    verdict g = .cancelled := by
  obtain ⟨o, ho, he⟩ := h
  have cancelled : g.outcomes.any Outcome.isCancelled = true :=
    List.any_eq_true.mpr ⟨o, ho, by simp [Outcome.isCancelled, he]⟩
  simp [verdict, verdictOnAll, hw, cancelled]

/-- Where all were broken off and nothing was cancelled, the first failure weighs. -/
theorem verdict_of_failed {g : Gathered} (hw : g.winner = none) (hne : g.outcomes ≠ [])
    (hbroken : ∀ o ∈ g.outcomes, o.ending.isOk = false) (h : ∀ o ∈ g.outcomes, o.ending ≠ .error .cancelled) :
    ∃ node fault, g.outcomes.findSome? Outcome.failure? = some (node, fault) ∧ verdict g = .failed node fault := by
  have calm : g.outcomes.any Outcome.isCancelled = false := by
    refine List.any_eq_false.mpr fun o ho => ?_
    have := h o ho
    unfold Outcome.isCancelled
    split <;> simp_all
  obtain ⟨o, os, hos⟩ := List.exists_cons_of_ne_nil hne
  have ho : o ∈ g.outcomes := hos ▸ List.mem_cons_self
  have hb := hbroken o ho
  have hc := h o ho
  obtain ⟨node, fault, he⟩ : ∃ node fault, o.ending = .error (.failed node fault) := by
    cases he : o.ending with
    | ok f => rw [he] at hb; cases hb
    | error halt =>
      cases halt with
      | cancelled => exact absurd he hc
      | failed node fault => exact ⟨node, fault, rfl⟩
  have first : g.outcomes.findSome? Outcome.failure? = some (node, fault) := by
    simp [hos, Outcome.failure?, he]
  exact ⟨node, fault, first, by simp [verdict, verdictOnAll, hw, calm, first]⟩

/-- What a split comes to behind its branches as long as nothing is cancelled. -/
theorem Course.closes {s : Setting} {n : Node} {g : Gathered} {scope t : Scope} {opening : Step}
    {fs : List ConditionFailure} {r : Except Halt Next} {acts : List Act} (hp : opening.Passes n.id)
    (h : Course limit false (.at ((closeSplit s n g).process (scope.record opening fs))) w acts (.finished (r, t)) w')
    (hw : w'.cancelled = false) :
    ∃ join, SplitRecords n.id scope g.outcomes join t ∧
      t.context.vars = (foldBranches s.joining g (scope.record opening fs)).context.vars ∧
      match verdict g with
      | .cancelled => join = none ∧ r = .error .cancelled
      | .failed node fault => join = none ∧ r = .error (.failed node fault)
      | .passed ended => join.map (·.node) = s.graph.join? n.id ∧
          r = .ok (behindJoin s (s.graph.join? n.id) ended t.context.vars) := by
  rw [closeSplit_process] at h
  generalize hu : foldBranches s.joining g (scope.record opening fs) = u at h
  have broken : SplitRecords n.id scope g.outcomes none u := by
    have records : SplitRecords n.id scope g.outcomes none
        ((foldBranches s.joining g (scope.record opening fs)).noting []) := .folded hp fs []
    rwa [Scope.noting_nil, hu] at records
  cases hv : verdict g with
  | cancelled =>
    rw [hv] at h
    have he := h.ensured (J := fun _ => True) (Q := (· = (.error .cancelled, u))) rfl
    obtain ⟨rfl, rfl⟩ : r = .error .cancelled ∧ t = u := ⟨congrArg Prod.fst he, congrArg Prod.snd he⟩
    exact ⟨none, broken, rfl, rfl, rfl⟩
  | failed node fault =>
    rw [hv] at h
    obtain ⟨acts', w₁, h⟩ := h.asks_calmly hw
    have he := h.ensured (J := fun _ => True) (Q := (· = (.error (.failed node fault), u))) rfl
    obtain ⟨rfl, rfl⟩ : r = .error (.failed node fault) ∧ t = u := ⟨congrArg Prod.fst he, congrArg Prod.snd he⟩
    exact ⟨none, broken, rfl, rfl, rfl⟩
  | passed ended =>
    rw [hv] at h
    obtain ⟨acts', w₁, h⟩ := h.asks_calmly hw
    obtain ⟨hr, ht⟩ := h.ensured (passJoin_ensures (J := fun _ => True) s (s.graph.join? n.id) ended u)
    cases hj : s.graph.join? n.id with
    | none =>
      rw [hj] at ht hr
      obtain ⟨gs, rfl⟩ := ht
      subst hu
      exact ⟨none, .folded hp fs gs, rfl, rfl, hr⟩
    | some id =>
      obtain ⟨j, hd, rfl, -⟩ := Graph.join?_isJoin hj
      rw [hj, Option.bind_some, hd] at ht
      rw [hj] at hr
      obtain ⟨e, gs, he, rfl⟩ := ht
      subst hu
      exact ⟨some e, .joined hp he fs gs, rfl, by simp [he.node], hr⟩

/-! ## Splits -/

/-- Whether the branch at a place was not broken off. -/
def Gathered.endedWell (g : Gathered) (i : Nat) : Bool := g.outcomes[i]?.any fun o => o.ending.isOk

/-- The winner of a finished race is the first branch to end well. -/
theorem Race.winner_eq {count : Nat} {order : List Nat} {outcomes : Fin count → Outcome} {winner : Option Nat}
    (h : Race order (fun i => .finished (outcomes i)) winner) :
    order.Perm (List.range count) ∧
      winner = order.find? (Gathered.endedWell ⟨List.ofFn outcomes, winner⟩) := by
  constructor
  · refine (List.perm_ext_iff_of_nodup h.nodup List.nodup_range).mpr fun i => ?_
    rw [List.mem_range]
    exact ⟨h.mem i, fun hi => (h.finished ⟨i, hi⟩).mpr ⟨_, rfl⟩⟩
  · refine h.winner.trans (List.find?_congr fun i hi => ?_)
    have hlt := h.mem i hi
    simp [succeededAt, Standing.succeeded, Gathered.endedWell, hlt]

/-- How the branches of a split under way are gathered. -/
theorem Course.gathers {s : Setting} (hs : s.joining = .first) {inner : Inner} (hi : inner.Grows (fun _ => True))
    {n : Node} {scope t : Scope} {acts : List Act} {r : Except Halt Next}
    (h : Course limit b (.at ((visitSplit s inner n).process scope)) w acts (.finished (r, t)) w') :
    ∃ g before after opening fs w₁ rest, acts = before ++ .gathered g :: after ∧
      g.outcomes.length = (branchStarts s n scope.context.vars).length ∧
      (finishers before).Perm (List.range g.outcomes.length) ∧
      g.winner = (finishers before).find? g.endedWell ∧
      (∀ o ∈ g.outcomes, scope.fork.Grows o.scope) ∧ Step.Passes opening n.id ∧
      Course limit b (.at ((closeSplit s n g).process (scope.record opening fs))) w₁ rest (.finished (r, t)) w' := by
  obtain ⟨x, u, acts₁, acts₂, w₁, rfl, h₁, hopen, h⟩ :=
    Walk.course_bind h (openSplit_ensures (J := fun _ => False) s n scope)
  have quiet₁ : finishers acts₁ = [] := h₁.no_finishers (openSplit_ensures (J := fun _ => False) s n scope)
  obtain ⟨rfl, opening, fs, hp, rfl⟩ := hopen
  generalize branchStarts s n scope.context.vars = starts at h
  have h : Course limit b (.at ((Walk.split s.joining (starts.map (inner (s.graph.join? n.id).toList)) scope.fork >>=
      closeSplit s n).process (scope.record opening fs))) w₁ acts₂ (.finished (r, t)) w' := h
  rw [hs, Walk.process_bind] at h
  obtain ⟨⟨x, u⟩, acts₂, acts₃, w₂, rfl, h₂, h₃⟩ := h.split_bind
  have h₂ : Course limit b (.at (.split .first _
      (fun i => ((starts.map (inner (s.graph.join? n.id).toList))[i]).strand scope.fork)
      fun g => .done (.ok g, scope.record opening fs))) w₁ acts₂ (.at (.done (x, u))) w₂ := h₂
  obtain ⟨opened, acts₂, w₂', rfl, quiet₂, h₂⟩ := h₂.opens
  obtain ⟨outcomes, winner, racing, behind, w₂'', rfl, grown, race, h₂⟩ :=
    h₂.race (J := fun _ => True) (Race.start _) (P := fun _ o => scope.fork.Grows o.scope) fun i => by
      obtain ⟨start, -, hstart⟩ := List.mem_map.mp (List.getElem_mem i.isLt)
      show ((starts.map (inner (s.graph.join? n.id).toList))[i.val].strand scope.fork).Ensures _ _
      rw [← hstart]
      exact strand_ensures (hi _ start) scope.fork
  obtain ⟨rfl, rfl⟩ : x = .ok ⟨List.ofFn outcomes, winner⟩ ∧ u = scope.record opening fs := by
    have he := h₂.ensures (J := fun _ => True)
      (Q := (· = (.ok ⟨List.ofFn outcomes, winner⟩, scope.record opening fs))) rfl
    exact ⟨congrArg Prod.fst he, congrArg Prod.snd he⟩
  obtain ⟨hperm, hwin⟩ := race.winner_eq
  have quiet : finishers (acts₁ ++ opened ++ racing) = finishers racing := by
    simp only [finishers, List.filterMap_append] at quiet₁ quiet₂ ⊢
    rw [quiet₁, quiet₂]
    rfl
  rw [List.nil_append] at hperm hwin
  refine ⟨⟨List.ofFn outcomes, winner⟩, acts₁ ++ opened ++ racing, behind ++ acts₃, opening, fs, w₂, acts₃, by simp,
    by simp, ?_, ?_, ?_, hp, h₃⟩
  · rw [quiet]
    simpa using hperm
  · rw [quiet]
    exact hwin
  · intro o ho
    obtain ⟨i, rfl⟩ := List.mem_ofFn.mp ho
    exact grown i

/-- A split whose branches race, in a run that is not cancelled. Its records are those of all
    branches in the order of their declaration. If some branch is not broken off, the first to
    end so wins: of the variables those change that it wrote, and the split goes on, behind its
    join if it has one. If all are broken off, no variable changes and the split is broken off
    as well, by a cancellation if there is one and by the first failure otherwise. -/
theorem first_success_keeps_one_winner {s : Setting} (hs : s.graph.strategy = .firstSuccess) {budget : Nat} {n : Node}
    {scope t : Scope} {acts : List Act} {r : Except Halt Next} (hw : w.cancelled = false)
    (hacts : ∀ act ∈ acts, act.cancels = false)
    (h : Course s.config.maxVisits false (.at ((visitSplit s (segment s budget) n).process scope)) w acts
      (.finished (r, t)) w') :
    w'.cancelled = false ∧ ∃ g before after join, acts = before ++ .gathered g :: after ∧
      g.outcomes.length = (branchStarts s n scope.context.vars).length ∧
      (finishers before).Perm (List.range g.outcomes.length) ∧
      g.winner = (finishers before).find? g.endedWell ∧
      SplitRecords n.id scope g.outcomes join t ∧
      ((∃ o ∈ g.outcomes, o.ending.isOk = true) → ∃ i o, g.winner = some i ∧ g.outcomes[i]? = some o ∧
        o.ending.isOk = true ∧ join.map (·.node) = s.graph.join? n.id ∧
        r = .ok (behindJoin s (s.graph.join? n.id) o.hasEnded t.context.vars) ∧
        ∀ key, t.context.get? key =
          if key ∈ o.scope.context.written then o.scope.context.get? key else scope.context.get? key) ∧
      (g.outcomes ≠ [] → (∀ o ∈ g.outcomes, o.ending.isOk = false) → g.winner = none ∧ join = none ∧
        (∀ key, t.context.get? key = scope.context.get? key) ∧
        ((∃ o ∈ g.outcomes, o.ending = .error .cancelled) → r = .error .cancelled) ∧
        ((∀ o ∈ g.outcomes, o.ending ≠ .error .cancelled) →
          ∃ node fault, g.outcomes.findSome? Outcome.failure? = some (node, fault) ∧
            r = .error (.failed node fault))) := by
  have calm : w'.cancelled = false := by
    rw [h.cancelled, hw, List.any_eq_false.mpr fun act ha => by simp [hacts act ha]]
    rfl
  have hj : s.joining = .first := if_pos hs
  obtain ⟨g, before, after, opening, fs, w₁, rest, hsplit, hlen, hperm, hwin, grown, hp, hclose⟩ :=
    h.gathers hj (segment_grows s trivial budget)
  obtain ⟨join, records, vars, closed⟩ := hclose.closes hp calm
  have bound : ∀ o ∈ g.outcomes, o.scope.context.Bound := fun o ho => (grown o ho).bound (Scope.fork_bound scope)
  have lookup : ∀ key, t.context.get? key = valueAfter key (g.kept .first) (scope.context.get? key) := fun key => by
    have folded := lookup_foldBranches .first g bound (scope.record opening fs) key
    rw [hj] at vars
    exact (congrArg (Keyed.lookup key) vars).trans folded
  refine ⟨calm, g, before, after, join, hsplit, hlen, hperm, hwin, records, ?_, ?_⟩
  · rintro ⟨o, ho, hok⟩
    obtain ⟨i, hi, rfl⟩ := List.mem_iff_getElem.mp ho
    have found : ((finishers before).find? g.endedWell).isSome := by
      refine List.find?_isSome.mpr ⟨i, hperm.mem_iff.mpr (List.mem_range.mpr hi), ?_⟩
      simp [Gathered.endedWell, List.getElem?_eq_getElem hi, hok]
    obtain ⟨i', hi'⟩ := Option.isSome_iff_exists.mp found
    have well : g.endedWell i' = true := List.find?_some hi'
    obtain ⟨o', ho', hok'⟩ := (Option.any_eq_true _ _).mp well
    have hwi : g.winner = some i' := hwin.trans hi'
    rw [verdict_of_winner hwi ho'] at closed
    refine ⟨i', o', hwi, ho', hok', closed.1, closed.2, fun key => ?_⟩
    rw [lookup, kept_winner hwi, ho', Option.toList_some, valueAfter_cons]
    rfl
  · intro hne hbroken
    have nobody : g.winner = none := by
      refine hwin.trans (List.find?_eq_none.mpr fun i _ => ?_)
      cases ho : g.outcomes[i]? with
      | none => simp [Gathered.endedWell, ho]
      | some o => simp [Gathered.endedWell, ho, hbroken o (List.mem_of_getElem? ho)]
    have kept : ∀ key, t.context.get? key = scope.context.get? key := fun key => by
      rw [lookup, kept_nobody nobody]
      rfl
    by_cases hc : ∃ o ∈ g.outcomes, o.ending = .error .cancelled
    · rw [verdict_of_cancelled nobody hc] at closed
      obtain ⟨o, ho, he⟩ := hc
      exact ⟨nobody, closed.1, kept, fun _ => closed.2, fun h => absurd he (h o ho)⟩
    · have hnc : ∀ o ∈ g.outcomes, o.ending ≠ .error .cancelled := fun o ho he => hc ⟨o, ho, he⟩
      obtain ⟨node, fault, hf, hv⟩ := verdict_of_failed nobody hne hbroken hnc
      rw [hv] at closed
      exact ⟨nobody, closed.1, kept, fun h => absurd h hc, fun _ => ⟨node, fault, hf, closed.2⟩⟩

/-- The quick one of two rivals wins, and the split goes on behind its join with what it wrote. -/
theorem the_quick_rival_wins : ∃ (g : Gathered) (i : Nat) (o : Outcome) (t : Scope) (acts : List Act) (w' : Shared),
    Course rivals.config.maxVisits false
        (.at ((visitSplit rivals (segment rivals 9) { id := "fork", kind := .split }).process {})) {} acts
        (.finished (.ok (.node "end"), t)) w' ∧
      g.outcomes.length = 2 ∧ g.winner = some i ∧ g.outcomes[i]? = some o ∧
      t.context.get? "x" = some (.str "result_of_quick") ∧
      ∀ key, t.context.get? key = if key ∈ o.scope.context.written then o.scope.context.get? key else none := by
  have played : (((visitSplit rivals (segment rivals 9) { id := "fork", kind := .split }).process {}).play
      Rehearsal.collaborators rivals.config.maxVisits {} 9 { script := slowOne }).map
        (fun p => (p.1.1.toOption, (p.1.2.context.get? "x").any (·.same (.str "result_of_quick")), p.2.cancelled)) =
      some (some (.node "end"), true, false) := by
    decide +kernel
  obtain ⟨⟨⟨r, t⟩, st⟩, hplay, hshown⟩ := Option.map_eq_some_iff.mp played
  obtain ⟨hr, hrest⟩ := Prod.mk.inj hshown
  obtain ⟨hx, hcalm⟩ := Prod.mk.inj hrest
  obtain ⟨acts, hc⟩ := Process.play_course hplay
  obtain rfl := ok_of_toOption hr
  have hvalue : t.context.get? "x" = some (.str "result_of_quick") := by
    obtain ⟨v, hv, hsame⟩ := (Option.any_eq_true _ _).mp hx
    rw [hv, Json.same_str.mp hsame]
  have hstarts : (branchStarts rivals { id := "fork", kind := .split } []).length = 2 := by decide +kernel
  obtain ⟨-, g, before, after, join, -, hlen, -, -, -, hwon, hlost⟩ :=
    first_success_keeps_one_winner rfl rfl (hc.calm hcalm) hc
  have htwo : g.outcomes.length = 2 := hlen.trans hstarts
  -- Had all branches been broken off, so would have been the split.
  have hok : ∃ o ∈ g.outcomes, o.ending.isOk = true := by
    by_contra hno
    have hbroken : ∀ o ∈ g.outcomes, o.ending.isOk = false := fun o ho =>
      Bool.eq_false_iff.mpr fun h => hno ⟨o, ho, h⟩
    have hne : g.outcomes ≠ [] := fun h => by simp [h] at htwo
    obtain ⟨-, -, -, hcancelled, hfailed⟩ := hlost hne hbroken
    by_cases h : ∃ o ∈ g.outcomes, o.ending = .error .cancelled
    · cases hcancelled h
    · obtain ⟨node, fault, -, hf⟩ := hfailed fun o ho he => h ⟨o, ho, he⟩
      cases hf
  obtain ⟨i, o, hwin, ho, -, -, -, hvars⟩ := hwon hok
  exact ⟨g, i, o, t, acts, _, hc, htwo, hwin, ho, hvalue, hvars⟩

end Capability.Execution
