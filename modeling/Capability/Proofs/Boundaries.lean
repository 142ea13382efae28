/-
  Capability.Proofs.Boundaries — at which nodes a segment stops.

  A pass of a loop stops at the end and at the start of the loop, a branch of a split at the
  join. A segment knows its own boundaries alone: at one of a segment around it that is not
  its own as well, it goes on as from any other node.

  (1) `segment_at_boundary`, `segment_gives`: a segment stops at its own boundaries, and at no others.
  (2) `segment_resumes`: a segment that stops at more boundaries is the same until it stops there.
  (3) `boundaries_around_hold_iff_own`: a segment honours the boundaries around it in just those
      courses that come to none of them but its own.
  (4) `a_loop_runs_over_the_join_around_it`: a graph in which one does not.
-/

import Capability.Proofs.Steady
import Capability.Rehearsal.Script

namespace Capability.Execution

variable {limit : Nat} {α β : Type} {b : Bool} {w w' : Shared}

/-! ## Where segments end -/

theorem Process.ensures_true {p : Process α} : p.Ensures (fun _ => True) fun _ => True := by
  induction p with
  | done a => trivial
  | ask q next ih => exact fun r => ih r
  | split joining count branch next ihb ih =>
    exact ⟨trivial, fun _ _ => True, fun i => ihb i, fun _ _ _ => ih _⟩

/-- What the walk gives satisfies `Q`, unless it is broken off. -/
def Walk.Gives (m : Walk α) (Q : α → Prop) : Prop := ∀ s, m.Ensures (fun _ => True) s fun r _ => ∀ a, r = .ok a → Q a

namespace Walk.Gives

theorem bind_of {m : Walk α} {P : α → Prop} (hm : m.Gives P) {f : α → Walk β} {Q : β → Prop}
    (h : ∀ a, P a → (f a).Gives Q) : (m >>= f).Gives Q := by
  intro s
  refine Walk.ensures_bind.mpr ((hm s).mono fun r t hr => ?_)
  cases r with
  | error => exact fun _ h => by cases h
  | ok a => exact h a (hr a rfl) t

/-- Only the end of a walk matters for what it gives. -/
theorem bind {m : Walk α} {f : α → Walk β} {Q : β → Prop} (h : ∀ a, (f a).Gives Q) : (m >>= f).Gives Q :=
  bind_of (P := fun _ => True) (fun _ => Process.ensures_true.mono fun _ _ _ _ => trivial) fun a _ => h a

theorem pure {a : α} {Q : α → Prop} (h : Q a) : (pure a : Walk α).Gives Q := fun _ _ e => by cases e; exact h

theorem throw {h : Halt} {Q : α → Prop} : (throw h : Walk α).Gives Q := fun _ _ e => by cases e

end Walk.Gives

/-- The walk leads on, or to an end, but not to a boundary. -/
def Walk.Leads (m : Walk Next) : Prop := m.Gives fun next => ∀ a, next ≠ .stop (.boundary a)

section Leading

theorem failStep_leads (n : Node) (step : OpenStep) (report : StepReport) (fault : Fault) :
    (Walk.failStep n step report fault : Walk Next).Leads := .bind fun _ => .throw

theorem cancelStep_leads (n : Node) (step : OpenStep) : (Walk.cancelStep n step : Walk Next).Leads :=
  .bind fun _ => .bind fun _ => .throw

theorem advance_leads (s : Setting) (id : String) : (advance s id).Leads := by
  refine .bind fun next => ?_
  cases next with
  | none => exact .pure fun _ h => by cases h
  | some id => exact .pure fun _ h => by cases h

theorem handleFailure_leads (s : Setting) (n : Node) (step : OpenStep) (fault : Fault) (retries : Nat) :
    (handleFailure s n step fault retries).Leads := by
  refine .bind fun _ => .bind fun reroute => ?_
  cases reroute with
  | some e => exact .bind fun _ => .bind fun _ => .pure fun _ h => by cases h
  | none =>
    refine .bind fun skipped => ?_
    cases skipped with
    | true => exact .bind fun _ => advance_leads s n.id
    | false => exact failStep_leads _ _ _ _

theorem visitBranch_leads (n : Node) : (visitBranch n).Leads := by
  refine .bind fun step => ?_
  cases n.conditions with
  | nil => exact failStep_leads _ _ _ _
  | cons first rest => exact .bind fun _ => .bind fun _ => .pure fun _ h => by cases h

theorem visitLoop_leads (s : Setting) (inner : Inner) (n : Node) : (visitLoop s inner n).Leads := by
  refine .bind fun step => ?_
  cases s.graph.iterationEdge? n.id with
  | none => exact failStep_leads _ _ _ _
  | some e =>
    refine .bind fun _ => .bind fun ended => ?_
    cases ended with
    | true => exact .pure fun _ h => by cases h
    | false => exact advance_leads s e.source

theorem passJoin_leads (s : Setting) (join : Option String) (ended : Bool) : (passJoin s join ended).Leads := by
  cases join with
  | some id => exact .bind fun _ => advance_leads s id
  | none =>
    cases ended with
    | true => exact .pure fun _ h => by cases h
    | false => exact .pure fun _ h => by cases h

theorem visitSplit_leads (s : Setting) (inner : Inner) (n : Node) : (visitSplit s inner n).Leads := by
  refine .bind fun _ => .bind fun _ => .bind fun g => .bind fun _ => ?_
  cases verdict g with
  | cancelled => exact .throw
  | failed node fault => exact .bind fun _ => .throw
  | passed ended => exact .bind fun _ => passJoin_leads _ _ _

theorem visitSkill_leads (s : Setting) (n : Node) : (visitSkill s n).Leads := by
  refine .bind fun step => ?_
  cases n.skillId with
  | none => exact failStep_leads _ _ _ _
  | some skill =>
    refine .bind fun r => ?_
    split
    · exact .bind fun _ => .bind fun _ => advance_leads s n.id
    · exact cancelStep_leads _ _
    · exact handleFailure_leads _ _ _ _ _

theorem visitQuestion_leads (s : Setting) (n : Node) : (visitQuestion s n).Leads := by
  refine .bind fun step => ?_
  cases InteractionKind.ofNode? n.kind with
  | none => exact failStep_leads _ _ _ _
  | some kind =>
    refine .bind fun _ => .bind fun _ => .bind fun _ => .bind fun r => ?_
    split
    · exact .bind fun _ => .bind fun _ => advance_leads s n.id
    · exact cancelStep_leads _ _
    · exact handleFailure_leads _ _ _ _ _

theorem visit_leads (s : Setting) (inner : Inner) (n : Node) : (visit s inner n).Leads := by
  unfold visit
  split
  · exact .bind fun _ => .pure fun _ h => by cases h
  · exact .bind fun _ => advance_leads s n.id
  · exact .bind fun _ => advance_leads s n.id
  · exact .bind fun _ => advance_leads s n.id
  · exact .bind fun _ => advance_leads s n.id
  · exact visitBranch_leads n
  · exact visitLoop_leads s inner n
  · exact visitSplit_leads s inner n
  · exact visitSkill_leads s n
  · exact visitQuestion_leads s n
  · exact visitQuestion_leads s n
  · exact visitQuestion_leads s n

end Leading

/-- A segment stops in front of its boundaries. -/
theorem segment_at_boundary {s : Setting} {own : List String} {id : String} (h : id ∈ own) (budget : Nat) :
    segment s budget own id = pure (.boundary id) := by
  cases budget <;> simp [segment, h]

/-- It stops in front of no others. -/
theorem segment_gives (s : Setting) (budget : Nat) (own : List String) (start : String) :
    (segment s budget own start).Gives fun flow => ∀ a, flow = .boundary a → a ∈ own := by
  induction budget generalizing start with
  | zero =>
    by_cases ho : start ∈ own
    · rw [segment_at_boundary ho]
      exact .pure fun a ha => by cases ha; exact ho
    · simp only [segment, List.contains_eq_mem, ho, decide_false, Bool.false_eq_true, if_false]
      exact .bind fun _ => .bind fun _ => .throw
  | succ budget ih =>
    by_cases ho : start ∈ own
    · rw [segment_at_boundary ho]
      exact .pure fun a ha => by cases ha; exact ho
    · simp only [segment, List.contains_eq_mem, ho, decide_false, Bool.false_eq_true, if_false]
      refine .bind fun _ => .bind fun allowed => ?_
      cases allowed with
      | false => exact .throw
      | true =>
        rw [if_pos rfl]
        cases s.graph.node? start with
        | none => exact .throw
        | some n =>
          refine .bind_of (visit_leads s _ n) fun next hn => ?_
          cases next with
          | node id => exact ih id
          | stop flow => exact .pure fun a ha => absurd (congrArg Next.stop ha) (hn a)

/-! ## Segments that stop at more boundaries -/

/-- The second process is the first one until it is over; if it stopped in front of a boundary,
    the first one may go on from there. -/
inductive Resumes (s : Setting) (own : List String) : Process Outcome → Process Outcome → Prop
  | same (o : Outcome) : Resumes s own (.done o) (.done o)
  | onward (left : Nat) (a : String) (scope : Scope) :
      Resumes s own ((segment s left own a).strand scope) (.done ⟨.ok (.boundary a), scope⟩)
  | ask {q : Request} {next next' : q.Reply → Process Outcome} :
      (∀ r, Resumes s own (next r) (next' r)) → Resumes s own (.ask q next) (.ask q next')
  | split {joining : Joining} {count : Nat} {branch : Fin count → Process Outcome}
      {next next' : Gathered → Process Outcome} : (∀ g, Resumes s own (next g) (next' g)) →
      Resumes s own (.split joining count branch next) (.split joining count branch next')

section Resuming

variable {s : Setting} {own : List String}

theorem Resumes.bind {p : Process α} {f f' : α → Process Outcome} (h : ∀ a, Resumes s own (f a) (f' a)) :
    Resumes s own (p.bind f) (p.bind f') := by
  induction p with
  | done a => exact h a
  | ask q next ih => exact .ask fun r => ih r h
  | split joining count branch next _ ih => exact .split fun g => ih g h

theorem strand_bind (m : Walk α) (f : α → Walk Flow) (scope : Scope) :
    (m >>= f).strand scope = (m.process scope).bind fun p =>
      match p.1 with
      | .ok a => (f a).strand p.2
      | .error h => .done ⟨.error h, p.2⟩ := by
  show ((m >>= f).process scope).bind _ = _
  rw [Walk.process_bind, Process.bind_assoc]
  congr 1
  funext p
  obtain ⟨_ | _, _⟩ := p <;> rfl

/-- Walks that begin alike resume alike. -/
theorem Resumes.walk {m : Walk α} {f f' : α → Walk Flow}
    (h : ∀ a scope, Resumes s own ((f a).strand scope) ((f' a).strand scope)) (scope : Scope) :
    Resumes s own ((m >>= f).strand scope) ((m >>= f').strand scope) := by
  rw [strand_bind, strand_bind]
  refine .bind fun p => ?_
  obtain ⟨_ | a, t⟩ := p
  · exact .same _
  · exact h a t

/-- Segments that are at a boundary of the one that stops at more. -/
theorem Resumes.at_boundary {around : List String} {id : String} (h : id ∈ own ∨ id ∈ around) (budget : Nat)
    (scope : Scope) :
    Resumes s own ((segment s budget own id).strand scope) ((segment s budget (own ++ around) id).strand scope) := by
  rw [segment_at_boundary (List.mem_append.mpr h)]
  exact .onward budget id scope

/-- A segment that stops at more boundaries is the same until it stops at one of these. -/
theorem segment_resumes (s : Setting) (own around : List String) (budget : Nat) (start : String) (scope : Scope) :
    Resumes s own ((segment s budget own start).strand scope)
      ((segment s budget (own ++ around) start).strand scope) := by
  induction budget generalizing start scope with
  | zero =>
    by_cases hb : start ∈ own ∨ start ∈ around
    · exact .at_boundary hb 0 scope
    · obtain ⟨ho, ha⟩ := not_or.mp hb
      simp only [segment, List.contains_eq_mem, List.mem_append, ho, ha, or_self, decide_false, Bool.false_eq_true,
        if_false]
      exact .walk (fun _ scope => .walk (fun _ scope => .same _) scope) scope
  | succ budget ih =>
    by_cases hb : start ∈ own ∨ start ∈ around
    · exact .at_boundary hb (budget + 1) scope
    · obtain ⟨ho, ha⟩ := not_or.mp hb
      simp only [segment, List.contains_eq_mem, List.mem_append, ho, ha, or_self, decide_false, Bool.false_eq_true,
        if_false]
      refine .walk (fun _ scope => .walk (fun allowed scope => ?_) scope) scope
      cases allowed with
      | false => exact .same _
      | true =>
        simp only [if_true]
        cases s.graph.node? start with
        | none => exact .same _
        | some n =>
          -- Both visit the node alike, for what is inside of it has boundaries of its own alone.
          refine .walk (fun next scope => ?_) scope
          cases next with
          | node id => exact ih id scope
          | stop flow => exact .same _

/-- As `Resumes`, of processes under way. -/
inductive Standing.Resumes (s : Setting) (own : List String) : Standing Outcome → Standing Outcome → Prop
  | at {p p' : Process Outcome} : Execution.Resumes s own p p' → Standing.Resumes s own (.at p) (.at p')
  | calling {k : Call} {l : Option Duration} {next next' : Answer → Process Outcome} :
      (∀ a, Execution.Resumes s own (next a) (next' a)) →
      Standing.Resumes s own (.calling k l next) (.calling k l next')
  | fork {joining : Joining} {count : Nat} {branches : Fin count → Standing Outcome} {winner : Option Nat}
      {next next' : Gathered → Process Outcome} : (∀ g, Execution.Resumes s own (next g) (next' g)) →
      Standing.Resumes s own (.fork joining count branches winner next) (.fork joining count branches winner next')

theorem Standing.Resumes.of_bind (r : Standing α) {f f' : α → Process Outcome}
    (h : ∀ a, Execution.Resumes s own (f a) (f' a)) : (r.bind f).Resumes s own (r.bind f') := by
  cases r with
  | «at» p => exact .at (.bind h)
  | calling k l next => exact .calling fun a => .bind h
  | fork joining count branches winner next => exact .fork fun g => .bind h
  | finished a => exact .at (h a)

/-- Until the second one is done, what comes next is the same. -/
theorem Standing.Resumes.shape {t t' : Standing Outcome} (h : t.Resumes s own t') (hd : ∀ o, t' ≠ .at (.done o)) :
    ∃ (β : Type) (r : Standing β) (f f' : β → Process Outcome), t = r.bind f ∧ t' = r.bind f' ∧
      (∀ a, Execution.Resumes s own (f a) (f' a)) ∧ (∀ a, r ≠ .at (.done a)) ∧ ∀ a, r ≠ .finished a := by
  cases h with
  | «at» hp =>
    cases hp with
    | same o => exact absurd rfl (hd o)
    | onward left a scope => exact absurd rfl (hd _)
    | @ask q next next' hn => exact ⟨q.Reply, .at (.ask q .done), next, next', rfl, rfl, hn, by simp, by simp⟩
    | @split joining count branch next next' hn =>
      exact ⟨Gathered, .at (.split joining count branch .done), next, next', rfl, rfl, hn, by simp, by simp⟩
  | @calling k l next next' hn => exact ⟨Answer, .calling k l .done, next, next', rfl, rfl, hn, by simp, by simp⟩
  | @fork joining count branches winner next next' hn =>
    exact ⟨Gathered, .fork joining count branches winner .done, next, next', rfl, rfl, hn, by simp, by simp⟩

/-- Until the second one is done, both can do the same. -/
theorem Standing.Resumes.move {t t' : Standing Outcome} (hr : t.Resumes s own t') (hd : ∀ o, t' ≠ .at (.done o))
    {act : Act} : (∀ u', Move limit b t' w act u' w' → ∃ u, Move limit b t w act u w' ∧ u.Resumes s own u') ∧
      ∀ u, Move limit b t w act u w' → ∃ u', Move limit b t' w act u' w' ∧ u.Resumes s own u' := by
  obtain ⟨β, r, f, f', rfl, rfl, hf, hdone, hover⟩ := hr.shape hd
  constructor
  · intro u' hm
    obtain ⟨r', hm', rfl⟩ := hm.of_bind hdone hover
    exact ⟨_, hm'.bind hdone f, .of_bind r' hf⟩
  · intro u hm
    obtain ⟨r', hm', rfl⟩ := hm.of_bind hdone hover
    exact ⟨_, hm'.bind hdone f', .of_bind r' hf⟩

/-- The first one can go where the second one comes to its end. -/
theorem Course.resumes {t t' : Standing Outcome} {acts : List Act} {o : Outcome}
    (h : Course limit b t' w acts (.at (.done o)) w') (hr : t.Resumes s own t') :
    ∃ u, Course limit b t w acts u w' ∧ u.Resumes s own (.at (.done o)) := by
  generalize he : Standing.at (Process.done o) = e at h
  induction h generalizing t with
  | stay =>
    subst he
    exact ⟨t, .stay, hr⟩
  | @move t' _ _ _ _ _ _ _ hm hc ih =>
    by_cases hd : ∃ o, t' = .at (.done o)
    · -- What is done can only be over, and never done again.
      obtain ⟨_, rfl⟩ := hd
      subst he
      cases hm
      cases hc.finished
    · obtain ⟨u₁, hm', hr'⟩ := (hr.move fun o e => hd ⟨o, e⟩).1 _ hm
      obtain ⟨u, hc', hu⟩ := ih hr' he
      exact ⟨u, .move hm' hc', hu⟩
  | elsewhere visits cancels _ ih =>
    obtain ⟨u, hc', hu⟩ := ih hr he
    exact ⟨u, .elsewhere visits cancels hc', hu⟩

/-- The second one goes where the first one goes, unless it came to its end before. -/
theorem Course.passes {t t' u : Standing Outcome} {acts : List Act} (h : Course limit b t w acts u w')
    (hr : t.Resumes s own t') :
    (∃ u', Course limit b t' w acts u' w') ∨
      ∃ acts₁ acts₂ o w₁, acts = acts₁ ++ acts₂ ∧ Course limit b t' w acts₁ (.at (.done o)) w₁ := by
  induction h generalizing t' with
  | stay => exact .inl ⟨t', .stay⟩
  | @move t _ _ w _ _ _ _ hm hc ih =>
    by_cases hd : ∃ o, t' = .at (.done o)
    · obtain ⟨o, rfl⟩ := hd
      exact .inr ⟨[], _, o, w, rfl, .stay⟩
    · obtain ⟨u', hm', hr'⟩ := (hr.move fun o e => hd ⟨o, e⟩).2 _ hm
      rcases ih hr' with ⟨v', hc'⟩ | ⟨acts₁, acts₂, o, w₁, rfl, hc'⟩
      · exact .inl ⟨v', .move hm' hc'⟩
      · exact .inr ⟨_ :: acts₁, acts₂, o, w₁, rfl, .move hm' hc'⟩
  | elsewhere visits cancels _ ih =>
    rcases ih hr with ⟨v', hc'⟩ | ⟨acts₁, acts₂, o, w₁, rfl, hc'⟩
    · exact .inl ⟨v', .elsewhere visits cancels hc'⟩
    · exact .inr ⟨_ :: acts₁, acts₂, o, w₁, rfl, .elsewhere visits cancels hc'⟩

/-- What is left of a segment that came to its end in front of a boundary. -/
theorem Resumes.of_done {p : Process Outcome} {o : Outcome} (h : Resumes s own p (.done o)) :
    p = .done o ∨ ∃ left a, o.ending = .ok (.boundary a) ∧ p = (segment s left own a).strand o.scope := by
  cases h with
  | same => exact .inl rfl
  | onward left a scope => exact .inr ⟨left, a, rfl, rfl⟩

/-- At a boundary of its own nothing is left. -/
theorem strand_at_boundary {o : Outcome} {a : String} (ha : a ∈ own) (ho : o.ending = .ok (.boundary a)) (left : Nat) :
    (segment s left own a).strand o.scope = .done o := by
  obtain ⟨ending, scope⟩ := o
  obtain rfl : ending = .ok (.boundary a) := ho
  rw [segment_at_boundary ha]
  rfl

theorem strand_gives (s : Setting) (budget : Nat) (own : List String) (start : String) (scope : Scope) :
    ((segment s budget own start).strand scope).Ensures (fun _ => True) fun o =>
      ∀ a, o.ending = .ok (.boundary a) → a ∈ own := by
  refine Process.ensures_bind.mpr (Process.Ensures.mono (segment_gives s budget own start scope) fun p hp => ?_)
  exact fun a ha => hp _ ha a rfl

end Resuming

/-- A segment with boundaries `own` inside segments with boundaries `around`, however many and
    however deep in a run, and one that honours all of these. Where the latter comes to its end, the former comes to the same end just if
    this is not in front of a boundary around it that is not its own; there it goes on. Otherwise
    they take the same courses. -/
theorem boundaries_around_hold_iff_own (limit : Nat) (b : Bool) (s : Setting) (budget : Nat) (own around : List String)
    (start : String) (scope : Scope) (w : Shared) :
    (∀ acts o w', Course limit b (.at ((segment s budget (own ++ around) start).strand scope)) w acts (.at (.done o)) w' →
      (Course limit b (.at ((segment s budget own start).strand scope)) w acts (.at (.done o)) w' ↔
        ∀ a, o.ending = .ok (.boundary a) → a ∈ own) ∧
      ∀ a, o.ending = .ok (.boundary a) → ∃ left,
        Course limit b (.at ((segment s budget own start).strand scope)) w acts
          (.at ((segment s left own a).strand o.scope)) w') ∧
      ∀ acts t w', Course limit b (.at ((segment s budget own start).strand scope)) w acts t w' →
        (∃ t', Course limit b (.at ((segment s budget (own ++ around) start).strand scope)) w acts t' w') ∨
          ∃ acts₁ acts₂ o w₁, acts = acts₁ ++ acts₂ ∧
            Course limit b (.at ((segment s budget (own ++ around) start).strand scope)) w acts₁ (.at (.done o)) w₁ := by
  have resumes := segment_resumes s own around budget start scope
  refine ⟨fun acts o w' h => ?_, fun acts t w' h => h.passes (.at resumes)⟩
  obtain ⟨u, hc, hu⟩ := h.resumes (.at resumes)
  obtain ⟨p, rfl, hp⟩ : ∃ p, u = .at p ∧ Resumes s own p (.done o) := by
    cases hu with
    | «at» hp => exact ⟨_, rfl, hp⟩
  have own_end (hdone : Course limit b (.at ((segment s budget own start).strand scope)) w acts (.at (.done o)) w') :
      ∀ a, o.ending = .ok (.boundary a) → a ∈ own :=
    hdone.ensures (s := .at _) (strand_gives s budget own start scope)
  rcases hp.of_done with rfl | ⟨left, a, ha, rfl⟩
  · refine ⟨⟨own_end, fun _ => hc⟩, fun a ha => ⟨0, ?_⟩⟩
    rw [strand_at_boundary (own_end hc a ha) ha]
    exact hc
  · refine ⟨⟨own_end, fun ho => ?_⟩, fun a' ha' => ⟨left, ?_⟩⟩
    · rwa [strand_at_boundary (ho a ha) ha] at hc
    · obtain rfl : a = a' := by
        rw [ha] at ha'
        injection ha' with h
        injection h
      exact hc

/-- A loop in a branch, whose body leaves it for the join of the split around it. -/
def leavingLoop : Setting where
  graph :=
    { id := "leavingLoop"
      version := "1.0"
      name := ""
      description := ""
      metadata := none
      strategy := .abort
      maxRetries := 0
      retryDelay := none
      nodes := [{ id := "start", kind := .start }, { id := "fork", kind := .split },
        { id := "loop", kind := .loopStart, maxIterations := some 1 }, .skill "a" "sa",
        { id := "loop_end", kind := .loopEnd }, .skill "b" "sb", { id := "meet", kind := .join }, { id := "end", kind := .finish }]
      edges := [{ source := "start", target := "fork" }, { source := "fork", target := "loop", kind := .parallel },
        { source := "fork", target := "b", kind := .parallel }, { source := "loop", target := "a" },
        { source := "a", target := "meet" }, { source := "a", target := "loop_end" },
        { source := "loop_end", target := "loop", kind := .iteration }, { source := "loop_end", target := "meet" },
        { source := "b", target := "meet" }, { source := "meet", target := "end" }] }

/-- The pass of that loop does not end at the join, but goes on there. -/
theorem a_pass_goes_on_at_the_join_around_it : ∃ (acts : List Act) (o : Outcome) (w' : Shared) (left : Nat),
    o.ending = .ok (.boundary "meet") ∧
      ¬ Course leavingLoop.config.maxVisits false
        (.at ((segment leavingLoop 9 ["loop_end", "loop"] "a").strand {})) {} acts (.at (.done o)) w' ∧
      Course leavingLoop.config.maxVisits false (.at ((segment leavingLoop 9 ["loop_end", "loop"] "a").strand {})) {} acts
        (.at ((segment leavingLoop left ["loop_end", "loop"] "meet").strand o.scope)) w' := by
  have computed : (((segment leavingLoop 9 (["loop_end", "loop"] ++ ["meet"]) "a").strand {}).yield?
      fun _ _ => .given (.ok .null)).map (fun p => (p.1.ending.toOption, p.2)) = some (some (.boundary "meet"), 1) := by
    decide +kernel
  obtain ⟨⟨o, n⟩, hyield, hshown⟩ := Option.map_eq_some_iff.mp computed
  obtain ⟨ho, rfl⟩ := Prod.mk.inj hshown
  have hend : o.ending = .ok (.boundary "meet") := ok_of_toOption ho
  obtain ⟨_, hc, -⟩ := (Process.yields_of_yield? hyield).course leavingLoop.config.maxVisits {} rfl (.inr (by decide))
  obtain ⟨acts, w', hc⟩ := hc.done_of_over
  obtain ⟨hiff, hon⟩ := (boundaries_around_hold_iff_own _ _ _ _ _ _ _ _ _).1 _ _ _ hc
  obtain ⟨left, hleft⟩ := hon "meet" hend
  refine ⟨acts, o, w', left, hend, fun h => ?_, hleft⟩
  simpa using hiff.mp h "meet" hend

/-- So the nodes behind the join are visited in the branch, and the join twice. -/
theorem a_loop_runs_over_the_join_around_it : leavingLoop.graph.validate.isValid = true ∧
    (Rehearsal.rehearse leavingLoop {} .simulated none).toOption.map (·.result.path) =
      some ["start", "fork", "loop", "a", "meet", "end", "b", "meet", "end"] := by
  decide +kernel

end Capability.Execution
