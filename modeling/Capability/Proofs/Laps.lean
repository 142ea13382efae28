/-
  Capability.Proofs.Laps — how a loop makes its passes.

  A lap is a pass that was begun: the scope in which its body is entered, what the body came to, and
  what was recorded inside of it and behind it. The laps of a loop follow one another until one of
  them is the last, the bound is reached, or the run is cancelled in front of the next one.

  (1) `leaveBody_course`: what comes behind the body of a pass.
  (2) `pass_course`: a pass is cancelled before it begins, or it is a lap.
  (3) `passes_course`: the passes of a loop are laps that follow one another.
  (4) `loops_make_their_passes`: what that says of the visit of a loop.
-/

import Capability.Proofs.Passes
import Capability.Proofs.Race

namespace Capability.Execution

/-! ## Courses -/

section Courses

variable {limit : Nat} {α β : Type} {b : Bool} {w w' : Shared} {acts : List Act}

/-- What is done comes to nothing else. -/
theorem Course.of_done {a a' : α} (h : Course limit b (.at (.done a)) w acts (.finished a') w') : a' = a :=
  h.ensured (J := fun _ => True) (Q := (· = a)) rfl

namespace Walk

/-- How a walk goes on behind another one that came to something. -/
def resume (f : α → Walk β) (x : Except Halt α) (s : Scope) : Process (Except Halt β × Scope) :=
  match x with
  | .ok a => (f a).process s
  | .error halt => .done (.error halt, s)

variable {r : Except Halt β} {s t : Scope}

/-- The first of two walks is done before the second one begins. -/
theorem course_split {m : Walk α} {f : α → Walk β}
    (h : Course limit b (.at ((m >>= f).process s)) w acts (.finished (r, t)) w') :
    ∃ x u acts₁ acts₂ w₁, acts = acts₁ ++ acts₂ ∧ Course limit b (.at (m.process s)) w acts₁ (.at (.done (x, u))) w₁ ∧
      Course limit b (.at (resume f x u)) w₁ acts₂ (.finished (r, t)) w' := by
  rw [Walk.process_bind] at h
  obtain ⟨⟨x, u⟩, acts₁, acts₂, w₁, hacts, h₁, h₂⟩ := h.split_bind
  refine ⟨x, u, acts₁, acts₂, w₁, hacts, h₁, ?_⟩
  cases x <;> exact h₂

/-- A decision comes to its value, and to the conditions it noted. -/
theorem Decides.course {m : Walk α} {v : Keyed Json → α} (hm : m.Decides v) {f : α → Walk β}
    (h : Course limit b (.at ((m >>= f).process s)) w acts (.finished (r, t)) w') :
    ∃ fs before acts' w₁, acts = before ++ acts' ∧
      Course limit b (.at ((f (v s.context.vars)).process (s.noting fs))) w₁ acts' (.finished (r, t)) w' := by
  obtain ⟨_, _, before, acts', w₁, hacts, -, ⟨rfl, fs, rfl⟩, h⟩ := course_bind h (hm (fun _ => True) s)
  exact ⟨fs, before, acts', w₁, hacts, h⟩

/-- At a checkpoint a walk is told whether it is cancelled, and goes on if it is not. -/
theorem course_checkpoint {f : Unit → Walk β}
    (h : Course limit b (.at ((Walk.checkpoint >>= f).process s)) w acts (.finished (r, t)) w') :
    ∃ before stopped acts' w₁, acts = before ++ .asked stopped :: acts' ∧
      Course limit b (.at (resume f (if stopped then .error .cancelled else .ok ()) s)) w₁ acts' (.finished (r, t)) w' := by
  have asked : (Walk.checkpoint >>= f).process s = .ask .stopped fun (stopped : Bool) =>
      resume f (if stopped then .error .cancelled else .ok ()) s := by
    rw [Walk.process_bind]
    refine congrArg (Process.ask Request.stopped) (funext fun stopped => ?_)
    cases stopped <;> rfl
  rw [asked] at h
  obtain ⟨before, acts', w₁, hacts, h⟩ := h.asks
  exact ⟨before, _, acts', w₁, hacts, h⟩

/-- A step that is completed as soon as it is begun is recorded. -/
theorem course_step {n : Node} {report : StepReport} (hreport : report.retryCount = 0) {f : Unit → Walk β}
    (h : Course limit b (.at ((Walk.beginStep n >>= fun step => Walk.finishStep n step .completed report >>= f).process s))
      w acts (.finished (r, t)) w') :
    ∃ step before acts' w₁, step.Passes n.id ∧ acts = before ++ acts' ∧
      Course limit b (.at ((f ()).process (s.record step []))) w₁ acts' (.finished (r, t)) w' := by
  have begun : (Walk.beginStep n).Ensures (fun _ => True) s fun x u => x = .ok (s.nextStep n.id) ∧ u = s.beginStep n.id :=
    Walk.ensures_beginStep.mpr ⟨rfl, rfl⟩
  obtain ⟨_, _, acts₁, _, w₁, rfl, -, ⟨rfl, rfl⟩, h⟩ := course_bind h begun
  have finished : (Walk.finishStep n (s.nextStep n.id) .completed report).Ensures (fun _ => True) (s.beginStep n.id)
      fun x u => x = .ok () ∧ u = (s.beginStep n.id).finishStep (s.nextStep n.id) .completed report :=
    Walk.ensures_finishStep.mpr ⟨rfl, rfl⟩
  obtain ⟨_, _, acts₂, acts', w₂, rfl, -, ⟨rfl, rfl⟩, h⟩ := course_bind h finished
  have recorded := Scope.finishStep_noting s n.id .completed report []
  rw [Scope.noting_nil] at recorded
  rw [recorded] at h
  exact ⟨_, acts₁ ++ acts₂, acts', w₂, ⟨rfl, rfl, hreport⟩, (List.append_assoc ..).symm, h⟩

end Walk

end Courses

/-! ## The end of a pass -/

/-- Whether a loop is left at its end under some variables. -/
def exitsUnder (e : Edge) (vars : Keyed Json) : Bool :=
  match e.exitCondition with
  | some c => isTrue vars c
  | none => true

theorem exits_decides (loopEnd : String) (e : Edge) : (exits loopEnd e).Decides (exitsUnder e) := by
  unfold exits exitsUnder
  cases e.exitCondition with
  | some c => exact Walk.holds_decides loopEnd c
  | none => exact .pure true

/-- Nothing but some steps was recorded in a scope, and perhaps conditions. -/
structure Logged (s : Scope) (es : List Step) (t : Scope) : Prop where
  history : t.context.history = s.context.history ++ es
  vars : t.context.vars = s.context.vars
  iterations : t.trace.counters.iterations = s.trace.counters.iterations

theorem Logged.nothing (s : Scope) : Logged s [] s := ⟨(List.append_nil _).symm, rfl, rfl⟩

/-- A step of a node that was passed. -/
theorem Logged.passed (s : Scope) {step : Step} {node : String} (h : step.Passes node) (fs : List ConditionFailure) :
    Logged s [step] (s.record step fs) := by
  refine ⟨rfl, rfl, ?_⟩
  have counted : (Counters.ofStep step.status step.retryCount).iterations = 0 := by rw [h.status]; rfl
  show s.trace.counters.iterations + (Counters.ofStep step.status step.retryCount).iterations = _
  rw [counted, Nat.add_zero]

/-- What a pass comes to behind its body: whether the loop is over, and if so whether an end node was
    completed. -/
def leaves (e : Edge) (cancelled : Bool) (vars : Keyed Json) : Flow → Except Halt (Option Bool)
  | .ended => .ok (some true)
  | .deadEnd => .ok none
  | .boundary id =>
    if id = e.source then
      if cancelled then .error .cancelled else .ok (if exitsUnder e vars then some false else none)
    else .ok none

section Laps

variable {s : Setting} {n : Node} {e : Edge} {budget limit : Nat} {b : Bool} {w w' : Shared} {acts : List Act}
  {u t : Scope} {β : Type} {r : Except Halt β}

/-- Behind the body of a pass the end of the loop is passed if the body came there and the run is not
    cancelled then. -/
theorem leaveBody_course {m : Node} (hm : s.graph.node? e.source = some m) {flow : Flow} {f : Option Bool → Walk β}
    (h : Course limit b (.at ((leaveBody s e flow >>= f).process u)) w acts (.finished (r, t)) w') :
    ∃ cancelled closing v behind acts' w₁, acts = behind ++ acts' ∧ Logged u closing v ∧
      (flow = .boundary e.source → .asked cancelled ∈ behind) ∧
      (if flow = .boundary e.source ∧ cancelled = false then ∃ step, closing = [step] ∧ step.Passes e.source
        else closing = []) ∧
      Course limit b (.at (Walk.resume f (leaves e cancelled u.context.vars flow) v)) w₁ acts' (.finished (r, t)) w' := by
  by_cases arrived : flow = .boundary e.source
  · subst arrived
    have closes : leaveBody s e (.boundary e.source) >>= f = Walk.checkpoint >>= fun _ => Walk.beginStep m >>= fun step =>
        Walk.finishStep m step .completed {} >>= fun _ => exits e.source e >>= fun out =>
          (if out then pure (some false) else pure none) >>= f := by
      simp only [leaveBody, if_true, closePass, passNode, hm, Walk.passThrough, bind_assoc]
    rw [closes] at h
    obtain ⟨before, stopped, acts₁, w₁, hacts, h⟩ := Walk.course_checkpoint h
    refine ⟨stopped, ?_⟩
    cases stopped with
    | true =>
      refine ⟨[], u, before ++ [.asked true], acts₁, w₁, by simp [hacts], .nothing u, by simp, by simp, ?_⟩
      simpa [leaves, Walk.resume] using h
    | false =>
      obtain ⟨step, acts₂, _, _, hp, hacts₂, h⟩ := Walk.course_step rfl h
      obtain ⟨fs, acts₃, acts', w₂, hacts₃, h⟩ := (exits_decides e.source e).course h
      rw [Scope.record_noting] at h
      refine ⟨[step], u.record step ([] ++ fs), before ++ .asked false :: (acts₂ ++ acts₃), acts', w₂,
        by simp [hacts, hacts₂, hacts₃], .passed u hp _, by simp, ?_, ?_⟩
      · rw [if_pos ⟨rfl, rfl⟩]
        exact ⟨step, rfl, Graph.node?_id hm ▸ hp⟩
      · have left : leaves e false u.context.vars (.boundary e.source) =
            .ok (if exitsUnder e u.context.vars then some false else none) := by simp [leaves]
        have same : (u.record step []).context.vars = u.context.vars := rfl
        rw [same] at h
        rw [left]
        cases hout : exitsUnder e u.context.vars <;> rw [hout] at h <;> exact h
  · have stays : ∃ next, leaveBody s e flow = pure next ∧ ∀ c vars, leaves e c vars flow = .ok next := by
      cases flow with
      | ended | deadEnd => exact ⟨_, rfl, fun _ _ => rfl⟩
      | boundary id =>
        have elsewhere : id ≠ e.source := fun hid => arrived (congrArg Flow.boundary hid)
        exact ⟨none, by simp [leaveBody, elsewhere], fun _ _ => by simp [leaves, elsewhere]⟩
    obtain ⟨next, hnext, hleaves⟩ := stays
    rw [hnext, pure_bind] at h
    refine ⟨false, [], u, [], acts, w, rfl, .nothing u, fun h => absurd h arrived, by simp [arrived], ?_⟩
    rw [hleaves]
    exact h

/-! ## Laps -/

/-- A pass of a loop that was begun. -/
structure Lap where
  number : Nat
  before : Scope
  /-- The scope in which its body is entered. -/
  entered : Scope
  /-- What the body came to; none if no edge led into one. -/
  body : Option (Except Halt Flow)
  /-- The scope that the body left behind. -/
  returned : Scope
  /-- The steps recorded in the body. -/
  inside : List Step
  /-- The passes of the loops in the body. -/
  passes : Nat
  /-- Whether the run was cancelled when the end of the loop was reached. -/
  cancelled : Bool
  /-- The steps recorded behind the body. -/
  closing : List Step
  after : Scope
  /-- All that happened in the pass. -/
  acts : List Act

namespace Lap

/-- The body came to the end of the loop, and nothing was cancelled by then. -/
def Arrives (e : Edge) (l : Lap) : Prop := l.body = some (.ok (.boundary e.source)) ∧ l.cancelled = false

/-- What the pass came to: whether the loop is over, and if so whether an end node was completed. -/
def result (e : Edge) (l : Lap) : Except Halt (Option Bool) :=
  match l.body with
  | none => .ok (some false)
  | some (.error halt) => .error halt
  | some (.ok flow) => leaves e l.cancelled l.returned.context.vars flow

/-- The body was the segment from a node to the end or the start of the loop. If it came to the end, it
    was asked there whether the run is cancelled. -/
def Walks (s : Setting) (n : Node) (e : Edge) (budget limit : Nat) (b : Bool) (start : String) (l : Lap) : Prop :=
  ∃ x before acts behind w w' ℓ, l.body = some x ∧ l.acts = before ++ acts ++ behind ∧
    Course limit b (.at ((segment s budget [e.source, n.id] start).process l.entered)) w acts
      (.at (.done (x, l.returned))) w' ∧
    l.returned.context.history = l.entered.context.history ++ l.inside ∧
    Tour s (given acts) (.segment [e.source, n.id] start) l.entered ℓ x l.returned ∧ l.passes = ℓ.passes ∧
    (x = .ok (.boundary e.source) → .asked l.cancelled ∈ behind)

/-- How a pass of a loop goes: it is numbered and counted, and conditions may be noted until an edge
    into the body is taken. Behind the body a step is recorded if the end of the loop was reached. -/
structure Goes (s : Setting) (n : Node) (e : Edge) (budget limit : Nat) (b : Bool) (l : Lap) : Prop where
  entered : ∃ fs, l.entered = (passNumbered s n l.number l.before).noting fs
  walked : match edgeTaken l.entered.context.vars (s.graph.flow n.id) with
    | some f => l.Walks s n e budget limit b f.target
    | none => l.body = none ∧ l.returned = l.entered ∧ l.inside = [] ∧ l.passes = 0
  logged : Logged l.returned l.closing l.after
  closing : l.Arrives e → ∃ step, l.closing = [step] ∧ step.Passes e.source
  silent : ¬l.Arrives e → l.closing = []

/-- The loop is over with the pass: no edge led into a body, an end node was completed in it, or the
    end of the loop was reached and its condition does not hold the loop back. -/
def Leaves (e : Edge) (l : Lap) : Prop :=
  l.body = none ∨ l.body = some (.ok .ended) ∨ l.Arrives e ∧ exitsUnder e l.returned.context.vars = true

/-- The body came to a dead end or back to the start of the loop. -/
def ComesBack (n : Node) (l : Lap) : Prop := l.body = some (.ok .deadEnd) ∨ l.body = some (.ok (.boundary n.id))

variable {l : Lap}

theorem result_boundary (h : l.body = some (.ok (.boundary e.source))) :
    l.result e = if l.cancelled then .error .cancelled
      else .ok (if exitsUnder e l.returned.context.vars then some false else none) := by
  simp [result, h, leaves]

theorem result_beside {id : String} (h : l.body = some (.ok (.boundary id))) (hid : id ≠ e.source) : l.result e = .ok none := by
  simp [result, h, leaves, hid]

/-- The loop is over with a pass if and only if that leaves it. -/
theorem leaves_iff : (∃ ended, l.result e = .ok (some ended)) ↔ l.Leaves e := by
  constructor
  · rintro ⟨ended, h⟩
    match hb : l.body with
    | none => exact .inl hb
    | some (.error halt) => simp [result, hb] at h
    | some (.ok .ended) => exact .inr (.inl hb)
    | some (.ok .deadEnd) => simp [result, hb, leaves] at h
    | some (.ok (.boundary id)) =>
      by_cases hid : id = e.source
      · subst hid
        rw [result_boundary hb] at h
        cases hc : l.cancelled <;> cases hout : exitsUnder e l.returned.context.vars <;> simp [hc, hout] at h
        exact .inr (.inr ⟨⟨hb, hc⟩, hout⟩)
      · rw [result_beside hb hid] at h
        cases h
  · rintro (hb | hb | ⟨⟨hb, hc⟩, hout⟩)
    · exact ⟨false, by simp [result, hb]⟩
    · exact ⟨true, by simp [result, hb, leaves]⟩
    · exact ⟨false, by simp [result_boundary hb, hc, hout]⟩

/-- Only a body in which an end node was completed ends more than the loop. -/
theorem ended_of_result (h : l.result e = .ok (some true)) : l.body = some (.ok .ended) := by
  obtain hb | hb | ⟨⟨hb, hc⟩, hout⟩ := leaves_iff.mp ⟨true, h⟩
  · simp [result, hb] at h
  · exact hb
  · simp [result_boundary hb, hc, hout] at h

theorem result_of_comesBack (h : l.ComesBack n) (hne : n.id ≠ e.source) : l.result e = .ok none := by
  obtain hb | hb := h
  · simp [result, hb, leaves]
  · exact result_beside hb hne

namespace Goes

/-- What the body adds to the scope in which it is entered. -/
theorem body_adds (h : l.Goes s n e budget limit b) :
    l.returned.context.history = l.entered.context.history ++ l.inside ∧
      l.returned.trace.counters.iterations = l.entered.trace.counters.iterations + l.passes := by
  have walked := h.walked
  split at walked
  · obtain ⟨_, _, _, _, _, _, ℓ, -, -, -, hinside, tour, hp, -⟩ := walked
    exact ⟨hinside, hp ▸ (tour.tallies trivial).iterations⟩
  · obtain ⟨-, hr, hi, hp⟩ := walked
    rw [hr, hi, hp]
    exact ⟨(List.append_nil _).symm, rfl⟩

theorem history (h : l.Goes s n e budget limit b) :
    l.after.context.history = l.before.context.history ++ (l.inside ++ l.closing) := by
  obtain ⟨fs, hfs⟩ := h.entered
  have entered : l.entered.context.history = l.before.context.history := by rw [hfs]; rfl
  rw [h.logged.history, h.body_adds.1, entered, List.append_assoc]

theorem iterations (h : l.Goes s n e budget limit b) :
    l.after.trace.counters.iterations = l.before.trace.counters.iterations + (1 + l.passes) := by
  obtain ⟨fs, hfs⟩ := h.entered
  have entered : l.entered.trace.counters.iterations = l.before.trace.counters.iterations + 1 := by rw [hfs]; rfl
  rw [h.logged.iterations, h.body_adds.2, entered, Nat.add_assoc]

/-- When the body is entered both variables hold the number of the pass. -/
theorem numbered (h : l.Goes s n e budget limit b) :
    l.entered.context.get? s.config.iterationVariable = some (.ofNat l.number) ∧
      l.entered.context.get? (n.id ++ "_iteration") = some (.ofNat l.number) := by
  obtain ⟨fs, hfs⟩ := h.entered
  have bound (key : String) : l.entered.context.get? key =
      if key = n.id ++ "_iteration" then some (.ofNat l.number)
      else if key = s.config.iterationVariable then some (.ofNat l.number) else l.before.context.get? key := by
    rw [hfs]
    exact (Context.lookup_set _ _ _ _).trans (if_congr Iff.rfl rfl (Context.lookup_set _ _ _ _))
  constructor <;> rw [bound] <;> simp

end Goes

end Lap

/-- The body of a pass, and what comes behind it; the loop is over if there is none. -/
def makeBody (s : Setting) (inner : Inner) (n : Node) (e : Edge) : Option String → Walk (Option Bool)
  | none => pure (some false)
  | some body => inner [e.source, n.id] body >>= leaveBody s e

theorem pass_eq (s : Setting) (inner : Inner) (n : Node) (e : Edge) (i : Nat) :
    pass s inner n e i =
      Walk.checkpoint >>= fun _ => numberPass s n i >>= fun _ => successor s n.id >>= makeBody s inner n e := by
  unfold pass
  refine congrArg _ (funext fun _ => congrArg _ (funext fun _ => congrArg _ (funext fun body => ?_)))
  cases body <;> rfl

/-- A segment records steps behind those there were, on a tour. -/
theorem segment_course (hg : s.graph.Checked) {own : List String} {start : String} (hs : s.graph.isDeclared start = true)
    {x : Except Halt Flow}
    (h : Course limit b (.at ((segment s budget own start).process u)) w acts (.at (.done (x, t))) w') :
    ∃ inside ℓ, t.context.history = u.context.history ++ inside ∧ Tour s (given acts) (.segment own start) u ℓ x t := by
  have finished : Course limit b (.at ((segment s budget own start).process u)) w (acts ++ [.ended]) (.finished (x, t)) w' :=
    h.trans (.single (.finish _))
  have keeps : ∀ act ∈ acts ++ [.ended], act.Keeps (given acts) := fun act hact =>
    (List.mem_append.mp hact).elim (given_keeps acts act) fun hended => by
      rw [List.mem_singleton.mp hended]
      intro k l a cancels answered
      cases answered
  obtain ⟨inside, hinside, -⟩ := finished.secured keeps (segment_accounted hg budget own start hs u)
  obtain ⟨ℓ, tour, -⟩ := segment_tours hg budget hs (finished.comes keeps)
  exact ⟨inside, ℓ, hinside, tour⟩

/-- A pass is cancelled before it begins, or it is a lap. -/
theorem pass_course (hg : s.graph.Checked) {m : Node} (hm : s.graph.node? e.source = some m) {i : Nat}
    {f : Option Bool → Walk β}
    (h : Course limit b (.at ((pass s (segment s budget) n e i >>= f).process u)) w acts (.finished (r, t)) w') :
    (∃ acts' w₁, Course limit b (.at (Walk.resume f (.error .cancelled) u)) w₁ acts' (.finished (r, t)) w') ∨
      ∃ (l : Lap) (acts' : List Act) (w₁ : Shared), l.number = i ∧ l.before = u ∧ acts = l.acts ++ acts' ∧
        l.Goes s n e budget limit b ∧
        Course limit b (.at (Walk.resume f (l.result e) l.after)) w₁ acts' (.finished (r, t)) w' := by
  rw [pass_eq] at h
  simp only [bind_assoc] at h
  obtain ⟨before, stopped, acts₁, w₁, hacts, h⟩ := Walk.course_checkpoint h
  cases stopped with
  | true => exact .inl ⟨acts₁, w₁, h⟩
  | false =>
    have h : Course limit b (.at ((successor s n.id >>= fun body => makeBody s (segment s budget) n e body >>= f).process
        (passNumbered s n i u))) w₁ acts₁ (.finished (r, t)) w' := h
    obtain ⟨fs, acts₂, acts₃, w₂, hacts₁, h⟩ := (successor_decides s n.id).course h
    let entered := (passNumbered s n i u).noting fs
    let opening := before ++ .asked false :: acts₂
    have opened : acts = opening ++ acts₃ := by simp [opening, hacts, hacts₁]
    refine .inr ?_
    cases hf : edgeTaken (passNumbered s n i u).context.vars (s.graph.flow n.id) with
    | none =>
      rw [hf, Option.map_none, makeBody, pure_bind] at h
      refine ⟨⟨i, u, entered, none, entered, [], 0, false, [], entered, opening⟩, acts₃, w₂, rfl, rfl, opened,
        ⟨⟨fs, rfl⟩, ?_, .nothing _, fun harr => ?_, fun _ => rfl⟩, h⟩
      · rw [Scope.noting_context, hf]
        exact ⟨rfl, rfl, rfl, rfl⟩
      · cases harr.1
    | some edge =>
      rw [hf, Option.map_some, makeBody, bind_assoc] at h
      obtain ⟨y, v, acts₄, acts₅, w₃, hacts₃, hbody, h⟩ := Walk.course_split h
      have declared : s.graph.isDeclared edge.target = true := hg.flow_declared (edgeTaken_mem hf)
      obtain ⟨inside, ℓ, hinside, tour⟩ := segment_course hg declared hbody
      cases y with
      | error halt =>
        refine ⟨⟨i, u, entered, some (.error halt), v, inside, ℓ.passes, false, [], v, opening ++ acts₄⟩, acts₅, w₃, rfl, rfl,
          by simp [opened, hacts₃], ⟨⟨fs, rfl⟩, ?_, .nothing _, fun harr => ?_, fun _ => rfl⟩, h⟩
        · rw [Scope.noting_context, hf]
          exact ⟨_, opening, acts₄, [], w₂, w₃, ℓ, rfl, by simp, hbody, hinside, tour, rfl, by simp⟩
        · cases harr.1
      | ok flow =>
        obtain ⟨cancelled, closing, v', behind, acts', w₄, hacts₅, logged, hasked, hclosing, h⟩ := leaveBody_course hm h
        refine ⟨⟨i, u, entered, some (.ok flow), v, inside, ℓ.passes, cancelled, closing, v', opening ++ acts₄ ++ behind⟩,
          acts', w₄, rfl, rfl, by simp [opened, hacts₃, hacts₅], ⟨⟨fs, rfl⟩, ?_, logged, fun harr => ?_, fun hnot => ?_⟩, h⟩
        · rw [Scope.noting_context, hf]
          exact ⟨_, opening, acts₄, behind, w₂, w₃, ℓ, rfl, rfl, hbody, hinside, tour, rfl, fun he => hasked (Except.ok.inj he)⟩
        · obtain ⟨harrived, hcalm⟩ := harr
          cases harrived
          rwa [if_pos ⟨rfl, hcalm⟩] at hclosing
        · rwa [if_neg fun harr => hnot ⟨by rw [harr.1], harr.2⟩] at hclosing

/-! ## Laps that follow one another -/

/-- The passes of a loop from one with a number on, at most `left` of them, and what they come to:
    whether an end node was completed. -/
inductive Laps (s : Setting) (n : Node) (e : Edge) (budget limit : Nat) (b : Bool) :
    (left i : Nat) → Scope → List Lap → Except Halt Bool → Scope → Prop
  /-- No passes are left, -/
  | spent {i : Nat} {u : Scope} : Laps s n e budget limit b 0 i u [] (.ok false) u
  /-- or the run is cancelled in front of the next one. -/
  | withdrawn {left i : Nat} {u : Scope} : Laps s n e budget limit b (left + 1) i u [] (.error .cancelled) u
  | again {left i : Nat} {u t : Scope} {l : Lap} {laps : List Lap} {x : Except Halt Bool} :
      l.number = i → l.before = u → l.Goes s n e budget limit b → l.result e = .ok none →
      Laps s n e budget limit b left (i + 1) l.after laps x t → Laps s n e budget limit b (left + 1) i u (l :: laps) x t
  | last {left i : Nat} {u : Scope} {l : Lap} {x : Except Halt Bool} :
      l.number = i → l.before = u → l.Goes s n e budget limit b → l.result e = x.map some →
      Laps s n e budget limit b (left + 1) i u [l] x l.after

/-- The passes of a loop are laps that follow one another. -/
theorem passes_course (hg : s.graph.Checked) {m : Node} (hm : s.graph.node? e.source = some m) {left i : Nat} {f : Bool → Walk β}
    (h : Course limit b (.at ((passes s (segment s budget) n e left i >>= f).process u)) w acts (.finished (r, t)) w') :
    ∃ laps rest x v acts' w₁, acts = laps.flatMap Lap.acts ++ rest ∧ Laps s n e budget limit b left i u laps x v ∧
      Course limit b (.at (Walk.resume f x v)) w₁ acts' (.finished (r, t)) w' := by
  induction left generalizing i u w acts with
  | zero =>
    rw [passes, pure_bind] at h
    exact ⟨[], acts, _, u, acts, w, rfl, .spent, h⟩
  | succ left ih =>
    rw [passes_succ, bind_assoc] at h
    obtain ⟨acts', w₁, h⟩ | ⟨l, acts', w₁, hi, hu, rfl, hl, h⟩ := pass_course hg hm h
    · exact ⟨[], acts, _, u, acts', w₁, rfl, .withdrawn, h⟩
    · cases hr : l.result e with
      | error halt =>
        rw [hr] at h
        exact ⟨[l], acts', .error halt, l.after, acts', w₁, by simp, .last hi hu hl hr, h⟩
      | ok out =>
        rw [hr] at h
        cases out with
        | some ended =>
          have h : Course limit b (.at ((pure ended >>= f).process l.after)) w₁ acts' (.finished (r, t)) w' := h
          rw [pure_bind] at h
          exact ⟨[l], acts', .ok ended, l.after, acts', w₁, by simp, .last hi hu hl hr, h⟩
        | none =>
          obtain ⟨laps, rest, x, v, acts'', w₂, rfl, hlaps, h⟩ := ih h
          exact ⟨l :: laps, rest, x, v, acts'', w₂, by simp, .again hi hu hl hr hlaps, h⟩

namespace Laps

variable {left i : Nat} {laps : List Lap} {x : Except Halt Bool}

theorem numbers (h : Laps s n e budget limit b left i u laps x t) : laps.map Lap.number = List.range' i laps.length := by
  induction h with
  | spent | withdrawn => rfl
  | again hi _ _ _ _ ih => rw [List.map_cons, List.length_cons, List.range'_succ, hi, ih]
  | last hi => simp [hi]

theorem length_le (h : Laps s n e budget limit b left i u laps x t) : laps.length ≤ left := by
  induction h with
  | spent | withdrawn => exact Nat.zero_le _
  | again _ _ _ _ _ ih => exact Nat.succ_le_succ ih
  | last => exact Nat.succ_le_succ (Nat.zero_le _)

theorem goes (h : Laps s n e budget limit b left i u laps x t) : ∀ l ∈ laps, l.Goes s n e budget limit b := by
  induction h with
  | spent | withdrawn => simp
  | again _ _ hg _ _ ih => exact List.forall_mem_cons.mpr ⟨hg, ih⟩
  | last _ _ hg => exact List.forall_mem_singleton.mpr hg

/-- The steps of the laps stand one after another in the history. -/
theorem history (h : Laps s n e budget limit b left i u laps x t) :
    t.context.history = u.context.history ++ laps.flatMap fun l => l.inside ++ l.closing := by
  induction h with
  | spent | withdrawn => simp
  | again _ hu hg _ _ ih => rw [ih, hg.history, hu, List.flatMap_cons, List.append_assoc]
  | last _ hu hg => rw [hg.history, hu, List.flatMap_singleton]

theorem iterations (h : Laps s n e budget limit b left i u laps x t) :
    t.trace.counters.iterations = u.trace.counters.iterations + laps.length + (laps.map Lap.passes).sum := by
  induction h with
  | spent | withdrawn => simp
  | again _ hu hg _ _ ih =>
    rw [ih, hg.iterations, hu, List.length_cons, List.map_cons, List.sum_cons]
    omega
  | last _ hu hg =>
    rw [hg.iterations, hu]
    simp [Nat.add_assoc]

/-- Passes are left over only if the loop was broken off or the last lap leaves it. -/
theorem unfinished (h : Laps s n e budget limit b left i u laps x t) (hlt : laps.length < left) :
    (∃ halt, x = .error halt) ∨ ∃ l ∈ laps.getLast?, l.Leaves e := by
  induction h with
  | spent => exact absurd hlt (lt_irrefl _)
  | withdrawn => exact .inl ⟨_, rfl⟩
  | @again _ _ _ _ l laps _ _ _ _ _ _ ih =>
    refine (ih (Nat.lt_of_succ_lt_succ hlt)).imp_right fun ⟨l', hl', hleaves⟩ => ⟨l', ?_, hleaves⟩
    rw [List.getLast?_cons, Option.mem_def.mp hl']
    rfl
  | @last _ _ _ l x _ _ _ hr =>
    cases x with
    | error halt => exact .inl ⟨halt, rfl⟩
    | ok ended => exact .inr ⟨l, rfl, Lap.leaves_iff.mp ⟨ended, hr⟩⟩

/-- A lap that does not end the loop is followed by the next one as long as there are passes left and
    the run is not cancelled. -/
theorem goes_on (h : Laps s n e budget limit b left i u laps x t) {k : Nat} {l : Lap} (hk : laps[k]? = some l)
    (hr : l.result e = .ok none) : k + 1 < laps.length ∨ k + 1 = left ∨ x = .error .cancelled := by
  induction h generalizing k with
  | spent | withdrawn => simp at hk
  | @again left _ _ _ _ laps _ _ _ _ _ hrest ih =>
    cases k with
    | zero =>
      cases hrest with
      | spent => exact .inr (.inl rfl)
      | withdrawn => exact .inr (.inr rfl)
      | again | last => exact .inl (by simp)
    | succ k =>
      simp only [List.length_cons, Nat.add_lt_add_iff_right, Nat.add_right_cancel_iff]
      exact ih hk
  | @last _ _ _ _ x _ _ _ hlast =>
    obtain rfl : l = _ := List.mem_singleton.mp (List.mem_of_getElem? hk)
    rw [hlast] at hr
    cases x <;> cases hr

/-- With a lap that leaves the loop, the loop is over. -/
theorem ends (h : Laps s n e budget limit b left i u laps x t) {k : Nat} {l : Lap} (hk : laps[k]? = some l)
    (hl : l.Leaves e) : k + 1 = laps.length := by
  obtain ⟨ended, hr⟩ := Lap.leaves_iff.mpr hl
  induction h generalizing k with
  | spent | withdrawn => simp at hk
  | again _ _ _ hnone _ ih =>
    cases k with
    | zero =>
      obtain rfl : _ = l := Option.some.inj hk
      cases hnone.symm.trans hr
    | succ k => exact congrArg Nat.succ (ih hk)
  | last =>
    obtain ⟨hlt, -⟩ := List.getElem?_eq_some_iff.mp hk
    rw [List.length_singleton] at hlt ⊢
    omega

/-- An end node was completed in a lap if the loop says so. -/
theorem ended (h : Laps s n e budget limit b left i u laps x t) (hx : x = .ok true) :
    ∃ l ∈ laps, l.body = some (.ok .ended) := by
  induction h with
  | spent | withdrawn => cases hx
  | again _ _ _ _ _ ih =>
    obtain ⟨l, hl, hb⟩ := ih hx
    exact ⟨l, .tail _ hl, hb⟩
  | @last _ _ _ l x _ _ _ hr =>
    subst hx
    exact ⟨l, .head _, Lap.ended_of_result hr⟩

end Laps

/-! ## The visit of a loop -/

/-- A loop has its step recorded and makes its passes. -/
theorem visitLoop_course {inner : Inner} (he : s.graph.iterationEdge? n.id = some e) {r : Except Halt Next}
    (h : Course limit b (.at ((visitLoop s inner n).process u)) w acts (.finished (r, t)) w') :
    ∃ opening before acts' w₁, opening.Passes n.id ∧ acts = before ++ acts' ∧
      Course limit b (.at ((passes s inner n e (passBound n e) 0 >>= leaveLoop s e).process (u.record opening []))) w₁ acts'
        (.finished (r, t)) w' := by
  have opens : visitLoop s inner n = Walk.beginStep n >>= fun step => Walk.finishStep n step .completed
      { result := some (.obj [("max_iterations", .ofNat (passBound n e)), ("loop_end", .str e.source)]) } >>= fun _ =>
        passes s inner n e (passBound n e) 0 >>= leaveLoop s e := by
    simp only [visitLoop, he]
    rfl
  rw [opens] at h
  exact Walk.course_step rfl h

/-- Behind its passes a loop only notes conditions, unless an end node was completed or it is broken
    off. -/
theorem leaveLoop_course {x : Except Halt Bool} {r : Except Halt Next}
    (h : Course limit b (.at (Walk.resume (leaveLoop s e) x u)) w acts (.finished (r, t)) w') :
    ∃ fs, t = u.noting fs ∧ r = x.map fun ended => if ended then .stop .ended else goesOn s e.source u.context.vars := by
  match x with
  | .error halt =>
    obtain ⟨rfl, rfl⟩ := Prod.mk.inj h.of_done
    exact ⟨[], by simp, rfl⟩
  | .ok true =>
    obtain ⟨rfl, rfl⟩ := Prod.mk.inj h.of_done
    exact ⟨[], by simp, rfl⟩
  | .ok false =>
    obtain ⟨rfl, fs, rfl⟩ := h.ensured (advance_decides s e.source (fun _ => True) u)
    exact ⟨fs, rfl, rfl⟩

/-- What closes a loop does not open it. -/
theorem loopEnd_ne (hn : s.graph.node? n.id = some n) (hk : n.kind = .loopStart) (he : s.graph.iterationEdge? n.id = some e) :
    n.id ≠ e.source := by
  intro h
  have closes : s.graph.kind? n.id = some .loopEnd := h ▸ (Graph.iterationEdge?_closes he).2.2
  rw [Graph.kind?_of_node? hn, hk] at closes
  cases closes

/-- The execution of a loop in a run of a valid graph, whoever answers whatever and whenever it is
    cancelled. It may make as many passes as it allows, which are 10 if it does not say, and no more
    than its edge allows. Behind its own step it makes passes that are numbered from zero.
    When the body of one is entered, the configured variable and that of the loop hold its number.
    Besides what the bodies record, one step of the loop end is recorded for each pass whose body came
    there before a cancellation. If there are fewer passes than the bound, the loop was broken off, or
    in the last pass no edge led into a body, an end node was completed, or the loop end was reached
    and its condition does not hold the loop back; the loop is over with such a pass. One that came to
    a dead end or back to the start is followed by the next one, unless it was the last of the bound or
    the run is cancelled. The passes are counted, together with those of the loops inside, and unless
    the loop is broken off or an end node was completed it is left for where the loop end leads. -/
theorem loops_make_their_passes (hv : s.graph.validate.isValid = true) (hn : s.graph.node? n.id = some n)
    (hk : n.kind = .loopStart) (he : s.graph.iterationEdge? n.id = some e) {r : Except Halt Next} {u' : Scope}
    (h : Course limit b (.at ((visit s (segment s budget) n).process u)) w acts (.finished (r, u')) w') :
    let bound := min (n.maxIterations.getD 10) (e.maxCount.getD (n.maxIterations.getD 10))
    ∃ opening before laps rest x t, opening.Passes n.id ∧ acts = before ++ laps.flatMap Lap.acts ++ rest ∧
      Laps s n e budget limit b bound 0 (u.record opening []) laps x t ∧
      laps.map Lap.number = List.range laps.length ∧ laps.length ≤ bound ∧
      (∀ l ∈ laps, l.entered.context.get? s.config.iterationVariable = some (.ofNat l.number) ∧
        l.entered.context.get? (n.id ++ "_iteration") = some (.ofNat l.number)) ∧
      u'.context.history = u.context.history ++ opening :: laps.flatMap (fun l => l.inside ++ l.closing) ∧
      (∀ l ∈ laps, (l.Arrives e → ∃ step, l.closing = [step] ∧ step.Passes e.source) ∧ (¬l.Arrives e → l.closing = [])) ∧
      (laps.length < bound → (∃ halt, r = .error halt) ∨ ∃ l ∈ laps.getLast?, l.Leaves e) ∧
      (∀ i l, laps[i]? = some l → l.Leaves e → i + 1 = laps.length) ∧
      (∀ i l, laps[i]? = some l → l.ComesBack n →
        i + 1 < laps.length ∨ i + 1 = bound ∨ r = .error .cancelled) ∧
      u'.trace.counters.iterations = u.trace.counters.iterations + laps.length + (laps.map Lap.passes).sum ∧
      ((∀ halt, r ≠ .error halt) → (∀ l ∈ laps, l.body ≠ some (.ok .ended)) →
        r = .ok (goesOn s e.source u'.context.vars)) := by
  intro bound
  have hbound : passBound n e = bound := passBound_eq_min n e
  have hg := Graph.checked_of_isValid hv
  obtain ⟨m, hm⟩ := Graph.loopEnd_declared he
  have walked : visit s (segment s budget) n = visitLoop s (segment s budget) n := by simp only [visit, hk]
  rw [walked] at h
  obtain ⟨opening, before, acts₁, w₁, hp, rfl, hpasses⟩ := visitLoop_course he h
  rw [hbound] at hpasses
  obtain ⟨laps, rest, x, t, acts₂, w₂, rfl, hlaps, hleave⟩ := passes_course hg hm hpasses
  obtain ⟨fs, rfl, rfl⟩ := leaveLoop_course hleave
  have opened : Logged u [opening] (u.record opening []) := .passed u hp []
  refine ⟨opening, before, laps, rest, x, t, hp, (List.append_assoc ..).symm, hlaps, ?_, hlaps.length_le,
    fun l hl => (hlaps.goes l hl).numbered, ?_, fun l hl => ⟨(hlaps.goes l hl).closing, (hlaps.goes l hl).silent⟩,
    fun hlt => ?_, fun i l hi hleaves => hlaps.ends hi hleaves, fun i l hi hback => ?_, ?_, fun hok hended => ?_⟩
  · rw [hlaps.numbers, List.range_eq_range']
  · rw [Scope.noting_context, hlaps.history, opened.history, List.append_assoc, List.singleton_append]
  · obtain ⟨halt, rfl⟩ | hleaves := hlaps.unfinished hlt
    · exact .inl ⟨halt, rfl⟩
    · exact .inr hleaves
  · refine (hlaps.goes_on hi (Lap.result_of_comesBack hback (loopEnd_ne hn hk he))).imp_right fun hrest => ?_
    exact hrest.imp_right fun hx => by rw [hx]; rfl
  · have counted := hlaps.iterations
    rwa [opened.iterations] at counted
  · cases x with
    | error halt => exact absurd rfl (hok halt)
    | ok ended =>
      cases ended with
      | false => rfl
      | true =>
        obtain ⟨l, hl, hb⟩ := hlaps.ended rfl
        exact absurd hb (hended l hl)

end Laps

/-- A loop that would make five passes if its edge did not allow just two, with a condition that cannot
    be decided. -/
def knocking : Setting where
  graph :=
    { id := "knocking"
      version := "1.0"
      name := ""
      description := ""
      metadata := none
      strategy := .abort
      maxRetries := 0
      retryDelay := none
      nodes := [{ id := "start", kind := .start }, { id := "loop", kind := .loopStart, maxIterations := some 5 },
        .skill "knock" "knock", { id := "loop_end", kind := .loopEnd }, { id := "end", kind := .finish }]
      edges := [{ source := "start", target := "loop" }, { source := "loop", target := "knock" },
        { source := "knock", target := "loop_end" },
        { source := "loop_end", target := "loop", kind := .iteration, maxCount := some 2, exitCondition := some "heard" },
        { source := "loop_end", target := "end" }] }

/-- It knocks twice, and is left for the end of the graph. -/
theorem a_capped_loop_makes_two_passes :
    let s := knocking
    let n : Node := { id := "loop", kind := .loopStart, maxIterations := some 5 }
    let e : Edge :=
      { source := "loop_end", target := "loop", kind := .iteration, maxCount := some 2, exitCondition := some "heard" }
    s.graph.validate.isValid = true ∧ s.graph.node? n.id = some n ∧ s.graph.iterationEdge? n.id = some e ∧
      ∃ (acts : List Act) (r : Except Halt Next) (u : Scope) (w' : Shared) (laps : List Lap),
      Course s.config.maxVisits false (.at ((visit s (segment s 3) n).process {})) {} acts (.finished (r, u)) w' ∧
      u.context.history.map (·.node) = ["loop", "knock", "loop_end", "knock", "loop_end"] ∧
      laps.map Lap.number = List.range laps.length ∧ laps.length ≤ 2 ∧ laps.length + (laps.map Lap.passes).sum = 2 ∧
      (laps.length < 2 → ∃ l ∈ laps.getLast?, l.Leaves e) ∧
      ((∀ l ∈ laps, l.body ≠ some (.ok .ended)) → r = .ok (goesOn s e.source u.context.vars)) := by
  intro s n e
  have valid : s.graph.validate.isValid = true := by decide +kernel
  have found : s.graph.node? n.id = some n := by rfl
  have closed : s.graph.iterationEdge? n.id = some e := by rfl
  have shown : (((visit s (segment s 3) n).process {}).perform Rehearsal.collaborators s.config.maxVisits false
      { memory := { script := {} } }).1.outcome?.map
        (fun p => (p.1.toOption, p.2.context.history.map (·.node), p.2.trace.counters.iterations)) =
      some (some (.node "end"), ["loop", "knock", "loop_end", "knock", "loop_end"], 2) := by
    decide +kernel
  obtain ⟨⟨r, u⟩, hp, hs⟩ := Option.map_eq_some_iff.mp shown
  obtain ⟨acts, w', hc⟩ := Process.course_of_perform hp
  obtain ⟨hr, hrest⟩ := Prod.mk.inj hs
  obtain ⟨history, two⟩ := Prod.mk.inj hrest
  have hr : r = .ok (.node "end") := ok_of_toOption hr
  have calm : ∀ halt, r ≠ .error halt := fun halt h => by cases hr.symm.trans h
  obtain ⟨_, _, laps, _, _, _, -, -, -, numbers, bounded, -, -, -, early, -, -, counted, left⟩ :=
    loops_make_their_passes valid found rfl closed hc
  refine ⟨valid, found, closed, acts, r, u, w', laps, hc, history, numbers, bounded, ?_, fun hlt => ?_, left calm⟩
  · have zero : ({} : Scope).trace.counters.iterations = 0 := rfl
    rw [zero, Nat.zero_add] at counted
    exact counted.symm.trans two
  · exact (early hlt).resolve_left fun ⟨halt, h⟩ => calm halt h

end Capability.Execution
