/-
  Capability.Proofs.Cancellation — nothing begins once a run is cancelled.

  All that walks through a graph heeds cancellations. A skill or a question whose step is open when
  that happens is closed by its answer if there was one, and is skipped otherwise.

  (1) `recover_awaits`: a cancelled skill is given up, unless it had its answer.
  (2) `visitSkill_heeds`, `visitQuestion_heeds`: how the step that is open is closed.
  (3) `segment_heedful`: every segment heeds cancellations.
  (4) `nothing_begins_once_cancelled`: so does every run, in all of its branches.
-/

import Capability.Proofs.Accounts
import Capability.Proofs.Heeding

namespace Capability.Execution

variable {α β : Type}

/-! ## Conditions -/

/-- The walk comes to a value that satisfies `P`, and did nothing to its scope but note
    conditions. -/
def Noted (s : Scope) (P : α → Prop) (r : Except Halt α) (s' : Scope) : Prop :=
  (∃ a, r = .ok a ∧ P a) ∧ ∃ fs, s' = s.noting fs

theorem Noted.pure {s : Scope} {P : α → Prop} {a : α} (h : P a) : Noted s P (.ok a) s := ⟨⟨a, rfl, h⟩, [], by simp⟩

theorem Noted.mono {s s' : Scope} {P P' : α → Prop} {r : Except Halt α} (h : Noted s P r s') (hP : ∀ a, P a → P' a) :
    Noted s P' r s' := by
  obtain ⟨⟨a, rfl, ha⟩, hs⟩ := h
  exact ⟨⟨a, rfl, hP a ha⟩, hs⟩

theorem Noted.trans {s s' t : Scope} {P : α → Prop} {r : Except Halt α} {fs : List ConditionFailure} (hs : s' = s.noting fs)
    (h : Noted s' P r t) : Noted s P r t := by
  subst hs
  obtain ⟨hr, gs, rfl⟩ := h
  exact ⟨hr, fs ++ gs, by simp⟩

namespace Walk

/-- The walk looks at conditions only. -/
def Ponders (w : Walk α) : Prop := ∀ s, w.Tells s (Noted s fun _ => True)

theorem Ponders.pure (a : α) : (pure a : Walk α).Ponders := fun _ => .pure trivial

theorem Ponders.get : (get : Walk Scope).Ponders := fun _ => .pure trivial

theorem Ponders.bind {w : Walk α} (h : w.Ponders) {f : α → Walk β} (hf : ∀ a, (f a).Ponders) : (w >>= f).Ponders := by
  intro s
  refine tells_bind.mpr ((h s).mono fun r s' hr => ?_)
  obtain ⟨⟨a, rfl, -⟩, fs, hs⟩ := hr
  exact (hf a s').mono fun _ _ => .trans hs

theorem Ponders.ite {c : Prop} [Decidable c] {w w' : Walk α} (h : w.Ponders) (h' : w'.Ponders) :
    (if c then w else w').Ponders := by
  split
  · exact h
  · exact h'

theorem holdsUnder_ponders (vars : Keyed Json) (node expression : String) : (holdsUnder vars node expression).Ponders := by
  unfold holdsUnder
  split
  · exact .pure _
  · exact fun s => ⟨id, ⟨_, rfl, trivial⟩, [_], rfl⟩

theorem holds_ponders (node expression : String) : (holds node expression).Ponders :=
  .bind .get fun _ => holdsUnder_ponders _ _ _

theorem allHold_ponders {test : String → Walk Bool} (h : ∀ c, (test c).Ponders) : ∀ cs, (allHold test cs).Ponders
  | [] => .pure _
  | c :: cs => .bind (h c) fun _ => .ite (allHold_ponders h cs) (.pure _)

theorem firstWhere_ponders {test : α → Walk Bool} (h : ∀ a, (test a).Ponders) : ∀ as, (firstWhere test as).Ponders
  | [] => .pure _
  | a :: as => .bind (h a) fun _ => .ite (.pure _) (firstWhere_ponders h as)

theorem keepWhere_ponders {test : α → Walk Bool} (h : ∀ a, (test a).Ponders) : ∀ as, (keepWhere test as).Ponders
  | [] => .pure _
  | a :: as => .bind (h a) fun _ => .bind (keepWhere_ponders h as) fun _ => .pure _

end Walk

theorem chooseEdge_ponders (node : String) (es : List Edge) (e? : Option Edge) : (chooseEdge node es e?).Ponders := by
  induction es generalizing e? with
  | nil => exact .pure _
  | cons e es ih =>
    unfold chooseEdge
    split
    · exact ih _
    · exact .bind (Walk.holds_ponders _ _) fun _ => .ite (.pure _) (ih _)

theorem successor_ponders (st : Setting) (node : String) : (successor st node).Ponders :=
  .bind (chooseEdge_ponders _ _ _) fun _ => .pure _

theorem advance_ponders (st : Setting) (node : String) : (advance st node).Ponders := by
  refine .bind (successor_ponders _ _) fun next => ?_
  cases next <;> exact .pure _

theorem rankedImplementations_ponders (n : Node) : (rankedImplementations n).Ponders :=
  .bind (Walk.keepWhere_ponders (fun _ => Walk.allHold_ponders (fun _ => .ite (.pure _) (Walk.holds_ponders _ _)) _) _)
    fun _ => .pure _

theorem triggers_ponders (vars : Keyed Json) (n : Node) (e : Edge) : (triggers vars n e).Ponders := by
  unfold triggers
  split
  · exact .pure _
  · exact Walk.holdsUnder_ponders _ _ _

theorem exits_ponders (loopEnd : String) (e : Edge) : (exits loopEnd e).Ponders := by
  unfold exits
  split
  · exact Walk.holds_ponders _ _
  · exact .pure _

theorem opensBranch_ponders (n : Node) (e : Edge) : (opensBranch n e).Ponders := by
  unfold opensBranch
  split
  · exact Walk.holds_ponders _ _
  · exact .pure _

/-! ## Skills -/

namespace Walk

/-- Once it is cancelled, the walk begins nothing and notes conditions until it comes to a value
    that satisfies `P`. -/
def Folds (w : Walk α) (P : α → Prop) : Prop := ∀ s, w.Unwinds s (Noted s P)

/-- The walk makes calls and notes conditions until it comes to a value. That satisfies `P` if
    the walk is cancelled, and `G` if that happens during an answer. -/
def Awaits (w : Walk α) (P : α → Prop) (G : Except Fault Json → α → Prop) : Prop :=
  ∀ s, w.Heeds s (Noted s fun _ => True) (Noted s P) fun _ o => Noted s (G o)

variable {P : α → Prop} {G : Except Fault Json → α → Prop}

theorem Folds.pure {a : α} (h : P a) : (pure a : Walk α).Folds P := fun _ => .pure h

theorem Folds.mono {w : Walk α} {P' : α → Prop} (h : w.Folds P) (hP : ∀ a, P a → P' a) : w.Folds P' :=
  fun s => (h s).mono fun _ _ hr => hr.mono hP

theorem Folds.bind {w : Walk β} {P' : β → Prop} (h : w.Folds P') {f : β → Walk α} (hf : ∀ a, P' a → (f a).Folds P) :
    (w >>= f).Folds P := by
  intro s
  refine unwinds_bind.mpr ((h s).mono fun r s' hr => ?_)
  obtain ⟨⟨a, rfl, ha⟩, fs, hs⟩ := hr
  exact (hf a ha s').mono fun _ _ => .trans hs

theorem Folds.ite {c : Prop} [Decidable c] {w w' : Walk α} (h : c → w.Folds P) (h' : ¬c → w'.Folds P) :
    (if c then w else w').Folds P := by
  split
  · exact h ‹_›
  · exact h' ‹_›

theorem Ponders.folds {w : Walk α} (h : w.Ponders) : w.Folds fun _ => True := fun s => (h s).unwinds

theorem Folds.emit {e : Event} (h : ¬(Notice.event e).Begins) : (emit e).Folds fun _ => True := fun _ => ⟨h, .pure trivial⟩

theorem Folds.call (node : String) (k : Call) (l : Option Duration) :
    (Execution.call node k l).Folds (· = .error .cancelled) := fun _ => .pure rfl

theorem Folds.pause (d : Duration) : Folds (request (.pause d)) fun _ => True := fun _ => ⟨.pure trivial, .pure trivial⟩

theorem Awaits.bind {w : Walk β} {P' : β → Prop} {G' : Except Fault Json → β → Prop} (h : w.Awaits P' G') {f : β → Walk α}
    (hf : ∀ a, (f a).Awaits P G) (hP : ∀ a, P' a → (f a).Folds P) (hG : ∀ o a, G' o a → (f a).Folds (G o)) :
    (w >>= f).Awaits P G := by
  intro s
  refine heeds_bind.mpr ((h s).mono (fun r s' hr => ?_) (fun r s' hr => ?_) fun _ o r s' hr => ?_)
  · obtain ⟨⟨a, rfl, -⟩, fs, hs⟩ := hr
    exact (hf a s').mono (fun _ _ => .trans hs) (fun _ _ => .trans hs) fun _ _ _ _ => .trans hs
  · obtain ⟨⟨a, rfl, ha⟩, fs, hs⟩ := hr
    exact (hP a ha s').mono fun _ _ => .trans hs
  · obtain ⟨⟨a, rfl, ha⟩, fs, hs⟩ := hr
    exact (hG o a ha s').mono fun _ _ => .trans hs

theorem Awaits.pure (a : α) : (pure a : Walk α).Awaits P G := fun _ => .pure trivial

theorem Awaits.ite {c : Prop} [Decidable c] {w w' : Walk α} (h : w.Awaits P G) (h' : w'.Awaits P G) :
    (if c then w else w').Awaits P G := by
  split
  · exact h
  · exact h'

/-- A walk that looks at conditions only is never cancelled. -/
theorem Ponders.awaits_bind {w : Walk β} (h : w.Ponders) {f : β → Walk α} (hf : ∀ a, (f a).Awaits P G) :
    (w >>= f).Awaits P G := by
  have never : w.Awaits (fun _ => False) fun _ _ => False := fun s => (h s).heeds
  exact never.bind hf (fun _ h => h.elim) fun _ _ h => h.elim

theorem Awaits.emit_bind (e : Event) {f : Unit → Walk α} (hf : ∀ a, (f a).Awaits P G) : (emit e >>= f).Awaits P G :=
  fun s => hf () s

theorem Awaits.pause_bind (d : Duration) {f : Bool → Walk α} (hf : ∀ r, (f r).Awaits P G) (hP : ∀ r, (f r).Folds P) :
    (request (.pause d) >>= f).Awaits P G :=
  fun s => ⟨⟨hP true s, hP false s⟩, fun r => hf r s⟩

theorem Awaits.call (node : String) (k : Call) (l : Option Duration) :
    (Execution.call node k l).Awaits (· = .error .cancelled) fun o r => r = o :=
  fun _ => ⟨.pure rfl, fun _ => .pure rfl, fun _ => .pure trivial⟩

end Walk

/-- What came of attempts is what the last answer says, unless they were given up. -/
def Heard (o outcome : Except Fault Json) : Prop := outcome = .error .cancelled ∨ outcome = o

section Attempts

variable {a : Attempts Walk Json} (hf : ∀ n, (a.attempt n).Folds (· = .error .cancelled))

include hf in
/-- Attempts that are cancelled are given up. -/
theorem attempts_fold (backoff : Backoff) (retries n : Nat) :
    (a.run backoff retries n).Folds fun r => r.outcome = .error .cancelled := by
  cases retries <;> unfold Attempts.run <;> refine (hf n).bind fun r hr => ?_ <;> subst hr <;> exact .pure rfl

include hf in
/-- So are attempts that are cancelled during an answer, unless that is the end of them. -/
theorem attempts_await (ha : ∀ n, (a.attempt n).Awaits (· = .error .cancelled) fun o r => r = o) (node : String)
    (hn : ∀ n d, a.announce n d = Walk.emit (.nodeRetrying node n d)) (hp : ∀ d, a.pause d = Walk.request (.pause d))
    (backoff : Backoff) (retries n : Nat) :
    (a.run backoff retries n).Awaits (fun r => r.outcome = .error .cancelled) fun o r => Heard o r.outcome := by
  induction retries generalizing n with
  | zero =>
    unfold Attempts.run
    refine (ha n).bind (fun r => ?_) (fun r hr => ?_) fun o r hr => ?_
    · cases r <;> exact .pure _
    · subst hr; exact .pure rfl
    · subst hr; cases r <;> exact .pure (.inr rfl)
  | succ retries ih =>
    unfold Attempts.run
    simp only [hn, hp]
    refine (ha n).bind (fun r => ?_) (fun r hr => ?_) fun o r hr => ?_
    · cases r with
      | ok v => exact .pure _
      | error fault =>
        refine .ite (.emit_bind _ fun _ => Walk.Awaits.pause_bind _ (fun cut => ?_) fun cut => ?_) (.pure _)
        · exact .ite (.pure _) (ih _)
        -- a pause may end before the cancellation cuts it short, but the next call is not made then
        · exact .ite (fun _ => .pure rfl) fun _ => attempts_fold hf _ _ _
    · subst hr; exact .pure rfl
    · subst hr
      cases r with
      | ok v => exact .pure (.inr rfl)
      | error fault =>
        refine .ite (fun _ => (Walk.Folds.emit id).bind fun _ _ => (Walk.Folds.pause _).bind fun cut _ => ?_) fun _ => .pure (.inr rfl)
        cases cut with
        | true => exact .pure (.inl rfl)
        | false => exact (attempts_fold hf _ _ _).mono fun _ => .inl

end Attempts

section Recovery

variable {st : Setting} {n : Node}

theorem attemptSkill_folds (skill : String) (implementation : Option String) :
    (attemptSkill st n skill implementation).Folds fun r => r.outcome = .error .cancelled :=
  Walk.Ponders.get.folds.bind fun _ _ => attempts_fold (fun _ => .call _ _ _) _ _ _

theorem attemptSkill_awaits (skill : String) (implementation : Option String) :
    (attemptSkill st n skill implementation).Awaits (fun r => r.outcome = .error .cancelled) fun o r => Heard o r.outcome :=
  Walk.Ponders.get.awaits_bind fun _ => attempts_await (fun _ => .call _ _ _) (fun _ => .call _ _ _) n.id (fun _ _ => rfl)
    (fun _ => rfl) _ _ _

/-- What came of a skill node is what an answer to it says. -/
def Recovered.Accords (r : Recovered) (o : Except Fault Json) : Prop :=
  (∃ v implementation, o = .ok v ∧ r.outcome = .ok (v, implementation)) ∨ ∃ fault, o = .error fault ∧ r.outcome = .error fault

/-- The search for an alternative is given up, or there is none left. -/
theorem tryAlternatives_folds (room : Nat) (attempted : List String) (queue : List Implementation) (retries : Nat)
    (last : Fault) : (tryAlternatives st n room attempted queue retries last).Folds fun r =>
      r.outcome = .error .cancelled ∨ r.outcome = .error last := by
  unfold tryAlternatives
  split
  · exact .pure (.inr rfl)
  · split
    · exact .pure (.inr rfl)
    · refine (Walk.Folds.emit id).bind fun _ _ => (attemptSkill_folds _ _).bind fun r hr => ?_
      rw [hr]
      exact .pure (.inl rfl)

/-- What follows an attempt that was cancelled during its answer: either the attempts were given up,
    or the answer counts, and after a fault alternatives are looked for in vain. -/
theorem after_answer {o : Except Fault Json} {r : Retried Json} (hr : Heard o r.outcome) (implementation : Option String) (retries : Nat)
    {more : Fault → Walk Recovered}
    (hm : ∀ fault, (more fault).Folds fun r => r.outcome = .error .cancelled ∨ r.outcome = .error fault) :
    Walk.Folds (match r.outcome with
      | .ok v => pure ⟨.ok (v, implementation), retries⟩
      | .error fault => if fault.isTerminal then pure ⟨.error fault, retries⟩ else more fault)
      fun r => r.outcome = .error .cancelled ∨ r.Accords o := by
  obtain hr | hr := hr
  · rw [hr]
    exact .pure (.inl rfl)
  · rw [hr]
    cases o with
    | ok v => exact .pure (.inr (.inl ⟨v, implementation, rfl, rfl⟩))
    | error fault =>
      refine .ite (fun _ => .pure (.inr (.inr ⟨fault, rfl, rfl⟩))) fun _ => (hm fault).mono fun _ h => ?_
      exact h.imp_right fun he => .inr ⟨fault, rfl, he⟩

theorem tryAlternatives_awaits (room : Nat) (attempted : List String) (queue : List Implementation) (retries : Nat)
    (last : Fault) : (tryAlternatives st n room attempted queue retries last).Awaits (fun r => r.outcome = .error .cancelled)
      fun o r => r.outcome = .error .cancelled ∨ r.Accords o := by
  induction room generalizing attempted queue retries last with
  | zero => unfold tryAlternatives; split <;> exact .pure _
  | succ room ih =>
    unfold tryAlternatives
    split
    · exact .pure _
    · refine .emit_bind _ fun _ => (attemptSkill_awaits _ _).bind (fun r => ?_) (fun r hr => ?_) fun o r hr => ?_
      · split
        · exact .pure _
        · exact .ite (.pure _) (ih _ _ _ _)
      · rw [hr]
        exact .pure rfl
      · exact after_answer hr _ _ fun fault => tryAlternatives_folds _ _ _ _ fault

theorem recover_awaits (skill : String) :
    (recover st n skill).Awaits (fun r => r.outcome = .error .cancelled) fun o r =>
      r.outcome = .error .cancelled ∨ r.Accords o := by
  refine (attemptSkill_awaits skill none).bind (fun r => ?_) (fun r hr => ?_) fun o r hr => ?_
  · split
    · exact .pure _
    · exact .ite (.pure _) ((rankedImplementations_ponders n).awaits_bind fun _ => tryAlternatives_awaits _ _ _ _ _)
  · rw [hr]
    exact .pure rfl
  · exact after_answer hr none _ fun fault =>
      (rankedImplementations_ponders n).folds.bind fun _ _ => tryAlternatives_folds _ _ _ _ fault

end Recovery

/-! ## Open steps -/

/-- What a scope looks like while the step of a node is open and nothing was bound yet. -/
structure Open (u : Scope) (n : Node) (t : Scope) : Prop where
  during : Scope.During (u.nextStep n.id) (u.beginStep n.id) t
  vars : t.context.vars = u.context.vars
  written : t.context.written = u.context.written

/-- The step of a node was closed by a cancellation: it is skipped for that reason and is not on
    the path, and no variable was bound. -/
structure Interrupted (u : Scope) (n : Node) (u' : Scope) : Prop where
  step : ∃ e : Step, u'.context.history = u.context.history ++ [e] ∧ e.node = n.id ∧ e.status = .skipped ∧
    e.error = some "cancelled"
  path : u'.trace.path = u.trace.path
  vars : u'.context.vars = u.context.vars
  written : u'.context.written = u.context.written

/-- The step of a node was closed by a fault. -/
def ClosedByFault (u : Scope) (n : Node) (fault : Fault) (u' : Scope) : Prop :=
  ∃ e : Step, u'.context.history = u.context.history ++ [e] ∧ e.node = n.id ∧ (e.status = .failed ∨ e.status = .skipped) ∧
    e.error = some fault.message

/-- The step of a node was closed by the answer to a call: completed with its value, or given up for
    its fault. Where it was asked whether to skip a failed node, that is the fault that it had
    failed by. -/
def ClosedByAnswer (u : Scope) (n : Node) (k : Call) (o : Except Fault Json) (u' : Scope) : Prop :=
  (∃ v, o = .ok v ∧ ∃ e : Step, u'.context.history = u.context.history ++ [e] ∧ e.node = n.id ∧ e.status = .completed ∧
    e.result = some v) ∨
  ∃ fault, (o = .error fault ∨ k = .question (skipQuestion n fault)) ∧ ClosedByFault u n fault u'

/-- How a visit that is cancelled ends. -/
def CutShort (u : Scope) (n : Node) (r : Except Halt α) (u' : Scope) : Prop := r = .error .cancelled ∧ Interrupted u n u'

section Steps

variable {st : Setting} {n : Node} {u t : Scope} {fault : Fault}

theorem Open.start (u : Scope) (n : Node) : Open u n (u.beginStep n.id) := ⟨.refl, rfl, rfl⟩

theorem Open.noting (h : Open u n t) (fs : List ConditionFailure) : Open u n (t.noting fs) :=
  ⟨h.during.noting fs, h.vars, h.written⟩

theorem Open.awaitStep (h : Open u n t) : Open u n (t.awaitStep (u.nextStep n.id)) :=
  ⟨h.during.awaitStep, h.vars, h.written⟩

theorem Open.cancel (h : Open u n t) : CutShort u n (.error .cancelled : Except Halt α) (t.cancelStep (u.nextStep n.id)) := by
  obtain ⟨e, hn, hs⟩ := h.during.history_cancel
  exact ⟨rfl, ⟨⟨_, hs, hn, rfl, rfl⟩, h.during.shape.2.1, h.vars, h.written⟩⟩

theorem Open.fail (h : Open u n t) {status : StepStatus} (hs : status = .failed ∨ status = .skipped) {report : StepReport}
    (he : report.error = some fault.message) : ClosedByFault u n fault (t.finishStep (u.nextStep n.id) status report) := by
  obtain ⟨e, hn, hh⟩ := h.during.history_finish status report
  exact ⟨_, hh, hn, hs, he⟩

/-- What is noted afterwards changes nothing about a step. -/
theorem ClosedByFault.noting {u' : Scope} (h : ClosedByFault u n fault u') (fs : List ConditionFailure) :
    ClosedByFault u n fault (u'.noting fs) := h

/-- Skipped or not, a step that failed is closed by its fault. -/
theorem closeFailed_tells (h : Open u n t) (skipped : Bool) (retries : Nat) :
    (if skipped then do
        Walk.finishStep n (u.nextStep n.id) .skipped { error := some fault.message, retryCount := retries }
        advance st n.id
      else Walk.failStep n (u.nextStep n.id) { error := some fault.message, retryCount := retries } fault :
        Walk Next).Tells t fun _ => ClosedByFault u n fault := by
  cases skipped with
  | true =>
    simp only [if_true, Walk.tells_bind, Walk.tells_finishStep]
    refine (advance_ponders st n.id _).mono fun r u' hr => ?_
    obtain ⟨-, fs, rfl⟩ := hr
    exact (h.fail (.inr rfl) rfl).noting fs
  | false =>
    simp only [Bool.false_eq_true, if_false, Walk.tells_failStep]
    exact h.fail (.inl rfl) rfl

theorem skips_unwinds (h : Open u n t) :
    (skips st n (u.nextStep n.id) fault).Unwinds t fun r t' =>
      CutShort u n r t' ∨ (∃ b, r = .ok b) ∧ Open u n t' := by
  unfold skips
  split
  · exact .inr ⟨⟨_, rfl⟩, h⟩
  · exact .inr ⟨⟨_, rfl⟩, h⟩
  · exact .inr ⟨⟨_, rfl⟩, h⟩
  -- the question is announced, but not put to anybody any more
  · simp only [Walk.unwinds_bind, Walk.unwinds_modify, Walk.unwinds_emit, Walk.unwinds_call]
    exact ⟨id, (Walk.tells_cancelStep.mpr (.inl h.awaitStep.cancel)).unwinds⟩

/-- Whether to skip is asked of somebody, who may be interrupted. -/
theorem skips_heeds (h : Open u n t) :
    (skips st n (u.nextStep n.id) fault).Heeds t (fun r t' => ∀ b, r = .ok b → Open u n t') (CutShort u n)
      fun k _ r t' => CutShort u n r t' ∨ k = .question (skipQuestion n fault) ∧ (∃ b, r = .ok b) ∧ Open u n t' := by
  unfold skips
  split
  · exact fun _ _ => h
  · exact fun _ _ => h
  · exact fun _ _ => h
  · simp only [Walk.heeds_bind, Walk.heeds_modify, Walk.heeds_emit, Walk.heeds_call]
    have cut : CutShort u n (.error .cancelled : Except Halt Bool) _ := h.awaitStep.cancel
    refine ⟨(Walk.tells_cancelStep.mpr cut).unwinds, fun o => ?_, fun a => ?_⟩
    · rcases o with f | v
      · cases f
        case cancelled => exact (Walk.tells_cancelStep.mpr (.inl cut)).unwinds
        all_goals exact .inr ⟨trivial, ⟨_, rfl⟩, h.awaitStep⟩
      · exact .inr ⟨trivial, ⟨_, rfl⟩, h.awaitStep⟩
    · rcases a.outcome n.id none with f | v
      · cases f
        case cancelled => exact (Walk.tells_cancelStep.mpr fun _ h => by cases h).heeds
        all_goals exact fun _ _ => h.awaitStep
      · exact fun _ _ => h.awaitStep

theorem handleFailure_unwinds (h : Open u n t) (retries : Nat) :
    (handleFailure st n (u.nextStep n.id) fault retries).Unwinds t fun r u' =>
      CutShort u n r u' ∨ ClosedByFault u n fault u' := by
  unfold handleFailure
  simp only [Walk.unwinds_bind, Walk.unwinds_get]
  refine (Walk.firstWhere_ponders (triggers_ponders _ n) _ _).unwinds.mono fun r t' hr => ?_
  obtain ⟨⟨reroute, rfl, -⟩, fs, rfl⟩ := hr
  cases reroute with
  | some e =>
    refine (Walk.tells_bind.mpr (Walk.tells_emit.mpr ⟨id, Walk.tells_bind.mpr (Walk.tells_finishStep.mpr ?_)⟩)).unwinds
    exact .inr ((h.noting fs).fail (.inl rfl) rfl)
  | none =>
    refine Walk.unwinds_bind.mpr ((skips_unwinds (h.noting fs)).mono fun r t' hr => ?_)
    obtain ⟨rfl, hi⟩ | ⟨⟨skipped, rfl⟩, ho⟩ := hr
    · exact .inl ⟨rfl, hi⟩
    · exact (closeFailed_tells ho skipped retries).unwinds.mono fun _ _ => .inr

theorem handleFailure_heeds (h : Open u n t) (retries : Nat) :
    (handleFailure st n (u.nextStep n.id) fault retries).Heeds t (fun _ _ => True) (CutShort u n)
      fun k _ r u' => CutShort u n r u' ∨ k = .question (skipQuestion n fault) ∧ ClosedByFault u n fault u' := by
  unfold handleFailure
  simp only [Walk.heeds_bind, Walk.heeds_get]
  refine ((Walk.firstWhere_ponders (triggers_ponders _ n) _ _).mono fun r t' hr => ?_).heeds
  obtain ⟨⟨reroute, rfl, -⟩, fs, rfl⟩ := hr
  cases reroute with
  | some e =>
    refine (Walk.tells_bind.mpr (Walk.tells_emit.mpr ⟨id, Walk.tells_bind.mpr (Walk.tells_finishStep.mpr ?_)⟩)).heeds
    trivial
  | none =>
    refine Walk.heeds_bind.mpr ((skips_heeds (h.noting fs)).mono (fun r t' hr => ?_) (fun r t' hr => ?_) fun k o r t' hr => ?_)
    · cases r with
      | error => trivial
      | ok skipped => exact ((closeFailed_tells (hr skipped rfl) skipped retries).mono fun _ _ _ => trivial).heeds
    · obtain ⟨rfl, hi⟩ := hr
      exact ⟨rfl, hi⟩
    · obtain ⟨rfl, hi⟩ | ⟨hk, ⟨skipped, rfl⟩, ho⟩ := hr
      · exact .inl ⟨rfl, hi⟩
      · exact (closeFailed_tells ho skipped retries).unwinds.mono fun _ _ hf => .inr ⟨hk, hf⟩

theorem ClosedByAnswer.complete (h : Scope.During (u.nextStep n.id) (u.beginStep n.id) t) {k : Call} {v : Json}
    {report : StepReport} (hv : report.result = some v) :
    ClosedByAnswer u n k (.ok v) (t.finishStep (u.nextStep n.id) .completed report) := by
  obtain ⟨e, hn, hh⟩ := h.history_finish .completed report
  exact .inl ⟨v, rfl, _, hh, hn, rfl, hv⟩

/-- What is noted afterwards changes nothing about a step. -/
theorem ClosedByAnswer.noting {k : Call} {o : Except Fault Json} {u' : Scope} (h : ClosedByAnswer u n k o u')
    (fs : List ConditionFailure) : ClosedByAnswer u n k o (u'.noting fs) := h

/-- A step that is completed is closed by its value. -/
theorem complete_tells (h : Scope.During (u.nextStep n.id) (u.beginStep n.id) t) {v : Json} {report : StepReport}
    (hv : report.result = some v) : (do
      Walk.finishStep n (u.nextStep n.id) .completed report
      advance st n.id : Walk Next).Tells t fun _ u' => ∀ k, ClosedByAnswer u n k (.ok v) u' := by
  simp only [Walk.tells_bind, Walk.tells_finishStep]
  refine (advance_ponders st n.id _).mono fun r u' hr => ?_
  obtain ⟨-, fs, rfl⟩ := hr
  exact fun k => (ClosedByAnswer.complete h hv).noting fs

/-- What follows an answer that gave up a step: it is closed by the fault of the answer. -/
theorem handleFailure_answers (h : Open u n t) (retries : Nat) (k : Call) :
    (handleFailure st n (u.nextStep n.id) fault retries).Unwinds t fun r u' =>
      CutShort u n r u' ∨ ClosedByAnswer u n k (.error fault) u' :=
  (handleFailure_unwinds h retries).mono fun _ _ => Or.imp_right fun hf => .inr ⟨fault, .inl rfl, hf⟩

/-- What follows a failure, as far as the step that is open is concerned. -/
theorem handleFailure_closes (h : Open u n t) (retries : Nat) :
    (handleFailure st n (u.nextStep n.id) fault retries).Heeds t (fun _ _ => True) (CutShort u n)
      fun k o r u' => CutShort u n r u' ∨ ClosedByAnswer u n k o u' :=
  (handleFailure_heeds h retries).mono (fun _ _ => id) (fun _ _ => id) fun _ _ _ _ =>
    Or.imp_right fun ⟨hk, hf⟩ => .inr ⟨fault, .inr hk, hf⟩

/-- A skill node that is cancelled is skipped for that reason, unless its answer was there. -/
theorem visitSkill_heeds (st : Setting) (n : Node) (u : Scope) :
    (visitSkill st n).Heeds u (fun _ _ => True) (CutShort u n) fun k o r u' => CutShort u n r u' ∨ ClosedByAnswer u n k o u' := by
  unfold visitSkill
  refine Walk.heeds_bind.mpr (Walk.heeds_beginStep.mpr ?_)
  dsimp only
  split
  next => exact (Walk.tells_failStep.mpr trivial).heeds
  next skill _ =>
    refine Walk.heeds_bind.mpr ((recover_awaits skill _).mono (fun r t hr => ?_) (fun r t hr => ?_) fun k o r t hr => ?_)
    · obtain ⟨⟨⟨outcome, retries⟩, rfl, -⟩, fs, rfl⟩ := hr
      have still := (Open.start u n).noting fs
      dsimp only
      split
      next value implementation =>
        have bound := bindOutputs_during still.during n value
        refine Walk.Tells.heeds (Walk.tells_bind.mpr (Walk.tells_modify.mpr ?_))
        exact (complete_tells bound rfl).mono fun _ _ _ => trivial
      next => exact (Walk.tells_cancelStep.mpr trivial).heeds
      next fault _ => exact handleFailure_closes still retries
    · obtain ⟨⟨⟨outcome, retries⟩, rfl, hr⟩, fs, rfl⟩ := hr
      obtain rfl : outcome = .error .cancelled := hr
      exact (Walk.tells_cancelStep.mpr ((Open.start u n).noting fs).cancel).unwinds
    · obtain ⟨⟨⟨outcome, retries⟩, rfl, hr⟩, fs, rfl⟩ := hr
      have still := (Open.start u n).noting fs
      dsimp only
      obtain hr | ⟨v, implementation, rfl, hr⟩ | ⟨fault, rfl, hr⟩ := hr
      · obtain rfl : outcome = .error .cancelled := hr
        exact (Walk.tells_cancelStep.mpr (.inl still.cancel)).unwinds
      · obtain rfl : outcome = .ok (v, implementation) := hr
        have bound := bindOutputs_during still.during n v
        refine Walk.Tells.unwinds (Walk.tells_bind.mpr (Walk.tells_modify.mpr ?_))
        exact (complete_tells bound rfl).mono fun _ _ h => .inr (h k)
      · obtain rfl : outcome = .error fault := hr
        split
        next he => cases he
        next => exact (Walk.tells_cancelStep.mpr (.inl still.cancel)).unwinds
        next he =>
          cases he
          exact handleFailure_answers still retries k

/-- So is a question. -/
theorem visitQuestion_heeds (st : Setting) (n : Node) (u : Scope) :
    (visitQuestion st n).Heeds u (fun _ _ => True) (CutShort u n) fun k o r u' =>
      CutShort u n r u' ∨ ClosedByAnswer u n k o u' := by
  unfold visitQuestion
  refine Walk.heeds_bind.mpr (Walk.heeds_beginStep.mpr ?_)
  dsimp only
  split
  next => exact (Walk.tells_failStep.mpr trivial).heeds
  next kind _ =>
    simp only [Walk.heeds_bind, Walk.heeds_modify, Walk.heeds_get, Walk.heeds_emit, Walk.heeds_call]
    have still := (Open.start u n).awaitStep
    refine ⟨(Walk.tells_cancelStep.mpr still.cancel).unwinds, fun o => ?_, fun a => ?_⟩
    · split
      next value =>
        refine Walk.Tells.unwinds (Walk.tells_bind.mpr (Walk.tells_modify.mpr ?_))
        exact (complete_tells (still.during.set _ value) rfl).mono fun _ _ h => .inr (h _)
      next => exact (Walk.tells_cancelStep.mpr (.inl still.cancel)).unwinds
      next fault _ => exact handleFailure_answers still 0 _
    · split
      next value _ =>
        refine Walk.Tells.heeds (Walk.tells_bind.mpr (Walk.tells_modify.mpr ?_))
        exact (complete_tells (still.during.set _ value) rfl).mono fun _ _ _ => trivial
      next => exact (Walk.tells_cancelStep.mpr trivial).heeds
      next fault _ => exact handleFailure_closes still 0

end Steps

/-! ## Walks through a graph -/

namespace Walk

/-- Once it is cancelled, the walk begins nothing. -/
def Calm (w : Walk α) : Prop := ∀ s, w.Unwinds s fun _ _ => True

/-- The walk begins nothing from where it finds that it is cancelled. -/
def Heedful (w : Walk α) : Prop := ∀ s, w.Heeds s (fun _ _ => True) (fun _ _ => True) fun _ _ _ _ => True

/-- The walk never looks for a cancellation. -/
def Swift (w : Walk α) : Prop := ∀ s, w.Heeds s (fun _ _ => True) (fun _ _ => False) fun _ _ _ _ => False

theorem Calm.pure (a : α) : (pure a : Walk α).Calm := fun _ => trivial

theorem Calm.throw (h : Halt) : (throw h : Walk α).Calm := fun _ => trivial

theorem Calm.bind {w : Walk β} (h : w.Calm) {f : β → Walk α} (hf : ∀ a, (f a).Calm) : (w >>= f).Calm := by
  refine fun s => unwinds_bind.mpr ((h s).mono fun r s' _ => ?_)
  cases r with
  | ok a => exact hf a s'
  | error => trivial

theorem Calm.modify (f : Scope → Scope) : (modify f : Walk Unit).Calm := fun _ => trivial

theorem Calm.ite {c : Prop} [Decidable c] {w w' : Walk α} (h : w.Calm) (h' : w'.Calm) : (if c then w else w').Calm := by
  split
  · exact h
  · exact h'

theorem Ponders.calm {w : Walk α} (h : w.Ponders) : w.Calm := fun s => (h s).unwinds.mono fun _ _ _ => trivial

/-- No cancelled walk comes past a checkpoint. -/
theorem Calm.checkpoint_bind (f : Unit → Walk α) : (checkpoint >>= f).Calm := fun _ => unwinds_bind.mpr (unwinds_checkpoint.mpr trivial)

theorem Heedful.pure (a : α) : (pure a : Walk α).Heedful := fun _ => trivial

theorem Heedful.throw (h : Halt) : (throw h : Walk α).Heedful := fun _ => trivial

theorem Heedful.bind {w : Walk β} (h : w.Heedful) {f : β → Walk α} (hf : ∀ a, (f a).Heedful) (hc : ∀ a, (f a).Calm) :
    (w >>= f).Heedful := by
  refine fun s => heeds_bind.mpr ((h s).mono (fun r s' _ => ?_) (fun r s' _ => ?_) fun _ _ r s' _ => ?_) <;> cases r with
  | error => trivial
  | ok a => first | exact hf a s' | exact hc a s'

theorem Heedful.ite {c : Prop} [Decidable c] {w w' : Walk α} (h : w.Heedful) (h' : w'.Heedful) :
    (if c then w else w').Heedful := by
  split
  · exact h
  · exact h'

/-- What comes behind a walk that never looks for a cancellation need not be ready for one. -/
theorem Swift.bind {w : Walk β} (h : w.Swift) {f : β → Walk α} (hf : ∀ a, (f a).Heedful) : (w >>= f).Heedful := by
  refine fun s => heeds_bind.mpr ((h s).mono (fun r s' _ => ?_) (fun _ _ h => h.elim) fun _ _ _ _ h => h.elim)
  cases r with
  | error => trivial
  | ok a => exact hf a s'

/-- However a walk ends that heeds cancellations, nothing begins in it. -/
theorem Heedful.of_heeds {w : Walk α} {Q : Scope → Except Halt α → Scope → Prop}
    {A : Scope → Call → Except Fault Json → Except Halt α → Scope → Prop}
    (h : ∀ s, w.Heeds s (fun _ _ => True) (Q s) (A s)) : w.Heedful :=
  fun s => (h s).mono (fun _ _ => id) (fun _ _ _ => trivial) fun _ _ _ _ _ => trivial

theorem Swift.heedful {w : Walk α} (h : w.Swift) : w.Heedful := .of_heeds h

theorem Ponders.swift {w : Walk α} (h : w.Ponders) : w.Swift := fun s => ((h s).mono fun _ _ _ => trivial).heeds

theorem Swift.modify (f : Scope → Scope) : (modify f : Walk Unit).Swift := fun _ => trivial

theorem Swift.beginStep (n : Node) : (beginStep n).Swift := fun _ => trivial

theorem Swift.finishStep (n : Node) (step : OpenStep) (status : StepStatus) (report : StepReport) :
    (finishStep n step status report).Swift := fun _ => (tells_finishStep.mpr trivial).heeds

theorem Swift.mayVisit : mayVisit.Swift := fun _ _ => trivial

theorem Swift.passThrough (n : Node) : (passThrough n).Swift := fun _ => trivial

theorem Heedful.failStep (n : Node) (step : OpenStep) (report : StepReport) (fault : Fault) :
    (failStep n step report fault : Walk α).Heedful := fun _ => (tells_failStep.mpr trivial).heeds

theorem Heedful.checkpoint_bind {f : Unit → Walk α} (hf : ∀ a, (f a).Heedful) : (checkpoint >>= f).Heedful :=
  fun s => ⟨trivial, fun stopped => by cases stopped <;> [exact hf () s; trivial]⟩

/-- Branches that heed cancellations do so together. -/
theorem Heedful.split (joining : Joining) {branches : List (Walk Flow)} (h : ∀ b ∈ branches, b.Heedful) (fork : Scope) :
    (split joining branches fork).Heedful :=
  fun _ => ⟨fun _ => Process.heeds_bind.mpr (h _ (List.getElem_mem _) fork), fun _ => ⟨trivial, trivial⟩⟩

end Walk

section Graphs

open Walk

variable {st : Setting} {inner : Inner} (hi : ∀ boundaries id, (inner boundaries id).Heedful)
  (hc : ∀ boundaries id, (inner boundaries id).Calm)

theorem visitMarker_heedful (st : Setting) (n : Node) : (visitMarker st n).Heedful :=
  (Swift.passThrough n).bind fun _ => (advance_ponders _ _).swift.heedful

theorem visitBranch_heedful (n : Node) : (visitBranch n).Heedful := by
  refine (Swift.beginStep n).bind fun step => ?_
  split
  · exact .failStep _ _ _ _
  · exact (firstWhere_ponders (fun _ => holds_ponders _ _) _).swift.bind fun _ => (Swift.finishStep _ _ _ _).bind fun _ => .pure _

theorem passNode_swift (st : Setting) (id : String) : (passNode st id).Swift := by
  unfold passNode
  split
  · exact .passThrough _
  · exact fun _ => trivial

theorem closePass_heedful (e : Edge) : (closePass st e).Heedful :=
  .checkpoint_bind fun _ => (passNode_swift _ _).bind fun _ => (exits_ponders _ _).swift.heedful

/-- Every pass begins with a look for a cancellation. -/
theorem passes_calm (n : Node) (e : Edge) (left i : Nat) : (passes st inner n e left i).Calm := by
  cases left with
  | zero => exact .pure _
  | succ left => exact .checkpoint_bind _

include hi in
theorem passes_heedful (n : Node) (e : Edge) (left i : Nat) : (passes st inner n e left i).Heedful := by
  induction left generalizing i with
  | zero => exact .pure _
  | succ left ih =>
    have more : (passes st inner n e left (i + 1)).Calm := passes_calm _ _ _ _
    have closing : (closePass st e >>= fun exited => if exited then pure false else passes st inner n e left (i + 1)).Heedful :=
      (closePass_heedful e).bind (fun _ => .ite (.pure _) (ih _)) fun _ => .ite (.pure _) more
    refine .checkpoint_bind fun _ => (Swift.modify _).bind fun _ => (successor_ponders _ _).swift.bind fun next => ?_
    cases next with
    | none => exact .pure _
    | some body =>
      refine (hi _ _).bind (fun flow => ?_) fun flow => ?_
      · cases flow with
        | ended => exact .pure _
        | deadEnd => exact ih _
        | boundary id => exact .ite closing (ih _)
      · cases flow with
        | ended => exact .pure _
        | deadEnd => exact more
        | boundary id => exact .ite (.bind (.checkpoint_bind _) fun _ => .ite (.pure _) more) more

include hi in
theorem visitLoop_heedful (n : Node) : (visitLoop st inner n).Heedful := by
  refine (Swift.beginStep n).bind fun step => ?_
  split
  · exact .failStep _ _ _ _
  · have onwards := advance_ponders st
    exact (Swift.finishStep _ _ _ _).bind fun _ => (passes_heedful hi _ _ _ _).bind
      (fun _ => .ite (.pure _) (onwards _).swift.heedful) fun _ => .ite (.pure _) (onwards _).calm

theorem passJoin_heedful (join : Option String) (ended : Bool) : (passJoin st join ended).Heedful := by
  cases join with
  | none => exact .pure _
  | some id => exact (passNode_swift _ _).bind fun _ => (advance_ponders _ _).swift.heedful

theorem closeSplit_heedful (n : Node) (g : Gathered) : (closeSplit st n g).Heedful := by
  refine (Swift.modify _).bind fun _ => ?_
  split
  · exact .throw _
  · exact .checkpoint_bind fun _ => .throw _
  · exact .checkpoint_bind fun _ => passJoin_heedful _ _

/-- A split whose branches are over goes on only if it finds that it is not cancelled. -/
theorem closeSplit_calm (n : Node) (g : Gathered) : (closeSplit st n g).Calm := by
  refine (Calm.modify _).bind fun _ => ?_
  split
  · exact .throw _
  · exact .checkpoint_bind _
  · exact .checkpoint_bind _

theorem openSplit_swift (st : Setting) (n : Node) : (openSplit st n).Swift := by
  refine fun s => heeds_bind.mpr (heeds_beginStep.mpr (heeds_bind.mpr ?_))
  refine ((keepWhere_ponders (opensBranch_ponders n) _ _).mono fun r s' hr => ?_).heeds
  obtain ⟨⟨edges, rfl, -⟩, -⟩ := hr
  exact heeds_bind.mpr (tells_finishStep.mpr trivial).heeds

include hi in
theorem visitSplit_heedful (n : Node) : (visitSplit st inner n).Heedful := by
  refine (openSplit_swift st n).bind fun starts => Ponders.get.swift.bind fun scope => ?_
  refine (Heedful.split _ (fun b hb => ?_) _).bind (closeSplit_heedful n) (closeSplit_calm n)
  obtain ⟨id, -, rfl⟩ := List.mem_map.mp hb
  exact hi _ id

include hi in
theorem visit_heedful (n : Node) : (visit st inner n).Heedful := by
  unfold visit
  split
  · exact (Swift.passThrough n).bind fun _ => .pure _
  · exact visitMarker_heedful st n
  · exact visitMarker_heedful st n
  · exact visitMarker_heedful st n
  · exact visitMarker_heedful st n
  · exact visitBranch_heedful n
  · exact visitLoop_heedful hi n
  · exact visitSplit_heedful hi n
  · exact .of_heeds (visitSkill_heeds st n)
  · exact .of_heeds (visitQuestion_heeds st n)
  · exact .of_heeds (visitQuestion_heeds st n)
  · exact .of_heeds (visitQuestion_heeds st n)

/-- A segment that does not stop at once looks for a cancellation first. -/
theorem segment_calm (st : Setting) (budget : Nat) (boundaries : List String) (id : String) :
    (segment st budget boundaries id).Calm := by
  cases budget <;> unfold segment <;> split <;> first | exact .pure _ | exact .checkpoint_bind _

/-- Every segment heeds cancellations. -/
theorem segment_heedful (st : Setting) (budget : Nat) (boundaries : List String) (id : String) :
    (segment st budget boundaries id).Heedful := by
  induction budget generalizing boundaries id with
  | zero =>
    unfold segment
    split
    · exact .pure _
    · exact .checkpoint_bind fun _ => Swift.mayVisit.bind fun _ => .throw _
  | succ budget ih =>
    unfold segment
    split
    · exact .pure _
    · refine .checkpoint_bind fun _ => Swift.mayVisit.bind fun allowed => ?_
      split
      · split
        · exact .throw _
        · refine (visit_heedful ih _).bind (fun next => ?_) fun next => ?_ <;> cases next
          exacts [ih _ _, .pure _, segment_calm _ _ _ _, .pure _]
      · exact .throw _

/-- A run heeds cancellations. -/
theorem runFrom_heeds (st : Setting) (start : String) (c : Context) :
    (runFrom st start c).Heeds (fun _ => True) (fun _ => True) fun _ _ _ => True := by
  refine Process.heeds_bind.mpr (Process.heeds_bind.mpr (Process.heeds_bind.mpr ?_))
  exact Process.Heeds.mono (segment_heedful st _ [] start { context := c }) (fun _ => id) (fun _ _ => ⟨id, trivial⟩)
    fun _ _ _ _ => ⟨id, trivial⟩

end Graphs

/-! ## Runs -/

/-- A visit of a skill or question node: how its step is closed if it is cancelled. -/
theorem visit_closes (st : Setting) (inner : Inner) {n : Node} (hk : n.kind = .skill ∨ n.kind.isInteraction = true) (u : Scope) :
    (visit st inner n).Heeds u (fun _ _ => True) (CutShort u n) fun k o r u' => CutShort u n r u' ∨ ClosedByAnswer u n k o u' := by
  unfold visit
  split
  case h_9 => exact visitSkill_heeds st n u
  case h_10 | h_11 | h_12 => exact visitQuestion_heeds st n u
  all_goals simp_all [NodeKind.isInteraction]

/-- At every moment at which the strands of a run rest: nothing begins any more in any branch if the
    run is cancelled then, or during an answer that comes then, and it does end; nor does anything
    begin in a split that a branch has won, until its branches are gathered. When that happens
    during the visit of a skill or question, in whichever scope, its step is closed by its answer if
    there was one, and otherwise skipped as cancelled, off the path and without binding anything. -/
theorem nothing_begins_once_cancelled (s : Setting) (c : Context) :
    (∀ {p w acts t w₁}, run s c = .ok p → Course s.config.maxVisits false (.at p) w acts t w₁ → t.AtRest →
      (w₁.cancelled = true → t.Subsides s.config.maxVisits false w₁ fun _ => True) ∧
      (∀ {act t' w₂ k l outcome cancels}, Move s.config.maxVisits false t w₁ act t' w₂ →
        act.core = .answered k l (.given outcome) cancels → w₂.cancelled = true →
        t'.Subsides s.config.maxVisits false w₂ fun _ => True) ∧
      ∀ {path acts' t' w₂}, t.WonAt path → Course s.config.maxVisits false t w₁ acts' t' w₂ →
        (∀ act ∈ acts', ∀ g, act.under path ≠ some (.gathered g)) →
        ∀ act ∈ acts', ∀ a, act.under path = some a → ¬a.Begins) ∧
    ∀ {inner : Inner} {n : Node} {u : Scope} {limit b w acts t w₁}, n.kind = .skill ∨ n.kind.isInteraction = true →
      Course limit b (.at ((visit s inner n).process u)) w acts t w₁ → t.Waits →
      (∀ b', (b' || w₁.cancelled) = true → t.Subsides limit b' w₁ fun e => CutShort u n e.1 e.2) ∧
      ∀ {act t' w₂ k l outcome cancels b'}, Move limit b t w₁ act t' w₂ →
        act.core = .answered k l (.given outcome) cancels → (b' || w₂.cancelled) = true →
        t'.Subsides limit b' w₂ fun e => CutShort u n e.1 e.2 ∨ ClosedByAnswer u n k outcome e.2 := by
  refine ⟨fun {p w acts t w₁} hr h hrest => ?_, fun {inner n u limit b w acts t w₁} hk h hw => ?_⟩
  · obtain ⟨start, rfl⟩ := run_eq hr
    have heeds : t.Heeds _ _ _ := h.heeds (s := .at _) (runFrom_heeds s start c)
    refine ⟨fun hc => (heeds.unwinds hrest fun _ => id).subsides hc, fun {act t' w₂ k l outcome cancels} hm ha hc => ?_,
      fun hwon h' hg => h'.subsides (hwon.subsides hrest heeds) hg⟩
    have after : t'.Subsides _ false w₂ _ := hm.subsides_after ha hrest heeds hc
    exact ⟨after.quiet, after.ends, fun _ => trivial⟩
  · have heeds : t.Heeds _ _ _ := h.heeds (s := .at _) (visit_closes s inner hk u)
    refine ⟨fun b' hc => (hw.unwinds heeds).subsides hc, fun hm ha hc => ?_⟩
    obtain ⟨quiet, ends, outcome⟩ := hm.subsides_after ha hw.atRest heeds hc
    refine ⟨quiet, ends, fun h => (outcome h).elim .inl id⟩

/-- Nobody has answered the skills of the rivals yet. -/
def unanswered : Stage Rehearsal.Memory where
  memory :=
    { script :=
        { Rehearsal.Script.simulated with
          skills := ["slow", "quick"].map fun skill => (skill, [{ hangs := true, content := .echo }]) } }

/-- Whether an activity waits for the answer to a call. -/
def Activity.isCalling : Activity α → Bool
  | .calling .. => true
  | _ => false

/-- Whether two branches race of which the second waits for an answer, and wins once it has one. -/
def Activity.isRace (st : Stage Rehearsal.Memory) : Activity Outcome → Bool
  | .group _ .first _ [_, .calling _ _ _ _ next] _ =>
    let r := (next (.given (.ok .null))).perform Rehearsal.collaborators rivals.config.maxVisits false st
    r.1.outcome?.any fun o => statusOf o.ending = .completed
  | _ => false

/-- The rivals wait, and whoever has its answer first wins. -/
theorem rivals_wait : ∃ p acts branches next w k l next₁ acts' o w', run rivals {} = .ok p ∧
    Course rivals.config.maxVisits false (.at p) {} acts (.fork .first 2 branches none next) w ∧ w.cancelled = false ∧
    (∀ i, (branches i).AtRest) ∧ branches 1 = .calling k l next₁ ∧
    Course rivals.config.maxVisits false (.at (next₁ (.given (.ok .null)))) w acts' (.finished o) w' ∧
    elect .first none 1 o = some 1 := by
  have shown : (run rivals {}).toOption.map (fun p =>
      let r := p.perform Rehearsal.collaborators rivals.config.maxVisits false unanswered
      (r.1.isRace r.2, r.2.cancelled)) = some (true, false) := by
    decide +kernel
  obtain ⟨p, hp, hshown⟩ := Option.map_eq_some_iff.mp shown
  obtain ⟨race, calm⟩ := Prod.mk.inj hshown
  obtain ⟨acts, t, hcourse, ht⟩ := p.reaches (c := Rehearsal.collaborators) false unanswered
  generalize p.perform Rehearsal.collaborators rivals.config.maxVisits false unanswered = r at race calm hcourse ht
  obtain ⟨a, st⟩ := r
  cases ht with
  | @group _ _ joining _ count branches standings next hstands _ _ _ =>
    dsimp only [Activity.isRace] at race
    split at race
    next first _ _ _ _ next₁ _ heq =>
      obtain ⟨-, rfl, -, hbranches, rfl⟩ := Activity.group.inj heq
      obtain rfl : count = 2 := by simpa using congrArg List.length hbranches
      have second : (Activity.calling _ _ _ _ next₁).Stands (standings 1) :=
        (List.cons.inj (List.cons.inj hbranches).2).1 ▸ hstands 1
      generalize hs : standings 1 = s at second
      cases second with
      | @calling _ _ _ _ _ k l _ _ =>
        have answered : Reaches rivals.config.maxVisits false _ st _ :=
          (next₁ (.given (.ok .null))).reaches (c := Rehearsal.collaborators) false st
        obtain ⟨acts', u, hcourse', hu⟩ := answered
        generalize (next₁ (.given (.ok .null))).perform Rehearsal.collaborators rivals.config.maxVisits false st = r at race hcourse' hu
        obtain ⟨a, st'⟩ := r
        cases hu with
        | done o =>
          refine ⟨p, acts, standings, next, _, k, l, next₁, acts', o, _, ok_of_toOption hp, hcourse, calm, ?_, hs, hcourse', ?_⟩
          · exact fun i => (hstands i).atRest
          · obtain ⟨halt | flow, scope⟩ := o
            · cases halt <;> cases race
            · rfl
        | _ => cases race
    next => cases race
  | _ => cases race

theorem slow_waits : ∃ acts k l next w, Course rivals.config.maxVisits false
    (.at ((visit rivals (fun _ _ => pure .ended) (.skill "a" "slow")).process {})) {} acts (.calling k l next) w ∧
    w.cancelled = false := by
  let p := (visit rivals (fun _ _ => pure .ended) (.skill "a" "slow")).process {}
  have shown : let r := p.perform Rehearsal.collaborators rivals.config.maxVisits false unanswered
      r.1.isCalling = true ∧ r.2.cancelled = false := by
    decide +kernel
  obtain ⟨hcalling, calm⟩ := shown
  obtain ⟨acts, t, hcourse, ht⟩ := p.reaches (c := Rehearsal.collaborators) false unanswered
  generalize p.perform Rehearsal.collaborators rivals.config.maxVisits false unanswered = r at hcalling calm hcourse ht
  obtain ⟨a, st⟩ := r
  cases ht with
  | @calling _ _ _ _ _ k l next _ => exact ⟨acts, k, l, next, _, hcourse, calm⟩
  | _ => cases hcalling

/-- The rivals begin nothing more once the run is cancelled, be it while both wait or during the
    answer to the second, and the first begins nothing more once the second has won. If the run is
    cancelled, the step of the first is cut short, or closed by its answer. -/
theorem rivals_begin_nothing_once_cancelled :
    (∃ p, run rivals {} = .ok p ∧
      (∃ acts t w, Course rivals.config.maxVisits false (.at p) {} acts t w ∧ w.cancelled = true ∧
        t.Subsides rivals.config.maxVisits false w fun _ => True) ∧
      (∃ acts t w act t' w', Course rivals.config.maxVisits false (.at p) {} acts t w ∧ w.cancelled = false ∧
        Move rivals.config.maxVisits false t w act t' w' ∧ act.cancels = true ∧
        t'.Subsides rivals.config.maxVisits false w' fun _ => True) ∧
      ∃ acts t w, Course rivals.config.maxVisits false (.at p) {} acts t w ∧ t.WonAt [] ∧
        ∀ acts' t' w', Course rivals.config.maxVisits false t w acts' t' w' → (∀ act ∈ acts', ∀ g, act ≠ .gathered g) →
          ∀ act ∈ acts', ¬act.Begins) ∧
    ∃ acts k l next w, Course rivals.config.maxVisits false
        (.at ((visit rivals (fun _ _ => pure .ended) (.skill "a" "slow")).process {})) {} acts (.calling k l next) w ∧
      w.cancelled = false ∧
      (Standing.calling k l next).Subsides rivals.config.maxVisits true w
        (fun e => CutShort {} (.skill "a" "slow") e.1 e.2) ∧
      ∃ w', Move rivals.config.maxVisits false (.calling k l next) w (.answered k l (.given (.ok .null)) true)
          (.at (next (.given (.ok .null)))) w' ∧
        (Standing.at (next (.given (.ok .null)))).Subsides rivals.config.maxVisits false w'
          fun e => CutShort {} (.skill "a" "slow") e.1 e.2 ∨ ClosedByAnswer {} (.skill "a" "slow") k (.ok .null) e.2 := by
  obtain ⟨atRest, closes⟩ := nothing_begins_once_cancelled rivals {}
  constructor
  · obtain ⟨p, acts, branches, next, w, k, l, next₁, acts', o, w', hrun, hcourse, calm, rest, hs, hanswer, hwon⟩ := rivals_wait
    have answer (cancels : Bool) : Move rivals.config.maxVisits false (branches 1) w
        (.answered k l (.given (.ok .null)) cancels) (.at (next₁ (.given (.ok .null)))) { w with cancelled := w.cancelled || cancels } :=
      hs ▸ .answer k l next₁ (.ok .null) cancels (by rw [calm]; rfl)
    refine ⟨p, hrun, ?_, ?_, ?_⟩
    · have cancelled := hcourse.trans (.elsewhere 0 true .stay)
      exact ⟨_, _, _, cancelled, Bool.or_true _, (atRest hrun cancelled rest).1 (Bool.or_true _)⟩
    · have during : Move rivals.config.maxVisits false (.fork .first 2 branches none next) w _ _ _ := .branch 1 (answer true)
      exact ⟨_, _, _, _, _, _, hcourse, calm, during, rfl, (atRest hrun hcourse rest).2.1 during rfl (Bool.or_true _)⟩
    · have wins : Course rivals.config.maxVisits false (branches 1) w _ (.finished o) w' :=
        .move (by simpa using answer false) hanswer
      have won := hcourse.trans (.lift (b := false) 1 wins fun o ho => by rw [hs] at ho; cases ho)
      have first : Standing.WonAt []
          (.fork .first 2 (Function.update branches 1 (.finished o)) (elect .first none 1 o) next) := by
        show (elect .first none 1 o).isSome = true
        rw [hwon]
        rfl
      have rested (i : Fin 2) : (Function.update branches 1 (.finished o) i).AtRest := by
        by_cases e : i = 1
        · rw [e, Function.update_self]
          trivial
        · rw [Function.update_of_ne e]
          exact rest i
      refine ⟨_, _, _, won, first, fun acts' t' w' h hg act ha => ?_⟩
      exact (atRest hrun won rested).2.2 first h (fun act ha g he => hg act ha g (Option.some.inj he)) act ha act rfl
  · obtain ⟨acts, k, l, next, w, hcourse, calm⟩ := slow_waits
    obtain ⟨cut, answered⟩ := closes (.inl rfl) hcourse trivial
    have during : Move rivals.config.maxVisits false (.calling k l next) w (.answered k l (.given (.ok .null)) true) _ _ :=
      .answer k l next (.ok .null) true (by rw [calm]; rfl)
    have closed : Standing.Subsides _ false _ _ _ := answered during rfl (Bool.or_true _)
    exact ⟨acts, k, l, next, w, hcourse, calm, cut true rfl, _, during, closed⟩

end Capability.Execution
