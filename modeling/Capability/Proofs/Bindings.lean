/-
  Capability.Proofs.Bindings — what the visit of a skill or of a question does to the variables.

  The value that completes a visit is bound to the result variable of the node and to the outputs
  it declares. A visit that ends otherwise binds nothing, whatever was answered on the way.

  (1) `Context.get?_apply`, `Context.mem_written_apply`: what several writes leave as it is.
  (2) `handleFailure_keeps`: a node that failed for good leaves the variables alone.
  (3) `visit_binds`: either nothing is bound, or the value of an answer to the node is.
  (4) `only_completed_visits_bind`: so it is at the end of every course of a visit.
-/

import Capability.Proofs.Cancellation
import Capability.Proofs.Failures

namespace Capability

/-! ## Writes -/

namespace Context

variable {c : Context} {key : String}

/-- Writes to other variables leave a variable as it is. -/
theorem get?_apply (updates : Keyed Json) (h : key ∉ updates.keys) : (c.apply updates).get? key = c.get? key := by
  induction updates generalizing c with
  | nil => rfl
  | cons p updates ih =>
    obtain ⟨hp, hu⟩ := not_or.mp (fun hm => h (List.mem_cons.mpr hm))
    show ((c.set p.1 p.2).apply updates).get? key = c.get? key
    rw [ih hu, lookup_set, if_neg hp]

theorem mem_written_apply (updates : Keyed Json) :
    key ∈ (c.apply updates).written ↔ key ∈ updates.keys ∨ key ∈ c.written := by
  induction updates generalizing c with
  | nil => simp [apply, Keyed.keys]
  | cons p updates ih =>
    show key ∈ ((c.set p.1 p.2).apply updates).written ↔ _
    rw [ih, mem_written_set]
    simp only [Keyed.keys, List.map_cons, List.mem_cons]
    tauto

/-- What writes make of the variables depends on nothing but the variables. -/
theorem apply_congr {d : Context} (hv : c.vars = d.vars) (hw : c.written = d.written) (updates : Keyed Json) :
    (c.apply updates).vars = (d.apply updates).vars ∧ (c.apply updates).written = (d.apply updates).written := by
  induction updates generalizing c d with
  | nil => exact ⟨hv, hw⟩
  | cons p updates ih => exact ih (by simp only [set, hv]) (by simp only [set, hw])

end Context

namespace Execution

/-! ## Bindings -/

/-- The outputs a visit of a node binds besides its result. -/
def outputVariables (n : Node) : List String :=
  match n.kind with
  | .skill => n.outputs
  | _ => []

/-- What a value that completes a visit of a node is bound to. -/
def bindings (n : Node) (value : Json) : Keyed Json :=
  (resultVariable n, value) :: (outputVariables n).map fun name => (name, outputOf value name)

@[simp] theorem keys_bindings (n : Node) (value : Json) :
    (bindings n value).keys = resultVariable n :: outputVariables n := by
  simp [bindings, Keyed.keys, Function.comp_def]

theorem bindOutputs_context {n : Node} (hk : n.kind = .skill) (value : Json) (s : Scope) :
    (bindOutputs n value s).context = s.context.apply (bindings n value) := by
  have fold : ∀ (names : List String) (s : Scope),
      (names.foldl (fun scope name => scope.set name (outputOf value name)) s).context =
        s.context.apply (names.map fun name => (name, outputOf value name)) := by
    intro names
    induction names with
    | nil => exact fun _ => rfl
    | cons name names ih => exact fun s => ih (s.set name (outputOf value name))
  have names : outputVariables n = n.outputs := by simp only [outputVariables, hk]
  rw [bindings, names]
  exact fold n.outputs (s.set (resultVariable n) value)

/-- A visit closed its step as failed or skipped and left the variables as they were. -/
structure Kept (u : Scope) (n : Node) (u' : Scope) : Prop where
  step : ∃ e : Step, u'.context.history = u.context.history ++ [e] ∧ e.node = n.id ∧
    (e.status = .failed ∨ e.status = .skipped)
  vars : u'.context.vars = u.context.vars
  written : u'.context.written = u.context.written

/-- A visit completed its step with a value and bound that. -/
structure Completed (u : Scope) (n : Node) (value : Json) (u' : Scope) : Prop where
  step : ∃ e : Step, u'.context.history = u.context.history ++ [e] ∧ e.node = n.id ∧
    e.status = .completed ∧ e.result = some value
  vars : u'.context.vars = (u.context.apply (bindings n value)).vars
  written : u'.context.written = (u.context.apply (bindings n value)).written

/-- The value was answered to an attempt at the skill of a node, or to its question. -/
def Gave (R : Replies) (n : Node) (value : Json) : Prop :=
  ∃ k l, R k l (.given (.ok value)) ∧
    ((∃ i, n.kind = .skill ∧ k = .skill i ∧ i.node = n.id) ∨
      ∃ kind vars, InteractionKind.ofNode? n.kind = some kind ∧ k = .question (questionOf n kind vars))

/-- A call comes to a value only if it was answered with it. -/
theorem answer_of_outcome {a : Answer} {node : String} {l : Option Duration} {value : Json}
    (h : a.outcome node l = .ok value) : a = .given (.ok value) := by
  cases a with
  | given outcome => exact congrArg Answer.given h
  | timedOut | cancelled => cases h

/-- What a visit of a skill or a question comes to. -/
def Binds (R : Replies) (u : Scope) (n : Node) (u' : Scope) : Prop :=
  Kept u n u' ∨ ∃ value, Gave R n value ∧ Completed u n value u'

section Steps

variable {J : Joining → Prop} {R : Replies} {E : Outcome → Prop} {st : Setting} {n : Node} {u t : Scope} {fault : Fault}

theorem Open.kept (h : Open u n t) {status : StepStatus} (hs : status = .failed ∨ status = .skipped) (report : StepReport) :
    Kept u n (t.finishStep (u.nextStep n.id) status report) := by
  obtain ⟨e, hn, hh⟩ := h.during.history_finish status report
  exact ⟨⟨_, hh, hn, hs⟩, h.vars, h.written⟩

theorem Open.kept_cancelled (h : Open u n t) : Kept u n (t.cancelStep (u.nextStep n.id)) := by
  obtain ⟨e, hn, hh⟩ := h.during.history_cancel
  exact ⟨⟨_, hh, hn, .inr rfl⟩, h.vars, h.written⟩

/-- A step that is open is completed once its value is bound. -/
theorem Open.completed (h : Open u n t) {t' : Scope} {value : Json}
    (hd : Scope.During (u.nextStep n.id) (u.beginStep n.id) t') (hc : t'.context = t.context.apply (bindings n value))
    (report : StepReport) (hr : report.result = some value) :
    Completed u n value (t'.finishStep (u.nextStep n.id) .completed report) := by
  obtain ⟨e, hn, hh⟩ := hd.history_finish .completed report
  obtain ⟨vars, written⟩ := Context.apply_congr h.vars h.written (bindings n value)
  exact ⟨⟨_, hh, hn, rfl, hr⟩, (congrArg Context.vars hc).trans vars, (congrArg Context.written hc).trans written⟩

/-! ## Failures -/

/-- While it is asked whether to skip a node, nothing is bound. -/
theorem skips_opens (h : Open u n t) :
    (skips st n (u.nextStep n.id) fault).Ensures J t fun r t' =>
      match r with
      | .ok _ => Open u n t'
      | .error _ => Kept u n t' := by
  unfold skips
  split
  · exact h
  · exact h
  · exact h
  · simp only [Walk.ensures_bind, Walk.ensures_modify, Walk.ensures_emit]
    refine (call_notes _ _ _).ensures fun outcome fs => ?_
    have still := h.awaitStep.noting fs
    cases outcome with
    | ok value => exact still
    | error f =>
      cases f with
      | cancelled => exact Walk.ensures_cancelStep.mpr still.kept_cancelled
      | _ => exact still

/-- A node that failed for good leaves the variables alone, also those of its triggers. -/
theorem handleFailure_keeps (h : Open u n t) (retries : Nat) :
    (handleFailure st n (u.nextStep n.id) fault retries).Ensures J t fun _ => Kept u n := by
  unfold handleFailure
  simp only [Walk.ensures_bind, Walk.ensures_get]
  refine (Walk.firstWhere_notes (triggers_notes _ n) _).ensures fun reroute fs => ?_
  have still := h.noting fs
  cases reroute with
  | some e =>
    simp only [Walk.ensures_bind, Walk.ensures_emit, Walk.ensures_finishStep, Walk.ensures_pure]
    exact still.kept (.inl rfl) _
  | none =>
    refine Walk.ensures_bind.mpr ((skips_opens still).mono fun r t' hr => ?_)
    cases r with
    | error halt => exact hr
    | ok skipped =>
      cases skipped with
      | true =>
        simp only [if_true, Walk.ensures_bind, Walk.ensures_finishStep]
        have kept := hr.kept (.inr rfl) { error := some fault.message, retryCount := retries }
        exact (advance_notes st n.id).ensures fun _ gs => ⟨kept.step, kept.vars, kept.written⟩
      | false =>
        simp only [Bool.false_eq_true, if_false, Walk.ensures_failStep]
        exact hr.kept (.inl rfl) _

/-! ## Visits -/

/-- What comes of a skill node is the value of an answer to one of its attempts. -/
theorem recover_gives (hk : n.kind = .skill) (skill : String) :
    (recover st n skill).Finds R fun r => ∀ value implementation, r.outcome = .ok (value, implementation) → Gave R n value := by
  have gives : (recover st n skill).Finds R fun r => ∀ value, r.outcome.map Prod.fst = .ok value → Gave R n value := by
    refine recover_finds (P := fun outcome => ∀ value, outcome = .ok value → Gave R n value) nofun ?_ skill
    intro i l a hn ha value hv
    obtain rfl := answer_of_outcome hv
    exact ⟨.skill i, l, ha, .inl ⟨i, hk, rfl, hn⟩⟩
  exact gives.mono fun r hr value implementation he => hr value (by rw [he]; rfl)

theorem visitSkill_binds (hk : n.kind = .skill) : (visitSkill st n).Secures R E u fun _ => Binds R u n := by
  unfold visitSkill
  simp only [Walk.secures_bind, Walk.secures_beginStep]
  have opened := Open.start u n
  split
  · exact Walk.secures_failStep.mpr (.inl (opened.kept (.inl rfl) _))
  · refine (recover_gives hk _).secures_bind fun r fs gives => ?_
    have still := opened.noting fs
    split
    · next value implementation he =>
      simp only [Walk.secures_bind, Walk.secures_modify, Walk.secures_finishStep]
      have bound := still.completed (bindOutputs_during still.during n value) (bindOutputs_context hk value _)
        { result := some value, fallbackUsed := implementation.isSome, retryCount := r.retries } rfl
      refine (advance_notes st n.id).finds.secures fun _ gs _ => .inr ⟨value, gives _ _ he, ?_⟩
      exact ⟨bound.step, bound.vars, bound.written⟩
    · exact Walk.secures_cancelStep.mpr (.inl still.kept_cancelled)
    · exact (handleFailure_keeps still _).secures.mono fun _ _ => .inl

theorem visitQuestion_binds (hk : n.kind.isInteraction = true) : (visitQuestion st n).Secures R E u fun _ => Binds R u n := by
  have names : outputVariables n = [] := by
    cases h : n.kind <;> rw [h] at hk <;> simp_all [outputVariables, NodeKind.isInteraction]
  unfold visitQuestion
  simp only [Walk.secures_bind, Walk.secures_beginStep]
  have opened := Open.start u n
  split
  · exact Walk.secures_failStep.mpr (.inl (opened.kept (.inl rfl) _))
  · next kind hkind =>
    simp only [Walk.secures_bind, Walk.secures_modify, Walk.secures_get, Walk.secures_emit]
    refine (Walk.Finds.call _ _ _).secures fun outcome fs answered => ?_
    obtain ⟨a, ha, rfl⟩ := answered
    have still := opened.awaitStep.noting fs
    dsimp only
    split
    · next value hv =>
      simp only [Walk.secures_bind, Walk.secures_modify, Walk.secures_finishStep]
      have single : bindings n value = [(resultVariable n, value)] := by rw [bindings, names]; rfl
      have bound := still.completed (still.during.set (resultVariable n) value) (by rw [single]; rfl) { result := some value } rfl
      have gives : Gave R n value := by
        obtain rfl := answer_of_outcome hv
        exact ⟨_, _, ha, .inr ⟨kind, _, hkind, rfl⟩⟩
      refine (advance_notes st n.id).finds.secures fun _ gs _ => .inr ⟨value, gives, ?_⟩
      exact ⟨bound.step, bound.vars, bound.written⟩
    · exact Walk.secures_cancelStep.mpr (.inl still.kept_cancelled)
    · exact (handleFailure_keeps still _).secures.mono fun _ _ => .inl

/-- A visit of a skill or a question binds nothing, or the value of an answer to the node. -/
theorem visit_binds (inner : Inner) (hk : n.kind = .skill ∨ n.kind.isInteraction = true) :
    (visit st inner n).Secures R E u fun _ => Binds R u n := by
  unfold visit
  split
  case h_9 h => exact visitSkill_binds h
  case h_10 h | h_11 h | h_12 h => exact visitQuestion_binds (by rw [h]; rfl)
  all_goals simp_all [NodeKind.isInteraction]

end Steps

/-! ## Courses -/

/-- The visit of a skill or of a question, whoever answers whatever and whenever it is cancelled,
    adds one step. Unless that is completed, the variables and what was written of them are as they
    were before. If it is completed, its value was answered to the node and is bound, and no other
    variable than the result and the declared outputs of the node is written. -/
theorem only_completed_visits_bind {s : Setting} {inner : Inner} {n : Node}
    (hk : n.kind = .skill ∨ n.kind.isInteraction = true) {limit : Nat} {b : Bool} {w w' : Shared} {acts : List Act}
    {r : Except Halt Next} {u u' : Scope}
    (h : Course limit b (.at ((visit s inner n).process u)) w acts (.finished (r, u')) w') :
    ∃ e : Step, u'.context.history = u.context.history ++ [e] ∧ e.node = n.id ∧
      (((e.status = .failed ∨ e.status = .skipped) ∧ u'.context.vars = u.context.vars ∧
          u'.context.written = u.context.written) ∨
        (e.status = .completed ∧ ∃ value, e.result = some value ∧ Gave (given acts) n value ∧
          u'.context.vars = (u.context.apply (bindings n value)).vars ∧
          (∀ key, key ≠ resultVariable n → key ∉ outputVariables n → u'.context.get? key = u.context.get? key) ∧
          ∀ key, key ∈ u'.context.written ↔
            key = resultVariable n ∨ key ∈ outputVariables n ∨ key ∈ u.context.written)) := by
  have binds : Binds (given acts) u n u' :=
    h.secured (E := fun _ => True) (given_keeps acts) (visit_binds inner hk)
  rcases binds with kept | ⟨value, gave, completed⟩
  · obtain ⟨e, hh, hn, hs⟩ := kept.step
    exact ⟨e, hh, hn, .inl ⟨hs, kept.vars, kept.written⟩⟩
  · obtain ⟨e, hh, hn, hs, hr⟩ := completed.step
    refine ⟨e, hh, hn, .inr ⟨hs, value, hr, gave, completed.vars, ?_, ?_⟩⟩
    · intro key hres hout
      have unbound : key ∉ (bindings n value).keys := by simp [hres, hout]
      show u'.context.vars.lookup key = u.context.get? key
      rw [completed.vars]
      exact Context.get?_apply _ unbound
    · intro key
      rw [completed.written, Context.mem_written_apply, keys_bindings, List.mem_cons, or_assoc]

/-- Where a variable was bound before, the visit of the risky node leaves it at that if the node
    fails, and adds the result if it does not. -/
theorem the_risky_node_binds_unless_it_fails :
    let u : Scope := { context := { vars := [("tide", .str "low")] } }
    let risky := (visit guarded (fun _ _ => pure .ended) (.skill "risky" "drill")).process u
    (∃ acts r u' w', Course guarded.config.maxVisits false (.at risky) {} acts (.finished (r, u')) w' ∧
      u'.context.history.map (·.status) = [.failed] ∧ u'.context.vars = u.context.vars ∧ u'.context.written = []) ∧
    ∃ acts r u' w' value, Course guarded.config.maxVisits false (.at risky) {} acts (.finished (r, u')) w' ∧
      u'.context.history.map (·.status) = [.completed] ∧
      u'.context.get? "risky_result" = some value ∧ u'.context.get? "tide" = some (.str "low") := by
  intro u risky
  have ends (skills : List String) (status : StepStatus)
      (shown : ((risky.perform Rehearsal.collaborators guarded.config.maxVisits false
        { memory := { script := failing skills } }).1.outcome?.map fun p => p.2.context.history.map (·.status)) = some [status]) :
      ∃ acts r u' w', Course guarded.config.maxVisits false (.at risky) {} acts (.finished (r, u')) w' ∧
        u'.context.history.map (·.status) = [status] := by
    obtain ⟨⟨r, u'⟩, hp, hs⟩ := Option.map_eq_some_iff.mp shown
    obtain ⟨acts, w', hc⟩ := Process.course_of_perform hp
    exact ⟨acts, r, u', w', hc, hs⟩
  constructor
  · obtain ⟨acts, r, u', w', hc, hs⟩ := ends ["drill"] .failed (by decide +kernel)
    obtain ⟨e, hh, -, ⟨-, vars, written⟩ | ⟨completed, -⟩⟩ := only_completed_visits_bind (.inl rfl) hc
    · exact ⟨acts, r, u', w', hc, hs, vars, written⟩
    · rw [hh] at hs
      cases (List.cons.inj hs).1.symm.trans completed
  · obtain ⟨acts, r, u', w', hc, hs⟩ := ends [] .completed (by decide +kernel)
    obtain ⟨e, hh, -, ⟨unfinished, -⟩ | ⟨-, value, -, -, vars, kept, -⟩⟩ := only_completed_visits_bind (.inl rfl) hc
    · rw [hh] at hs
      have completed : e.status = .completed := (List.cons.inj hs).1
      rw [completed] at unfinished
      rcases unfinished with hf | hf <;> cases hf
    · refine ⟨acts, r, u', w', value, hc, hs, ?_, ?_⟩
      · show u'.context.vars.lookup "risky_result" = some value
        have name : resultVariable (.skill "risky" "drill") = "risky_result" := by decide
        have bound (c : Context) : (c.apply (bindings (.skill "risky" "drill") value)).get? "risky_result" = some value := by
          simp [bindings, outputVariables, Node.skill, Context.apply, Context.lookup_set, ← name]
        rw [vars]
        exact bound u.context
      · exact kept "tide" (by decide) (by decide)

end Execution

end Capability
