/-
  Capability.Proofs.Records — how many steps what a strand does on its own account adds.

  Only segments dispatch nodes, and only loops and splits walk through segments. All else that a
  strand does is plain: it asks for no dispatch and does not split. It counts no pass, and the steps
  that it adds are those that it begins, whether they are finished or broken off.

  (1) `Walk.Records`: walks that are plain and add a number of steps.
  (2) `visit_records`: a node that is neither a loop nor a split adds one step.
  (3) `openSplit_records`, `closeSplit_records`, `closePass_records`: what splits and loops add of their own.
-/

import Capability.Proofs.Cancellation
import Capability.Proofs.Dispatches

namespace Capability

/-- Some steps were added to a scope, and no pass was counted. -/
structure Scope.Adds (added : Nat) (s s' : Scope) : Prop where
  steps : s'.context.history.length = s.context.history.length + added
  iterations : s'.trace.counters.iterations = s.trace.counters.iterations

namespace Scope.Adds

variable {s s' t : Scope}

theorem refl (s : Scope) : s.Adds 0 s := ⟨rfl, rfl⟩

theorem trans {i j : Nat} (h : s.Adds i s') (h' : s'.Adds j t) : s.Adds (i + j) t :=
  ⟨by rw [h'.steps, h.steps, Nat.add_assoc], h'.iterations.trans h.iterations⟩

theorem noting (s : Scope) (fs : List ConditionFailure) : s.Adds 0 (s.noting fs) := ⟨rfl, rfl⟩

theorem set (s : Scope) (key : String) (value : Json) : s.Adds 0 (s.set key value) := ⟨rfl, rfl⟩

theorem beginStep (s : Scope) (node : String) : s.Adds 1 (s.beginStep node) := ⟨by simp [Scope.beginStep, Context.push], rfl⟩

theorem awaitStep (s : Scope) (step : OpenStep) : s.Adds 0 (s.awaitStep step) :=
  ⟨by simp [Scope.awaitStep, Context.modifyStep], rfl⟩

theorem finishStep (s : Scope) (step : OpenStep) (status : StepStatus) (report : StepReport) :
    s.Adds 0 (s.finishStep step status report) := by
  refine ⟨by simp [Scope.finishStep, Scope.closeStep, Context.modifyStep], ?_⟩
  cases status <;> rfl

theorem cancelStep (s : Scope) (step : OpenStep) : s.Adds 0 (s.cancelStep step) :=
  ⟨by simp [Scope.cancelStep, Scope.closeStep, Context.modifyStep], rfl⟩

end Scope.Adds

namespace Execution

variable {α β : Type}

/-! ## Plain processes -/

/-- The process asks for no dispatch and does not split. It ends with something that satisfies
    `Q`. -/
def Process.Plain : {α : Type} → Process α → (α → Prop) → Prop
  | _, .done a, Q => Q a
  | _, .ask q next, Q => q ≠ .visit ∧ ∀ r, (next r).Plain Q
  | _, .split _ _ _ _, _ => False

namespace Process.Plain

variable {Q Q' : α → Prop}

theorem mono {p : Process α} (h : p.Plain Q) (hQ : ∀ a, Q a → Q' a) : p.Plain Q' := by
  induction p with
  | done a => exact hQ a h
  | ask q next ih => exact ⟨h.1, fun r => ih r (h.2 r) hQ⟩
  | split joining count branch next _ _ => exact h

theorem bind_iff {p : Process α} {f : α → Process β} {Q : β → Prop} : (p.bind f).Plain Q ↔ p.Plain fun a => (f a).Plain Q := by
  induction p with
  | done a => rfl
  | ask q next ih => exact and_congr_right fun _ => forall_congr' fun r => ih r
  | split joining count branch next _ _ => rfl

theorem of_tells {p : Process α} (h : p.Tells Q) : p.Plain Q := by
  induction p with
  | done a => exact h
  | ask q next ih =>
    cases q with
    | notify n => exact ⟨nofun, fun _ => ih () h.2⟩
    | _ => exact h.elim
  | split joining count branch next _ _ => exact h.elim

/-- A plain process comes to its end without a dispatch. -/
theorem comes {p : Process α} (h : p.Plain Q) {R : Replies} {t : Toll} {a : α} (hc : p.Comes R t a) : t = 0 ∧ Q a := by
  induction hc with
  | done a => exact ⟨rfl, h⟩
  | @ask _ q next t a r _ _ ih =>
    obtain ⟨rfl, hQ⟩ := ih (h.2 r)
    cases q with
    | visit => exact absurd rfl h.1
    | _ => exact ⟨rfl, hQ⟩
  | split => exact h.elim

end Process.Plain

namespace Walk

variable {s : Scope}

/-- The walk from a scope asks for no dispatch, does not split, and comes to something that
    satisfies `Q`. -/
def Plain (w : Walk α) (s : Scope) (Q : Except Halt α → Scope → Prop) : Prop := (w.process s).Plain fun p => Q p.1 p.2

theorem Plain.mono {w : Walk α} {Q Q' : Except Halt α → Scope → Prop} (h : w.Plain s Q) (hQ : ∀ r s', Q r s' → Q' r s') :
    w.Plain s Q' :=
  Process.Plain.mono h fun p => hQ p.1 p.2

theorem plain_bind {w : Walk α} {f : α → Walk β} {Q : Except Halt β → Scope → Prop} :
    (w >>= f).Plain s Q ↔ w.Plain s fun r s' =>
      match r with
      | .ok a => (f a).Plain s' Q
      | .error h => Q (.error h) s' := by
  unfold Plain
  rw [process_bind, Process.Plain.bind_iff]
  constructor <;> intro h <;> refine h.mono fun p hp => ?_ <;> obtain ⟨_ | _, _⟩ := p <;> exact hp

theorem Tells.plain {w : Walk α} {Q : Except Halt α → Scope → Prop} (h : w.Tells s Q) : w.Plain s Q :=
  Process.Plain.of_tells h

theorem plain_beginStep {n : Node} {Q : Except Halt OpenStep → Scope → Prop} :
    (beginStep n).Plain s Q ↔ Q (.ok (s.nextStep n.id)) (s.beginStep n.id) :=
  ⟨fun h => (h.2 ()).2 (), fun h => ⟨nofun, fun _ => ⟨nofun, fun _ => h⟩⟩⟩

/-- At a checkpoint a walk goes on or is cancelled. -/
theorem plain_checkpoint {Q : Except Halt Unit → Scope → Prop} :
    checkpoint.Plain s Q ↔ Q (.ok ()) s ∧ Q (.error .cancelled) s := by
  refine ⟨fun h => ⟨h.2 false, h.2 true⟩, fun h => ⟨nofun, fun stopped => ?_⟩⟩
  cases stopped with
  | false => exact h.1
  | true => exact h.2

/-- The walk is plain and adds a number of steps, even if it is broken off. -/
def Records (added : Nat) (w : Walk α) : Prop := ∀ s, w.Plain s fun _ s' => s.Adds added s'

namespace Records

variable {added : Nat}

theorem pure (a : α) : (pure a : Walk α).Records 0 := .refl

theorem throw (h : Halt) : (throw h : Walk α).Records 0 := .refl

theorem get : (get : Walk Scope).Records 0 := .refl

theorem modify {f : Scope → Scope} (h : ∀ s : Scope, s.Adds added (f s)) : (modify f : Walk Unit).Records added := h

theorem request {q : Request} (hq : q ≠ .visit) : (request q).Records 0 := fun s => ⟨hq, fun _ => .refl s⟩

theorem emit (e : Event) : (emit e).Records 0 := .request nofun

theorem pause (d : Duration) : (Walk.request (.pause d)).Records 0 := .request nofun

theorem call (node : String) (k : Call) (l : Option Duration) : (Execution.call node k l).Records 0 :=
  fun s => ⟨nofun, fun _ => .refl s⟩

theorem bind {w : Walk α} (h : w.Records 0) {f : α → Walk β} (hf : ∀ a, (f a).Records 0) : (w >>= f).Records 0 := by
  intro s
  refine plain_bind.mpr ((h s).mono fun r s' hr => ?_)
  cases r with
  | error => exact hr
  | ok a => exact (hf a s').mono fun _ _ => hr.trans

theorem ite {c : Prop} [Decidable c] {w w' : Walk α} (h : w.Records added) (h' : w'.Records added) :
    (if c then w else w').Records added := by
  split
  · exact h
  · exact h'

theorem beginStep_bind {n : Node} {f : OpenStep → Walk α} (h : ∀ step, (f step).Records 0) : (beginStep n >>= f).Records 1 :=
  fun s => plain_bind.mpr (plain_beginStep.mpr ((h _ _).mono fun _ _ h' => (Scope.Adds.beginStep s n.id).trans h'))

theorem finishStep (n : Node) (step : OpenStep) (status : StepStatus) (report : StepReport) :
    (finishStep n step status report).Records 0 :=
  fun s => (tells_finishStep.mpr (Scope.Adds.finishStep s step status report)).plain

theorem cancelStep (n : Node) (step : OpenStep) : (cancelStep n step : Walk α).Records 0 :=
  fun s => (tells_cancelStep.mpr (Scope.Adds.cancelStep s step)).plain

theorem failStep (n : Node) (step : OpenStep) (report : StepReport) (fault : Fault) :
    (failStep n step report fault : Walk α).Records 0 :=
  .bind (.finishStep _ _ _ _) fun _ => .throw _

theorem passThrough (n : Node) : (passThrough n).Records 1 := .beginStep_bind fun _ => .finishStep _ _ _ _

theorem passThrough_bind {n : Node} {f : Unit → Walk α} (h : ∀ a, (f a).Records 0) : (Walk.passThrough n >>= f).Records 1 := by
  intro s
  refine plain_bind.mpr ((passThrough n s).mono fun r s' hr => ?_)
  cases r with
  | error => exact hr
  | ok a => exact (h a s').mono fun _ _ => hr.trans

end Records

/-- What only looks at conditions adds nothing. -/
theorem Ponders.records {w : Walk α} (h : w.Ponders) : w.Records 0 := by
  refine fun s => (Tells.mono (h s) fun r s' hr => ?_).plain
  obtain ⟨-, fs, rfl⟩ := hr
  exact .noting s fs

end Walk

/-! ## Visits -/

section Visits

variable {st : Setting}

theorem attempts_record {a : Attempts Walk α} (ha : ∀ n, (a.attempt n).Records 0) (hn : ∀ n d, (a.announce n d).Records 0)
    (hp : ∀ d, (a.pause d).Records 0) (backoff : Backoff) (retries n : Nat) : (a.run backoff retries n).Records 0 := by
  induction retries generalizing n with
  | zero =>
    unfold Attempts.run
    refine (ha n).bind fun r => ?_
    cases r <;> exact .pure _
  | succ retries ih =>
    unfold Attempts.run
    refine (ha n).bind fun r => ?_
    cases r with
    | ok v => exact .pure _
    | error fault => exact .ite (.bind (hn _ _) fun _ => .bind (hp _) fun _ => .ite (.pure _) (ih _)) (.pure _)

theorem attemptSkill_records (n : Node) (skill : String) (implementation : Option String) :
    (attemptSkill st n skill implementation).Records 0 :=
  .bind .get fun _ => attempts_record (fun _ => .call _ _ _) (fun _ _ => .emit _) (fun _ => .pause _) _ _ _

theorem tryAlternatives_records (n : Node) (room : Nat) (attempted : List String) (queue : List Implementation)
    (retries : Nat) (last : Fault) : (tryAlternatives st n room attempted queue retries last).Records 0 := by
  induction room generalizing attempted queue retries last with
  | zero => unfold tryAlternatives; split <;> exact .pure _
  | succ room ih =>
    unfold tryAlternatives
    split
    · exact .pure _
    · refine .bind (.emit _) fun _ => .bind (attemptSkill_records _ _ _) fun r => ?_
      split
      · exact .pure _
      · exact .ite (.pure _) (ih _ _ _ _)

theorem recover_records (n : Node) (skill : String) : (recover st n skill).Records 0 := by
  refine .bind (attemptSkill_records _ _ _) fun r => ?_
  split
  · exact .pure _
  · exact .ite (.pure _) (.bind (rankedImplementations_ponders n).records fun _ => tryAlternatives_records _ _ _ _ _ _)

theorem skips_records (n : Node) (step : OpenStep) (fault : Fault) : (skips st n step fault).Records 0 := by
  unfold skips
  split
  · exact .pure _
  · exact .pure _
  · exact .pure _
  · refine .bind (.modify fun s => .awaitStep s step) fun _ => .bind (.emit _) fun _ => .bind (.call _ _ _) fun r => ?_
    split
    · exact .pure _
    · exact .cancelStep _ _
    · exact .pure _

theorem handleFailure_records (n : Node) (step : OpenStep) (fault : Fault) (retries : Nat) :
    (handleFailure st n step fault retries).Records 0 := by
  unfold handleFailure
  refine .bind .get fun _ => .bind (Walk.firstWhere_ponders (triggers_ponders _ n) _).records fun reroute => ?_
  cases reroute with
  | some e => exact .bind (.emit _) fun _ => .bind (.finishStep _ _ _ _) fun _ => .pure _
  | none =>
    exact .bind (skips_records _ _ _) fun _ =>
      .ite (.bind (.finishStep _ _ _ _) fun _ => (advance_ponders _ _).records) (.failStep _ _ _ _)

theorem visitMarker_records (n : Node) : (visitMarker st n).Records 1 :=
  .passThrough_bind fun _ => (advance_ponders st n.id).records

theorem visitBranch_records (n : Node) : (visitBranch n).Records 1 := by
  refine .beginStep_bind fun step => ?_
  split
  · exact .failStep _ _ _ _
  · exact .bind (Walk.firstWhere_ponders (fun _ => Walk.holds_ponders _ _) _).records fun _ =>
      .bind (.finishStep _ _ _ _) fun _ => .pure _

theorem bindOutputs_adds (n : Node) (value : Json) (s : Scope) : s.Adds 0 (bindOutputs n value s) := by
  unfold bindOutputs
  have fold : ∀ (names : List String) (t : Scope), t.Adds 0 (names.foldl (fun t name => t.set name (outputOf value name)) t) := by
    intro names
    induction names with
    | nil => exact .refl
    | cons name names ih => exact fun t => (Scope.Adds.set t _ _).trans (ih _)
  exact (Scope.Adds.set s _ _).trans (fold _ _)

theorem visitSkill_records (n : Node) : (visitSkill st n).Records 1 := by
  refine .beginStep_bind fun step => ?_
  split
  · exact .failStep _ _ _ _
  · refine .bind (recover_records _ _) fun r => ?_
    split
    · exact .bind (.modify (bindOutputs_adds n _)) fun _ => .bind (.finishStep _ _ _ _) fun _ => (advance_ponders _ _).records
    · exact .cancelStep _ _
    · exact handleFailure_records _ _ _ _

theorem visitQuestion_records (n : Node) : (visitQuestion st n).Records 1 := by
  refine .beginStep_bind fun step => ?_
  split
  · exact .failStep _ _ _ _
  · refine .bind (.modify fun s => .awaitStep s step) fun _ => .bind .get fun _ => .bind (.emit _) fun _ =>
      .bind (.call _ _ _) fun r => ?_
    split
    · exact .bind (.modify fun s => .set s _ _) fun _ => .bind (.finishStep _ _ _ _) fun _ => (advance_ponders _ _).records
    · exact .cancelStep _ _
    · exact handleFailure_records _ _ _ _

/-- A node that is neither a loop nor a split adds one step. -/
theorem visit_records (inner : Inner) {n : Node} (hl : n.kind ≠ .loopStart) (hs : n.kind ≠ .split) :
    (visit st inner n).Records 1 := by
  unfold visit
  split
  case h_7 hk => exact absurd hk hl
  case h_8 hk => exact absurd hk hs
  case h_1 => exact .passThrough_bind fun _ => .pure _
  case h_6 => exact visitBranch_records n
  case h_9 => exact visitSkill_records n
  case h_10 | h_11 | h_12 => exact visitQuestion_records n
  all_goals exact visitMarker_records n

end Visits

/-! ## Loops and splits -/

section Nested

variable {st : Setting} {s : Scope}

theorem Walk.plain_passThrough {n : Node} {Q : Except Halt Unit → Scope → Prop}
    (h : ∀ s', s.Adds 1 s' → Q (.ok ()) s') : (Walk.passThrough n).Plain s Q :=
  Walk.plain_bind.mpr (Walk.plain_beginStep.mpr (Walk.tells_finishStep.mpr (h _ ((Scope.Adds.beginStep s n.id).trans
    (.finishStep _ _ _ _)))).plain)

/-- A walk that only looks at conditions comes to a value. -/
theorem Walk.Ponders.plain {w : Walk α} (h : w.Ponders) {Q : Except Halt α → Scope → Prop}
    (hQ : ∀ a s', s.Adds 0 s' → Q (.ok a) s') : w.Plain s Q := by
  refine (Walk.Tells.mono (h s) fun r s' hr => ?_).plain
  obtain ⟨⟨a, rfl, -⟩, fs, rfl⟩ := hr
  exact hQ a _ (.noting s fs)

/-- A pass that comes to the end of its loop adds the step of that, unless it is cancelled there. -/
theorem closePass_records {e : Edge} {n : Node} (hn : st.graph.node? e.source = some n) :
    (closePass st e).Plain s fun r s' =>
      s.Adds (if r.isOk then 1 else 0) s' ∧ ∀ halt, r = .error halt → halt = .cancelled := by
  unfold closePass passNode
  rw [hn]
  refine Walk.plain_bind.mpr (Walk.plain_checkpoint.mpr ⟨?_, .refl s, fun _ h => by cases h; rfl⟩)
  refine Walk.plain_bind.mpr (Walk.plain_passThrough fun t ht => ?_)
  exact (exits_ponders _ _).plain fun _ _ h => ⟨ht.trans h, nofun⟩

/-- Opening a split adds its step. -/
theorem openSplit_records (n : Node) :
    (openSplit st n).Plain s fun r s' => (∃ starts, r = .ok starts) ∧ s.Adds 1 s' := by
  refine Walk.plain_bind.mpr (Walk.plain_beginStep.mpr ?_)
  refine Walk.plain_bind.mpr ((Walk.keepWhere_ponders (opensBranch_ponders n) _).plain fun edges t ht => ?_)
  refine Walk.plain_bind.mpr (Walk.tells_finishStep.mpr ⟨⟨_, rfl⟩, ?_⟩).plain
  exact ((Scope.Adds.beginStep s n.id).trans ht).trans (.finishStep _ _ _ _)

/-- Passing the join of a split adds its step, if there is one. -/
theorem passJoin_records {join : Option String} (hj : ∀ id, join = some id → ∃ n, st.graph.node? id = some n) (ended : Bool) :
    (passJoin st join ended).Plain s fun r s' => (∃ next, r = .ok next) ∧ s.Adds (if join.isSome then 1 else 0) s' := by
  cases join with
  | none => exact ⟨⟨_, rfl⟩, .refl s⟩
  | some id =>
    obtain ⟨n, hn⟩ := hj id rfl
    simp only [passJoin, passNode, hn]
    refine Walk.plain_bind.mpr (Walk.plain_passThrough fun t ht => ?_)
    exact (advance_ponders _ _).plain fun _ _ h => ⟨⟨_, rfl⟩, ht.trans h⟩

/-- Behind its branches a split goes on, in which case it passes its join if it has one, or is
    cancelled, or fails as one of them did. -/
theorem closeSplit_records (n : Node) (g : Gathered) :
    (closeSplit st n g).Plain s fun r s' =>
      (foldBranches st.joining g s).Adds (if r.isOk ∧ (st.graph.join? n.id).isSome then 1 else 0) s' ∧
        match r with
        | .ok _ => ∃ ended, verdict g = .passed ended
        | .error .cancelled => True
        | .error (.failed node fault) => verdict g = .failed node fault := by
  unfold Walk.Plain
  rw [closeSplit_process]
  cases hv : verdict g with
  | cancelled => exact ⟨.refl _, trivial⟩
  | failed node fault =>
    refine ⟨nofun, fun stopped => ?_⟩
    cases stopped with
    | true => exact ⟨.refl _, trivial⟩
    | false => exact ⟨.refl _, rfl⟩
  | passed ended =>
    refine ⟨nofun, fun stopped => ?_⟩
    cases stopped with
    | true => exact ⟨.refl _, trivial⟩
    | false =>
      have declared (id : String) (h : st.graph.join? n.id = some id) : ∃ m, st.graph.node? id = some m := by
        obtain ⟨m, hm, -⟩ := Graph.join?_isJoin h
        exact ⟨m, hm⟩
      refine Process.Plain.mono (passJoin_records declared ended) fun p hr => ?_
      obtain ⟨r, s'⟩ := p
      obtain ⟨⟨next, rfl⟩, hs⟩ := hr
      simpa [Except.isOk, Except.toBool] using hs

/-- The branches of a split add their steps, -/
theorem steps_foldBranches (joining : Joining) (g : Gathered) (s : Scope) :
    (foldBranches joining g s).context.history.length =
      s.context.history.length + (g.outcomes.map (·.scope.context.history.length)).sum := by
  rw [history_foldBranches, List.length_append, List.length_flatMap]

/-- and their passes. -/
theorem iterations_foldBranches (joining : Joining) (g : Gathered) (s : Scope) :
    (foldBranches joining g s).trace.counters.iterations =
      s.trace.counters.iterations + (g.outcomes.map (·.scope.trace.counters.iterations)).sum := by
  have fold : ∀ (os : List Outcome) (c : Counters), (os.foldl (fun c o => c + o.scope.trace.counters) c).iterations =
      c.iterations + (os.map (·.scope.trace.counters.iterations)).sum := by
    intro os
    induction os with
    | nil => exact fun _ => rfl
    | cons o os ih =>
      intro c
      rw [List.foldl_cons, ih, List.map_cons, List.sum_cons, ← Nat.add_assoc]
      rfl
  rw [trace_foldBranches, counters_absorbed, fold]

end Nested

end Execution

end Capability
