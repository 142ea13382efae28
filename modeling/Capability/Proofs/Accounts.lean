/-
  Capability.Proofs.Accounts — every failure is accounted for.

  A walk that fails has a node and a fault. The fault is that of the visit limit, or it came as an
  answer to a call of that node and stands in a step of it. A walk that does not fail while all
  branches are waited for has left every step that failed along a fallback edge.

  (1) `Accounts`: what the end of a walk says of the steps it recorded.
  (2) `recover_answered`: a node that fails does so by one of the answers to its calls.
  (3) `segment_accounted`: in a checked graph every segment is accounted for, and so is every
      branch inside it.
-/

import Capability.Proofs.Checked
import Capability.Proofs.Replies
import Capability.Proofs.Settled
import Capability.Proofs.Splits

namespace Capability

namespace Scope

variable {s t : Scope} {node : String}

/-- A step that is finished stands at the end of the history. -/
theorem During.history_finish (h : During (s.nextStep node) (s.beginStep node) t) (status : StepStatus)
    (report : StepReport) : ∃ e : Step, e.node = node ∧
      (t.finishStep (s.nextStep node) status report).context.history = s.context.history ++ [{ e with
        status, result := report.result, error := report.error, fallbackUsed := report.fallbackUsed,
        retryCount := report.retryCount, interrupted := false }] := by
  obtain ⟨⟨e, he, hn⟩, -, -⟩ := h.shape
  refine ⟨e, hn, ?_⟩
  simp only [finishStep, closeStep, Context.modifyStep, nextStep, he, Context.modify_last]

/-- So does a step that a cancellation interrupts. -/
theorem During.history_cancel (h : During (s.nextStep node) (s.beginStep node) t) :
    ∃ e : Step, e.node = node ∧ (t.cancelStep (s.nextStep node)).context.history = s.context.history ++ [{ e with
      status := .skipped, result := none, error := some "cancelled", fallbackUsed := false,
      retryCount := 0, interrupted := true }] := by
  obtain ⟨⟨e, he, hn⟩, -, -⟩ := h.shape
  refine ⟨e, hn, ?_⟩
  simp only [cancelStep, closeStep, Context.modifyStep, nextStep, he, Context.modify_last]

end Scope

namespace Execution

/-- The node that a call is made for. -/
def Call.node : Call → String
  | .skill i => i.node
  | .question q => q.node

/-- The fault came as an answer to a call of the node. -/
def Explained (R : Replies) (node : String) (fault : Fault) : Prop :=
  ∃ k l a, R k l a ∧ k.node = node ∧
    (a = .given (.error fault) ∨ a = .timedOut ∧ fault = .timedOut node (l.getD .zero).millis)

/-- The failure of the step was left along a fallback edge. -/
def Rerouted (g : Graph) (e : Step) : Prop := e.fallbackUsed = true ∧ ∃ f ∈ g.outgoing e.node, f.kind = .fallback

/-- What the end of a walk says of the steps it recorded. -/
structure Accounts (st : Setting) (R : Replies) {α : Type} (ending : Except Halt α) (es : List Step) : Prop where
  failed : ∀ node fault, ending = .error (.failed node fault) →
    fault = .visitLimit st.config.maxVisits ∨
      Explained R node fault ∧ ∃ e ∈ es, e.node = node ∧ e.status = .failed ∧ e.error = some fault.message
  /-- No failure is dropped where all branches are waited for. -/
  kept : st.joining = .all → (∃ a, ending = .ok a) → ∀ e ∈ es, e.status = .failed → Rerouted st.graph e

/-- The end of a branch agrees with its steps. -/
def Outcome.Accounted (st : Setting) (R : Replies) (o : Outcome) : Prop :=
  Accounts st R o.ending o.scope.context.history

variable {st : Setting} {R : Replies} {α β : Type}

namespace Accounts

variable {es es' : List Step} {r : Except Halt α}

theorem cancelled : Accounts st R (.error .cancelled : Except Halt α) es := ⟨nofun, nofun⟩

theorem overLimit (id : String) : Accounts st R (.error (Execution.overLimit st id) : Except Halt α) es :=
  ⟨fun _ _ h => by cases h; exact .inl rfl, nofun⟩

/-- A failure that stands in a step is accounted for. -/
theorem failure {node : String} {fault : Fault} (hx : Explained R node fault)
    (he : ∃ e ∈ es, e.node = node ∧ e.status = .failed ∧ e.error = some fault.message) :
    Accounts st R (.error (.failed node fault) : Except Halt α) es :=
  ⟨fun _ _ h => by cases h; exact .inr ⟨hx, he⟩, nofun⟩

theorem stands {a : α} (h : st.joining = .all → ∀ e ∈ es, e.status = .failed → Rerouted st.graph e) :
    Accounts st R (.ok a : Except Halt α) es :=
  ⟨nofun, fun hj _ => h hj⟩

theorem calm {a : α} (h : ∀ e ∈ es, e.status = .failed → Rerouted st.graph e) : Accounts st R (.ok a : Except Halt α) es :=
  .stands fun _ => h

/-- What goes on behind steps that are accounted for is accounted for together with them. -/
theorem append {b : β} (h : Accounts st R (.ok b : Except Halt β) es) (h' : Accounts st R r es') :
    Accounts st R r (es ++ es') where
  failed node fault hr := (h'.failed node fault hr).imp_right <| by
    rintro ⟨hx, e, he, hs⟩
    exact ⟨hx, e, List.mem_append_right es he, hs⟩
  kept hj hr e he := (List.mem_append.mp he).elim (h.kept hj ⟨b, rfl⟩ e) (h'.kept hj hr e)

end Accounts

/-- A walk from a scope came to an end that agrees with the steps recorded since, and with a value
    that satisfies `P`. -/
def Accounted (st : Setting) (R : Replies) (P : α → Prop) (s : Scope) (r : Except Halt α) (s' : Scope) : Prop :=
  ∃ es, s'.context.history = s.context.history ++ es ∧ Accounts st R r es ∧ ∀ a, r = .ok a → P a

namespace Accounted

variable {P : α → Prop} {s t u : Scope}

theorem stay {a : α} (h : P a) (hs : t.context.history = s.context.history) : Accounted st R P s (.ok a) t :=
  ⟨[], by simp [hs], .calm (by simp), by rintro _ ⟨⟩; exact h⟩

/-- What is broken off has no value. -/
theorem broken_off {h : Halt} {es : List Step} (hs : t.context.history = s.context.history ++ es)
    (ha : Accounts st R (.error h : Except Halt α) es) : Accounted st R P s (.error h) t :=
  ⟨es, hs, ha, nofun⟩

theorem cancelled (hs : t.context.history = s.context.history) : Accounted st R P s (.error .cancelled) t :=
  .broken_off (hs.trans (List.append_nil _).symm) .cancelled

theorem trans {P' : β → Prop} {b : β} {r : Except Halt α} (h : Accounted st R P' s (.ok b) t)
    (h' : Accounted st R P t r u) : Accounted st R P s r u := by
  obtain ⟨es, hs, ha, -⟩ := h
  obtain ⟨es', hs', ha', hP⟩ := h'
  exact ⟨es ++ es', by rw [hs', hs, List.append_assoc], ha.append ha', hP⟩

/-- A step that did not fail, or whose failure was rerouted, needs no further account. -/
theorem finish {node : String} {a : α} (hd : Scope.During (s.nextStep node) (s.beginStep node) t) (h : P a)
    {status : StepStatus} {report : StepReport}
    (hr : status = .failed → report.fallbackUsed = true ∧ ∃ f ∈ st.graph.outgoing node, f.kind = .fallback) :
    Accounted st R P s (.ok a) (t.finishStep (s.nextStep node) status report) := by
  obtain ⟨e, rfl, he⟩ := hd.history_finish status report
  refine ⟨_, he, .calm fun e' he' hf => ?_, by rintro _ ⟨⟩; exact h⟩
  obtain rfl := List.mem_singleton.mp he'
  exact hr hf

theorem complete {node : String} {a : α} (hd : Scope.During (s.nextStep node) (s.beginStep node) t) (h : P a)
    {report : StepReport} : Accounted st R P s (.ok a) (t.finishStep (s.nextStep node) .completed report) :=
  .finish hd h fun hf => by cases hf

/-- A step that failed accounts for the break-off at its node. -/
theorem fail {node : String} {fault : Fault} (hd : Scope.During (s.nextStep node) (s.beginStep node) t)
    (h : Explained R node fault) {report : StepReport} (he : report.error = some fault.message) :
    Accounted st R P s (.error (.failed node fault)) (t.finishStep (s.nextStep node) .failed report) := by
  obtain ⟨e, rfl, hs⟩ := hd.history_finish .failed report
  exact .broken_off hs (.failure h ⟨_, List.mem_singleton_self _, rfl, rfl, he⟩)

theorem cancel {node : String} (hd : Scope.During (s.nextStep node) (s.beginStep node) t) :
    Accounted st R P s (.error .cancelled) (t.cancelStep (s.nextStep node)) := by
  obtain ⟨e, -, hs⟩ := hd.history_cancel
  exact .broken_off hs .cancelled

end Accounted

/-! ## Walks -/

/-- Whatever a walk comes to is accounted for. -/
def Walk.Accounted (st : Setting) (R : Replies) (w : Walk α) (P : α → Prop) : Prop :=
  ∀ s, w.Secures R (Outcome.Accounted st R) s (Execution.Accounted st R P s)

namespace Walk

variable {P : α → Prop}

theorem Finds.accounted {w : Walk α} (h : w.Finds R P) : w.Accounted st R P :=
  fun _ => h.secures fun _ _ ha => .stay ha rfl

theorem Accounted.bind {w : Walk α} (h : w.Accounted st R P) {f : α → Walk β} {Q : β → Prop}
    (hf : ∀ a, P a → (f a).Accounted st R Q) : (w >>= f).Accounted st R Q := by
  intro s
  refine secures_bind.mpr ((h s).mono fun r s' hr => ?_)
  cases r with
  | error e =>
    obtain ⟨es, hs, ha, -⟩ := hr
    exact .broken_off hs ⟨fun node fault h => ha.failed node fault (by cases h; rfl), nofun⟩
  | ok a =>
    obtain ⟨es, hs, ha, hP⟩ := hr
    have before : Execution.Accounted st R (fun _ : α => True) s (.ok a) s' := ⟨es, hs, ha, fun _ _ => trivial⟩
    exact (hf a (hP a rfl) s').mono fun _ _ => before.trans

theorem Accounted.pure {a : α} (h : P a) : (pure a : Walk α).Accounted st R P := (Finds.pure h).accounted

theorem Accounted.ite {c : Prop} [Decidable c] {w w' : Walk α} (h : c → w.Accounted st R P)
    (h' : ¬c → w'.Accounted st R P) : (if c then w else w').Accounted st R P := by
  split
  · exact h ‹_›
  · exact h' ‹_›

theorem overLimit_accounted (id : String) : (throw (overLimit st id) : Walk α).Accounted st R P :=
  fun s => .broken_off (List.append_nil s.context.history).symm (.overLimit id)

theorem checkpoint_secures {E : Outcome → Prop} {s : Scope} {Q : Except Halt Unit → Scope → Prop} (h : Q (.ok ()) s)
    (hc : Q (.error .cancelled) s) : checkpoint.Secures R E s Q := by
  refine secures_bind.mpr fun stopped _ => ?_
  cases stopped with
  | false => exact h
  | true => exact hc

theorem checkpoint_accounted : checkpoint.Accounted st R fun _ => True :=
  fun _ => checkpoint_secures (.stay trivial rfl) (.cancelled rfl)

theorem passThrough_accounted (n : Node) : (passThrough n).Accounted st R fun _ => True := by
  intro s
  simp only [passThrough, secures_bind, secures_beginStep, secures_finishStep]
  exact .complete .refl trivial

end Walk

/-! ## Where a walk goes on -/

/-- If a strand goes on at all, it does so at a node of the graph. -/
def Next.Known (g : Graph) (next : Next) : Prop := ∀ id, next = .node id → g.isDeclared id

theorem Next.known_stop (g : Graph) (flow : Flow) : (Next.stop flow).Known g := nofun

theorem chooseEdge_finds (node : String) (es : List Edge) (e? : Option Edge) :
    (chooseEdge node es e?).Finds R fun r => ∀ e, r = some e → e ∈ es ∨ e? = some e := by
  induction es generalizing e? with
  | nil => exact .pure fun e h => .inr h
  | cons f es ih =>
    unfold chooseEdge
    split
    · refine (ih _).mono fun r hr e h => ?_
      cases e? with
      | none => exact .inl ((hr e h).elim (.tail _) fun hf => by cases hf; exact .head _)
      | some e' => exact (hr e h).imp_left (.tail _)
    · refine .bind (Walk.holds_notes _ _).finds fun _ _ => .ite (fun _ => ?_) fun _ => ?_
      · exact .pure fun e h => .inl (by cases h; exact .head _)
      · exact (ih _).mono fun r hr e h => (hr e h).imp_left (.tail _)

theorem successor_finds (hg : st.graph.Checked) (node : String) :
    (successor st node).Finds R fun next => ∀ id, next = some id → st.graph.isDeclared id := by
  refine (chooseEdge_finds node _ none).bind fun r hr => .pure fun id h => ?_
  obtain ⟨e, he, rfl⟩ := Option.map_eq_some_iff.mp h
  exact hg.flow_declared ((hr e he).resolve_right nofun)

theorem advance_finds (hg : st.graph.Checked) (node : String) : (advance st node).Finds R (Next.Known st.graph) := by
  refine (successor_finds hg node).bind fun next hn => ?_
  cases next with
  | none => exact .pure (Next.known_stop _ _)
  | some id => exact .pure fun id' h => hn id' (by cases h; rfl)

/-! ## Skills -/

/-- A node did not fail, was cancelled, or failed by an answer to one of its calls. -/
def Answered (R : Replies) (node : String) (outcome : Except Fault α) : Prop :=
  ∀ fault, outcome = .error fault → fault = .cancelled ∨ Explained R node fault

theorem answered_of_reply {k : Call} {l : Option Duration} {a : Answer} (h : R k l a) :
    Answered R k.node (a.outcome k.node l) := by
  intro fault hf
  cases a with
  | given outcome => exact .inr ⟨k, l, _, h, rfl, .inl (congrArg Answer.given hf)⟩
  | timedOut => exact .inr ⟨k, l, _, h, rfl, .inr ⟨rfl, by cases hf; rfl⟩⟩
  | cancelled => cases hf; exact .inl rfl

theorem call_finds (k : Call) (l : Option Duration) : (call k.node k l).Finds R (Answered R k.node) :=
  (Walk.Finds.call _ k l).mono fun _ h => by
    obtain ⟨_, ha, rfl⟩ := h
    exact answered_of_reply ha

section Attempts

variable {P : Except Fault Json → Prop}

/-- What is certain of every attempt is certain of what comes of them, unless a wait is cut short. -/
theorem attempts_finds {a : Attempts Walk Json} (hc : P (.error .cancelled)) (ha : ∀ n, (a.attempt n).Finds R P)
    (hn : ∀ n d, (a.announce n d).Notes) (hp : ∀ d, (a.pause d).Notes) (backoff : Backoff) (retries n : Nat) :
    (a.run backoff retries n).Finds R fun r => P r.outcome := by
  induction retries generalizing n with
  | zero =>
    unfold Attempts.run
    refine (ha n).bind fun r hr => ?_
    cases r <;> exact .pure hr
  | succ retries ih =>
    unfold Attempts.run
    refine (ha n).bind fun r hr => ?_
    cases r with
    | ok v => exact .pure hr
    | error fault =>
      exact .ite (fun _ => .bind (hn _ _).finds fun _ _ => .bind (hp _).finds fun _ _ => .ite (fun _ => .pure hc) fun _ => ih _)
        fun _ => .pure hr

variable {n : Node} (hc : P (.error .cancelled))
  (ha : ∀ i l a, i.node = n.id → R (.skill i) l a → P (a.outcome n.id l))

include hc ha

theorem attemptSkill_finds (skill : String) (implementation : Option String) :
    (attemptSkill st n skill implementation).Finds R fun r => P r.outcome := by
  refine .bind Walk.Notes.get.finds fun _ _ => attempts_finds hc (fun _ => ?_) (fun _ _ => .emit _) (fun _ => .request _) _ _ _
  refine (Walk.Finds.call _ _ _).mono fun outcome h => ?_
  obtain ⟨a, hR, rfl⟩ := h
  exact ha _ _ a rfl hR

theorem tryAlternatives_finds (room : Nat) (attempted : List String) (queue : List Implementation) (retries : Nat)
    {last : Fault} (hl : P (.error last)) :
    (tryAlternatives st n room attempted queue retries last).Finds R fun r => P (r.outcome.map Prod.fst) := by
  induction room generalizing attempted queue retries last with
  | zero => unfold tryAlternatives; split <;> exact .pure hl
  | succ room ih =>
    unfold tryAlternatives
    split
    · exact .pure hl
    · refine .bind (Walk.Notes.emit _).finds fun _ _ => (attemptSkill_finds hc ha _ _).bind fun r hr => ?_
      split
      · next v hv =>
        rw [hv] at hr
        exact .pure hr
      · next fault he =>
        rw [he] at hr
        exact .ite (fun _ => .pure hr) fun _ => ih _ _ _ hr

/-- What is certain of every answer to an attempt is certain of what comes of a skill node. -/
theorem recover_finds (skill : String) :
    (recover st n skill).Finds R fun r => P (r.outcome.map Prod.fst) := by
  refine (attemptSkill_finds hc ha skill none).bind fun r hr => ?_
  split
  · next v hv =>
    rw [hv] at hr
    exact .pure hr
  · next fault he =>
    rw [he] at hr
    refine .ite (fun _ => .pure hr) fun _ => ?_
    exact .bind (rankedImplementations_notes n).finds fun _ _ => tryAlternatives_finds hc ha _ _ _ _ hr

end Attempts

/-- A node that fails does so by one of the answers to its calls. -/
theorem recover_answered (n : Node) (skill : String) :
    (recover st n skill).Finds R fun r => Answered R n.id r.outcome := by
  have answered : (recover st n skill).Finds R fun r => Answered R n.id (r.outcome.map Prod.fst) := by
    refine recover_finds (fun fault h => .inl (by cases h; rfl)) ?_ skill
    intro i l a hn ha
    exact hn ▸ answered_of_reply ha
  exact answered.mono fun r hr fault he => hr fault (by rw [he]; rfl)

/-! ## Visits -/

section Visits

variable {s t : Scope} {n : Node}

/-- Nothing is closed while it is asked whether to skip, except by a cancellation. -/
theorem skips_secures {E : Outcome → Prop} (hd : Scope.During (s.nextStep n.id) (s.beginStep n.id) t) (fault : Fault) :
    (skips st n (s.nextStep n.id) fault).Secures R E t fun r t' =>
      match r with
      | .ok _ => Scope.During (s.nextStep n.id) (s.beginStep n.id) t'
      | .error _ => Accounted st R (Next.Known st.graph) s (.error .cancelled) t' ∧ r = .error .cancelled := by
  unfold skips
  split
  · exact hd
  · exact hd
  · exact hd
  · simp only [Walk.secures_bind, Walk.secures_modify, Walk.secures_emit]
    refine (call_notes _ _ _).finds.secures fun outcome fs _ => ?_
    have hw := (hd.awaitStep).noting fs
    cases outcome with
    | ok _ => exact hw
    | error f =>
      cases f with
      | cancelled => exact Walk.secures_cancelStep.mpr ⟨.cancel hw, rfl⟩
      | _ => exact hw

/-- A step that is finished without a failure is followed by a node of the graph, if by any. -/
theorem finish_advance {E : Outcome → Prop} (hg : st.graph.Checked)
    (hd : Scope.During (s.nextStep n.id) (s.beginStep n.id) t) {status : StepStatus} (hs : status ≠ .failed)
    (report : StepReport) (id : String) :
    (advance st id).Secures R E (t.finishStep (s.nextStep n.id) status report) (Accounted st R (Next.Known st.graph) s) := by
  have done : Accounted st R (fun _ : Unit => True) s (.ok ()) (t.finishStep (s.nextStep n.id) status report) :=
    .finish hd trivial fun h => absurd h hs
  exact (advance_finds hg id).secures fun _ _ hk => done.trans (.stay hk rfl)

theorem handleFailure_accounted (hg : st.graph.Checked) (hd : Scope.During (s.nextStep n.id) (s.beginStep n.id) t)
    {fault : Fault} (hf : Explained R n.id fault) (retries : Nat) :
    (handleFailure st n (s.nextStep n.id) fault retries).Secures R (Outcome.Accounted st R) t
      (Accounted st R (Next.Known st.graph) s) := by
  unfold handleFailure
  simp only [Walk.secures_bind, Walk.secures_get]
  refine (Walk.firstWhere_finds (triggers_notes _ n) _).secures fun reroute fs hr => ?_
  have hn := hd.noting fs
  cases reroute with
  | some e =>
    obtain ⟨he, hk⟩ := List.mem_filter.mp (hr e rfl)
    simp only [Walk.secures_bind, Walk.secures_emit, Walk.secures_finishStep, Walk.secures_pure]
    refine .finish hn (fun id h => ?_) fun _ => ⟨rfl, e, he, by simpa using hk⟩
    cases h
    exact hg.outgoing_declared he
  | none =>
    refine Walk.secures_bind.mpr ((skips_secures hn fault).mono fun r t' hr => ?_)
    cases r with
    | error _ =>
      obtain ⟨ha, h⟩ := hr
      cases h
      exact ha
    | ok skipped =>
      cases skipped with
      | true =>
        simp only [if_true, Walk.secures_bind, Walk.secures_finishStep]
        exact finish_advance hg hr (by simp) _ n.id
      | false =>
        simp only [Bool.false_eq_true, if_false, Walk.secures_failStep]
        exact .fail hr hf rfl

theorem visitMarker_accounted (hg : st.graph.Checked) (n : Node) :
    (visitMarker st n).Accounted st R (Next.Known st.graph) :=
  (Walk.passThrough_accounted n).bind fun _ _ => (advance_finds hg n.id).accounted

theorem visitBranch_accounted (hg : st.graph.Checked) {id : String} (hn : st.graph.node? id = some n) (hk : n.kind = .branch) :
    (visitBranch n).Accounted st R (Next.Known st.graph) := by
  intro s
  have hmem := Graph.mem_of_node? hn
  unfold visitBranch
  simp only [Walk.secures_bind, Walk.secures_beginStep]
  split
  · next hc => exact absurd hc (hg.conditions n hmem hk)
  · next first rest hc =>
    refine (Walk.firstWhere_finds (fun _ => Walk.holds_notes _ _) _).secures_bind fun matched fs hm => ?_
    simp only [Walk.secures_bind, Walk.secures_finishStep, Walk.secures_pure]
    refine .complete (.noting fs .refl) fun id h => ?_
    cases h
    refine hg.choices n hmem hk _ ?_
    cases matched with
    | none => exact hc ▸ .head rest
    | some c => exact hc ▸ hm c rfl

theorem visitSkill_accounted (hg : st.graph.Checked) {id : String} (hn : st.graph.node? id = some n) (hk : n.kind = .skill) :
    (visitSkill st n).Accounted st R (Next.Known st.graph) := by
  intro s
  unfold visitSkill
  simp only [Walk.secures_bind, Walk.secures_beginStep]
  split
  · next hs =>
    have named := hg.skills n (Graph.mem_of_node? hn) hk
    rw [hs] at named
    cases named
  · refine (recover_answered n _).secures_bind fun r fs hr => ?_
    have hd : Scope.During (s.nextStep n.id) (s.beginStep n.id) ((s.beginStep n.id).noting fs) := .noting fs .refl
    split
    · next value implementation _ =>
      simp only [Walk.secures_bind, Walk.secures_modify, Walk.secures_finishStep]
      exact finish_advance hg (bindOutputs_during hd n value) (by simp) _ n.id
    · exact Walk.secures_cancelStep.mpr (.cancel hd)
    · next fault hc he => exact handleFailure_accounted hg hd ((hr fault he).resolve_left hc) _

theorem visitQuestion_accounted (hg : st.graph.Checked) (hk : (InteractionKind.ofNode? n.kind).isSome) :
    (visitQuestion st n).Accounted st R (Next.Known st.graph) := by
  intro s
  obtain ⟨kind, hkind⟩ := Option.isSome_iff_exists.mp hk
  unfold visitQuestion
  simp only [Walk.secures_bind, Walk.secures_beginStep, hkind, Walk.secures_modify, Walk.secures_get, Walk.secures_emit]
  refine (call_finds (.question _) _).secures fun r fs hr => ?_
  have hd : Scope.During (s.nextStep n.id) (s.beginStep n.id)
      (((s.beginStep n.id).awaitStep (s.nextStep n.id)).noting fs) := .noting fs (.awaitStep .refl)
  dsimp only
  split
  · simp only [Walk.secures_bind, Walk.secures_modify, Walk.secures_finishStep]
    exact finish_advance hg (hd.set _ _) (by simp) _ n.id
  · exact Walk.secures_cancelStep.mpr (.cancel hd)
  · next fault hc => exact handleFailure_accounted hg hd ((hr fault rfl).resolve_left hc) _

end Visits

/-! ## Loops and splits -/

/-- The segments inside are accounted for from every node of the graph. -/
def Inner.Accounted (st : Setting) (R : Replies) (inner : Inner) : Prop :=
  ∀ boundaries start, st.graph.isDeclared start → (inner boundaries start).Accounted st R fun _ => True

section Nested

variable {inner : Inner} {n : Node}

theorem passNode_accounted (id : String) : (passNode st id).Accounted st R fun _ => True := by
  unfold passNode
  split
  · exact Walk.passThrough_accounted _
  · exact .pure trivial

theorem closePass_accounted (e : Edge) : (closePass st e).Accounted st R fun _ => True :=
  Walk.checkpoint_accounted.bind fun _ _ => (passNode_accounted e.source).bind fun _ _ => (exits_notes _ e).finds.accounted

theorem numberPass_accounted (n : Node) (i : Nat) : (numberPass st n i).Accounted st R fun _ => True :=
  fun _ => .stay trivial rfl

theorem passes_accounted (hg : st.graph.Checked) (hi : inner.Accounted st R) (e : Edge) (left i : Nat) :
    (passes st inner n e left i).Accounted st R fun _ => True := by
  induction left generalizing i with
  | zero => exact .pure trivial
  | succ left ih =>
    unfold passes
    refine Walk.checkpoint_accounted.bind fun _ _ => (numberPass_accounted n i).bind fun _ _ =>
      (successor_finds hg n.id).accounted.bind fun body hbody => ?_
    cases body with
    | none => exact .pure trivial
    | some body =>
      refine (hi _ body (hbody body rfl)).bind fun flow _ => ?_
      cases flow with
      | ended => exact .pure trivial
      | deadEnd => exact ih _
      | boundary id =>
        refine .ite (fun _ => (closePass_accounted e).bind fun out _ => ?_) fun _ => ih _
        cases out with
        | true => exact .pure trivial
        | false => exact ih _

theorem visitLoop_accounted (hg : st.graph.Checked) (hi : inner.Accounted st R) {id : String}
    (hn : st.graph.node? id = some n) (hk : n.kind = .loopStart) :
    (visitLoop st inner n).Accounted st R (Next.Known st.graph) := by
  obtain ⟨e, he⟩ := hg.loop_closed hn hk
  have walked : (do
      if ← passes st inner n e (passBound n e) 0 then pure (.stop .ended) else advance st e.source : Walk Next).Accounted
        st R (Next.Known st.graph) :=
    (passes_accounted hg hi e _ 0).bind fun ended _ =>
      .ite (fun _ => .pure (Next.known_stop _ _)) fun _ => (advance_finds hg e.source).accounted
  intro s
  unfold visitLoop
  simp only [Walk.secures_bind (w := Walk.beginStep n), Walk.secures_beginStep, he,
    Walk.secures_bind (w := Walk.finishStep _ _ _ _), Walk.secures_finishStep]
  exact (walked _).mono fun _ _ => (Accounted.finish (P := fun _ : Unit => True) (a := ()) .refl trivial (by simp)).trans

/-- The branches of an opened split start at nodes of the graph. -/
theorem openSplit_accounted (hg : st.graph.Checked) (n : Node) :
    (openSplit st n).Accounted st R fun starts => ∀ start ∈ starts, st.graph.isDeclared start := by
  intro s
  unfold openSplit
  simp only [Walk.secures_bind, Walk.secures_beginStep]
  refine (Walk.keepWhere_finds (opensBranch_notes n) _).secures fun edges fs he => ?_
  simp only [Walk.secures_finishStep, Walk.secures_pure]
  refine .finish (.noting fs .refl) (fun start hs => ?_) (by simp)
  obtain ⟨e, hmem, rfl⟩ := List.mem_map.mp hs
  exact hg.flow_declared (he e hmem)

theorem passJoin_accounted (hg : st.graph.Checked) (join : Option String) (ended : Bool) :
    (passJoin st join ended).Accounted st R (Next.Known st.graph) := by
  unfold passJoin
  split
  · exact (passNode_accounted _).bind fun _ _ => (advance_finds hg _).accounted
  · exact .pure (Next.known_stop _ _)

theorem Outcome.failure?_eq_some {o : Outcome} {node : String} {fault : Fault} :
    o.failure? = some (node, fault) ↔ o.ending = .error (.failed node fault) := by
  unfold failure?
  split
  · next h => simp [h]
  · next h => exact ⟨nofun, fun ho => absurd ho (h node fault)⟩

/-- A failure of a split is that of the first of its branches that failed, and none was cancelled. -/
theorem failed_of_verdict {g : Gathered} {node : String} {fault : Fault} (h : verdict g = .failed node fault) :
    ∃ before o behind, g.outcomes = before ++ o :: behind ∧ o.ending = .error (.failed node fault) ∧
      (∀ o' ∈ before, o'.failure? = none) ∧ ∀ o' ∈ g.outcomes, o'.ending ≠ .error .cancelled := by
  unfold verdict at h
  split at h
  · cases h
  · unfold verdictOnAll at h
    split at h
    · cases h
    · next calm =>
      split at h
      · next found =>
        cases h
        obtain ⟨before, o, behind, hsplit, hfail, hbefore⟩ := List.findSome?_eq_some_iff.mp found
        refine ⟨before, o, behind, hsplit, Outcome.failure?_eq_some.mp hfail, hbefore, fun o' ho' hc => calm ?_⟩
        exact List.any_eq_true.mpr ⟨o', ho', by simp [Outcome.isCancelled, hc]⟩
      · cases h

/-- A split without a winner that is passed has branches that all came to an end. -/
theorem passed_of_verdict {g : Gathered} {ended : Bool} (h : verdict g = .passed ended) (hw : g.winner = none) :
    ∀ o ∈ g.outcomes, ∃ flow, o.ending = .ok flow := by
  intro o ho
  simp only [verdict, hw, verdictOnAll] at h
  split at h
  · cases h
  · next hc =>
    split at h
    · cases h
    · next hf =>
      have calm := List.findSome?_eq_none_iff.mp hf o ho
      cases he : o.ending with
      | ok flow => exact ⟨flow, rfl⟩
      | error halt =>
        cases halt with
        | cancelled => exact absurd (List.any_eq_true.mpr ⟨o, ho, by simp [Outcome.isCancelled, he]⟩) hc
        | failed node fault => simp [Outcome.failure?, he] at calm

/-- What the branches of a split come to together is accounted for by the steps of them all. -/
theorem closeSplit_accounted (hg : st.graph.Checked) (n : Node) {g : Gathered} (hw : st.joining = .all → g.winner = none)
    (ho : ∀ o ∈ g.outcomes, o.Accounted st R) : (closeSplit st n g).Accounted st R (Next.Known st.graph) := by
  intro s
  have folded := history_foldBranches st.joining g s
  unfold closeSplit
  simp only [Walk.secures_bind, Walk.secures_modify]
  split
  · exact .broken_off folded .cancelled
  · next node fault hv =>
    obtain ⟨before, o, behind, hsplit, he, -⟩ := failed_of_verdict hv
    have hmem : o ∈ g.outcomes := by simp [hsplit]
    have failure : Accounts st R (.error (.failed node fault) : Except Halt Next)
        (g.outcomes.flatMap fun o => o.scope.context.history) := by
      obtain rfl | ⟨hx, e, hin, hs⟩ := (ho o hmem).failed node fault he
      · exact .overLimit node
      · exact .failure hx ⟨e, List.mem_flatMap.mpr ⟨o, hmem, hin⟩, hs⟩
    exact Walk.secures_bind.mpr (Walk.checkpoint_secures (.broken_off folded failure) (.broken_off folded .cancelled))
  · next ended hv =>
    have kept : Accounted st R (fun _ : Unit => True) s (.ok ()) (foldBranches st.joining g s) := by
      refine ⟨_, folded, .stands fun hj e he => ?_, fun _ _ => trivial⟩
      obtain ⟨o, hmem, hin⟩ := List.mem_flatMap.mp he
      exact (ho o hmem).kept hj (passed_of_verdict hv (hw hj) o hmem) e hin
    exact ((Walk.checkpoint_accounted.bind fun _ _ => passJoin_accounted hg _ ended) _).mono fun _ _ => kept.trans

theorem visitSplit_accounted (hg : st.graph.Checked) (hi : inner.Accounted st R) (n : Node) :
    (visitSplit st inner n).Accounted st R (Next.Known st.graph) := by
  refine (openSplit_accounted hg n).bind fun starts hstarts s => ?_
  simp only [Walk.secures_bind, Walk.secures_get]
  refine Walk.secures_split (fun b hb => ?_) fun os winner hw ho => closeSplit_accounted hg n (g := ⟨os, winner⟩) hw ho s
  obtain ⟨start, hs, rfl⟩ := List.mem_map.mp hb
  refine (hi _ start (hstarts start hs) s.fork).mono fun r s' h => ?_
  obtain ⟨es, he, ha, -⟩ := h
  rw [Outcome.Accounted, he]
  exact ha

/-- Every node of a checked graph is accounted for. -/
theorem visit_accounted (hg : st.graph.Checked) (hi : inner.Accounted st R) {id : String} (hn : st.graph.node? id = some n) :
    (visit st inner n).Accounted st R (Next.Known st.graph) := by
  unfold visit
  split
  · exact (Walk.passThrough_accounted n).bind fun _ _ => .pure (Next.known_stop _ _)
  · exact visitMarker_accounted hg n
  · exact visitMarker_accounted hg n
  · exact visitMarker_accounted hg n
  · exact visitMarker_accounted hg n
  · next hk => exact visitBranch_accounted hg hn hk
  · next hk => exact visitLoop_accounted hg hi hn hk
  · exact visitSplit_accounted hg hi n
  · next hk => exact visitSkill_accounted hg hn hk
  · next hk => exact visitQuestion_accounted hg (by simp [hk, InteractionKind.ofNode?])
  · next hk => exact visitQuestion_accounted hg (by simp [hk, InteractionKind.ofNode?])
  · next hk => exact visitQuestion_accounted hg (by simp [hk, InteractionKind.ofNode?])

end Nested

/-! ## Segments -/

theorem segment_accounted (hg : st.graph.Checked) (budget : Nat) : (segment st budget).Accounted st R := by
  induction budget with
  | zero =>
    intro boundaries id _
    unfold segment
    exact .ite (fun _ => .pure trivial) fun _ => Walk.checkpoint_accounted.bind fun _ _ =>
      (Walk.Notes.request .visit).finds.accounted.bind fun _ _ => Walk.overLimit_accounted id
  | succ budget ih =>
    intro boundaries id hid
    unfold segment
    refine .ite (fun _ => .pure trivial) fun _ => Walk.checkpoint_accounted.bind fun _ _ =>
      (Walk.Notes.request .visit).finds.accounted.bind fun allowed _ => ?_
    cases allowed with
    | false => exact Walk.overLimit_accounted id
    | true =>
      obtain ⟨n, hn⟩ := Option.isSome_iff_exists.mp hid
      rw [if_pos rfl, hn]
      refine (visit_accounted hg ih hn).bind fun next hnext => ?_
      cases next with
      | node id' => exact ih _ id' (hnext id' rfl)
      | stop flow => exact .pure trivial

/-- In a checked graph, every run from a node of it is accounted for. -/
theorem runFrom_accounted (hg : st.graph.Checked) {start : String} (hs : st.graph.isDeclared start) (c : Context) :
    (runFrom st start c).Secures R (Outcome.Accounted st R) fun o =>
      Accounted st R (fun _ : Flow => True) { context := c } o.ending o.scope := by
  refine Process.secures_bind.mpr fun _ _ => Process.secures_bind.mpr (Process.secures_bind.mpr ?_)
  exact Process.Secures.mono (segment_accounted hg _ [] start hs { context := c }) fun _ h _ _ => h

end Execution

end Capability
