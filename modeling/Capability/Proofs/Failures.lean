/-
  Capability.Proofs.Failures — how a run can fail, and what it says of it.

  (1) `a_valid_graph_fails_by_an_answer`: the run of a valid graph is never refused, and neither it
      nor a branch of it is broken off by a failure other than the visit limit or one that came as
      an answer to a call.
  (2) `failures_are_neither_lost_nor_made_up`: the status, the failure and the steps of a result
      agree about what failed.
-/

import Capability.Proofs.Accounts

namespace Capability.Execution

/-- An answer to a call of the node, in whichever branch, was the fault, or there was none before
    the time limit of the call. -/
def Act.Brings (node : String) (fault : Fault) (act : Act) : Prop :=
  ∃ k l a cancels, act.core = .answered k l a cancels ∧ k.node = node ∧
    (a = .given (.error fault) ∨ a = .timedOut ∧ ∃ d, l = some d ∧ fault = .timedOut node d.millis)

/-- The answers to calls in some acts. -/
def given (acts : List Act) : Replies := fun k l a => ∃ act ∈ acts, ∃ cancels, act.core = .answered k l a cancels

variable {s : Setting} {c : Context} {b : Bool} {w w' : Shared} {acts : List Act}

theorem given_keeps (acts : List Act) : ∀ act ∈ acts, act.Keeps (given acts) :=
  fun act h _ _ _ cancels he => ⟨act, h, cancels, he⟩

/-- A fault that is explained by the answers of a course was brought by one of its acts. -/
theorem Course.brings {limit : Nat} {α : Type} {t t' : Standing α} (h : Course limit b t w acts t' w') {node : String}
    {fault : Fault} (hx : Explained (given acts) node fault) : ∃ act ∈ acts, act.Brings node fault := by
  obtain ⟨k, l, a, ⟨act, hact, cancels, he⟩, hk, ha⟩ := hx
  refine ⟨act, hact, k, l, a, cancels, he, hk, ha.imp_right fun ⟨ht, hf⟩ => ⟨ht, ?_⟩⟩
  subst ht
  obtain ⟨d, rfl⟩ := h.limited hact he
  exact ⟨d, rfl, hf⟩

/-- The run of a valid graph is not refused. -/
theorem run_of_isValid (hv : s.graph.validate.isValid) (c : Context) :
    ∃ start, s.graph.isDeclared start ∧ run s c = .ok (runFrom s start c) := by
  obtain ⟨n, hn, hd⟩ := (Graph.checked_of_isValid hv).starts
  refine ⟨n.id, hd, ?_⟩
  simp only [run, if_pos hv, hn]

theorem isValid_of_run {p : Process Outcome} (h : run s c = .ok p) : s.graph.validate.isValid := by
  by_contra hv
  simp only [run, if_neg hv] at h
  cases h

theorem result_failed {o : Outcome} {g : Graph} {elapsedMs : Nat} (h : (o.result g elapsedMs).status = .failed) :
    ∃ node fault, o.ending = .error (.failed node fault) ∧ (o.result g elapsedMs).failure = some ⟨node, fault.message⟩ := by
  obtain ⟨ending, scope⟩ := o
  match ending with
  | .error (.failed node fault) => exact ⟨node, fault, rfl, rfl⟩
  | .error .cancelled => cases h
  | .ok _ => cases h

/-- The run of a valid graph begins, and whoever answers whatever, at every moment: if the run or
    a branch of it was broken off by a failure, the visit limit was reached, or the fault was an
    answer to a call of the node or the time limit of such a call. In particular no failure is
    due to the graph. So it is with the failure that a result shows. -/
theorem a_valid_graph_fails_by_an_answer (hv : s.graph.validate.isValid = true) (c : Context) :
    ∃ p, run s c = .ok p ∧ ∀ {w w' acts t}, Course s.config.maxVisits false (.at p) w acts t w' →
      (∀ o, t.Ended o → ∀ node fault, o.ending = .error (.failed node fault) →
        fault = .visitLimit s.config.maxVisits ∨ ∃ act ∈ acts, act.Brings node fault) ∧
      ∀ o elapsedMs, t = .finished o → (o.result s.graph elapsedMs).status = .failed →
        ∃ node fault, (o.result s.graph elapsedMs).failure = some ⟨node, fault.message⟩ ∧
          (fault = .visitLimit s.config.maxVisits ∨ ∃ act ∈ acts, act.Brings node fault) := by
  obtain ⟨start, hd, hrun⟩ := run_of_isValid hv c
  refine ⟨_, hrun, fun {w w' acts t} h => ?_⟩
  have secured := h.secures (given_keeps acts) (runFrom_accounted (Graph.checked_of_isValid hv) hd c)
  have ended (o : Outcome) (ho : t.Ended o) (node : String) (fault : Fault) (he : o.ending = .error (.failed node fault)) :
      fault = .visitLimit s.config.maxVisits ∨ ∃ act ∈ acts, act.Brings node fault := by
    obtain ⟨_, _, accounts, _⟩ | accounts := secured.ended ho
    · exact (accounts.failed node fault he).imp_right fun hx => h.brings hx.1
    · exact (Accounts.failed accounts node fault he).imp_right fun hx => h.brings hx.1
  refine ⟨ended, ?_⟩
  rintro o elapsedMs rfl hs
  obtain ⟨node, fault, he, hf⟩ := result_failed hs
  exact ⟨node, fault, hf, ended o .here node fault he⟩

/-- A risky node whose failure leads to a rescue. -/
def guarded : Setting where
  graph :=
    { id := "guarded"
      version := "1.0"
      name := ""
      description := ""
      metadata := none
      strategy := .abort
      maxRetries := 0
      retryDelay := none
      nodes := [{ id := "start", kind := .start }, .skill "risky" "drill", .skill "rescue" "tow", { id := "end", kind := .finish }]
      edges := [{ source := "start", target := "risky" }, { source := "risky", target := "end" },
        { source := "risky", target := "rescue", kind := .fallback }, { source := "rescue", target := "end" }] }

/-- Some skills fail, and all others succeed. -/
def failing (skills : List String) : Rehearsal.Script :=
  { Rehearsal.Script.simulated with
    skills := skills.map fun s => (s, [{ content := .fault fun node _ => .failed node "out of order" }]) }

/-- Where the rescue fails as well, its fault was brought by an answer. -/
theorem a_failed_rescue_is_an_answer : guarded.graph.validate.isValid = true ∧ ∃ p acts o w' fault,
    run guarded {} = .ok p ∧ Course guarded.config.maxVisits false (.at p) {} acts (.finished o) w' ∧
      (o.result guarded.graph 0).failure = some ⟨"rescue", "Node 'rescue' failed: out of order"⟩ ∧
      fault.message = "Node 'rescue' failed: out of order" ∧ ∃ act ∈ acts, act.Brings "rescue" fault := by
  have valid : guarded.graph.validate.isValid = true := by decide +kernel
  have shown : (Rehearsal.rehearse guarded {} (failing ["drill", "tow"]) none).toOption.map
      (fun r => (r.result.status, r.result.failure)) =
      some (.failed, some ⟨"rescue", "Node 'rescue' failed: out of order"⟩) := by
    decide +kernel
  obtain ⟨r, hr, hshown⟩ := Option.map_eq_some_iff.mp shown
  obtain ⟨p, acts, o, w', elapsedMs, hp, hc, he⟩ := rehearse_course (ok_of_toOption hr)
  rw [he] at hshown
  obtain ⟨status, failure⟩ := Prod.mk.inj hshown
  obtain ⟨q, hq, explained⟩ := a_valid_graph_fails_by_an_answer valid {}
  obtain rfl : p = q := Except.ok.inj (hp.symm.trans hq)
  obtain ⟨node, fault, hf, hx⟩ := (explained hc).2 o 0 rfl status
  have same : (o.result guarded.graph 0).failure = some ⟨"rescue", "Node 'rescue' failed: out of order"⟩ := failure
  rw [same] at hf
  obtain ⟨rfl, hm⟩ := NodeFailure.mk.inj (Option.some.inj hf)
  refine ⟨valid, p, acts, o, w', fault, hp, hc, failure, hm.symm, hx.resolve_left ?_⟩
  rintro rfl
  exact absurd hm (by decide +kernel)

/-- The result of a run that began without a history: it shows a failure just when it failed, and
    succeeded just when it was completed. What failed it is the visit limit or stands in a failed
    step of that node. Unless branches raced, a run is completed only if every step that failed
    was left along a fallback edge. -/
theorem failures_are_neither_lost_nor_made_up {p : Process Outcome} {o : Outcome} (hr : run s c = .ok p)
    (hc : c.history = []) (h : Course s.config.maxVisits false (.at p) w acts (.finished o) w') (elapsedMs : Nat) :
    let r := o.result s.graph elapsedMs
    (r.status = .failed ↔ r.failure.isSome) ∧ (r.succeeded = true ↔ r.status = .completed) ∧
      (∀ f, r.failure = some f → f.error ≠ (Fault.visitLimit s.config.maxVisits).message →
        ∃ e ∈ r.steps, e.node = f.node ∧ e.status = .failed ∧ e.error = some f.error) ∧
      (s.graph.strategy ≠ .firstSuccess → r.status = .completed →
        ∀ e ∈ r.steps, e.status = .failed → Rerouted s.graph e) := by
  have hv := isValid_of_run hr
  obtain ⟨start, hd, hrun⟩ := run_of_isValid hv c
  obtain rfl : p = _ := Except.ok.inj (hr.symm.trans hrun)
  obtain ⟨es, hes, accounts, -⟩ := h.secured (given_keeps acts) (runFrom_accounted (Graph.checked_of_isValid hv) hd c)
  obtain rfl : es = o.scope.context.history := by simpa [hc] using hes.symm
  obtain ⟨ending, scope⟩ := o
  refine ⟨?_, by simp [RunResult.succeeded], fun f hf hl => ?_, fun hs hcompleted => ?_⟩
  · rcases ending with (_ | _) | _ <;> simp [Outcome.result, RunResult.ofScope, statusOf, failureOf]
  · match ending with
    | .error (.failed node fault) =>
      cases hf
      obtain ⟨-, e, he, hnode, hstatus, herror⟩ := (accounts.failed node fault rfl).resolve_left fun hlimit => hl (hlimit ▸ rfl)
      exact ⟨e, he, hnode, hstatus, herror⟩
    | .error .cancelled => cases hf
    | .ok _ => cases hf
  · match ending with
    | .ok flow => exact accounts.kept (if_neg hs) ⟨flow, rfl⟩
    | .error .cancelled => cases hcompleted
    | .error (.failed _ _) => cases hcompleted

/-- Where the rescue succeeds, the risky node has a failed step, which was left along its fallback
    edge. -/
theorem a_rescued_failure_is_rerouted : ∃ r : Rehearsal.Report,
    Rehearsal.rehearse guarded {} (failing ["drill"]) none = .ok r ∧ r.result.status = .completed ∧
      r.result.steps.map (fun e => (e.node, e.status)) =
        [("start", .completed), ("risky", .failed), ("rescue", .completed), ("end", .completed)] ∧
      ∀ e ∈ r.result.steps, e.status = .failed → Rerouted guarded.graph e := by
  have shown : (Rehearsal.rehearse guarded {} (failing ["drill"]) none).toOption.map
      (fun r => (r.result.status, r.result.steps.map fun e => (e.node, e.status))) =
      some (.completed, [("start", .completed), ("risky", .failed), ("rescue", .completed), ("end", .completed)]) := by
    decide +kernel
  obtain ⟨r, hr, hshown⟩ := Option.map_eq_some_iff.mp shown
  obtain ⟨status, steps⟩ := Prod.mk.inj hshown
  obtain ⟨p, acts, o, w', elapsedMs, hp, hc, he⟩ := rehearse_course (ok_of_toOption hr)
  obtain ⟨-, -, -, rerouted⟩ := failures_are_neither_lost_nor_made_up hp rfl hc elapsedMs
  rw [← he] at rerouted
  exact ⟨r, ok_of_toOption hr, status, steps, rerouted (by decide) status⟩

end Capability.Execution
