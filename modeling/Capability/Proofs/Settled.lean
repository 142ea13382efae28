/-
  Capability.Proofs.Settled — what a run leaves behind is in order.

  The path, the counters and the history of a scope are written at different moments, and
  those of a branch are folded back apart from each other. A scope is settled when they say
  the same: every step is over, the path shows the steps that no cancellation interrupted, and
  the counters count the steps. A scope is unsettled only while a step is open in it.

  (1) `Grows.settledSince`: whatever a strand does leaves a settled scope settled.
  (2) `every_result_is_settled`: so is the result of a run, whoever answers whatever.
  (3) `rehearsal_settled`: and that of every rehearsal.
-/

import Capability.Proofs.Growth
import Capability.Proofs.Plays
import Mathlib

namespace Capability

/-- A path and counters tell the same as some steps. -/
structure Tally (path : List String) (counters : Counters) (steps : List Step) : Prop where
  finished : ∀ e ∈ steps, e.status.isFinished = true
  path : path = (steps.filter fun e => !e.interrupted).map (·.node)
  /-- A step that a cancellation interrupted counts as skipped. -/
  interrupted : ∀ e ∈ steps, e.interrupted = true → e.status = .skipped ∧ e.error = some "cancelled"
  executed : counters.executed = steps.countP (·.status = .completed)
  failed : counters.failed = steps.countP (·.status = .failed)
  skipped : counters.skipped = steps.countP (·.status = .skipped)
  retries : counters.retries = (steps.map (·.retryCount)).sum

namespace Tally

theorem nil : Tally [] {} [] := by
  constructor <;> simp

theorem append {p q : List String} {c d : Counters} {ss es : List Step} (h : Tally p c ss) (h' : Tally q d es) :
    Tally (p ++ q) (c + d) (ss ++ es) where
  finished e he := (List.mem_append.mp he).elim (h.finished e) (h'.finished e)
  path := by simp [h.path, h'.path]
  interrupted e he := (List.mem_append.mp he).elim (h.interrupted e) (h'.interrupted e)
  executed := by
    rw [List.countP_append, ← h.executed, ← h'.executed]
    rfl
  failed := by
    rw [List.countP_append, ← h.failed, ← h'.failed]
    rfl
  skipped := by
    rw [List.countP_append, ← h.skipped, ← h'.skipped]
    rfl
  retries := by
    rw [List.map_append, List.sum_append, ← h.retries, ← h'.retries]
    rfl

/-- One finished step. -/
theorem finished_step {e : Step} (hf : e.status.isFinished = true) (hi : e.interrupted = false) :
    Tally [e.node] (.ofStep e.status e.retryCount) [e] := by
  rcases StepStatus.isFinished_iff.mp hf with hs | hs | hs <;>
    constructor <;> simp [hs, hi, Counters.ofStep, StepStatus.isFinished]

/-- One step that a cancellation interrupted. -/
theorem cancelled_step {e : Step} (hs : e.status = .skipped) (hr : e.retryCount = 0)
    (he : e.error = some "cancelled") (hi : e.interrupted = true) :
    Tally [] (.ofStep .skipped 0) [e] := by
  constructor <;> simp [hs, hr, he, hi, Counters.ofStep, StepStatus.isFinished]

end Tally

/-! ## Scopes -/

namespace Scope

/-- The records of a scope tell the same. -/
def Settled (s : Scope) : Prop := Tally s.trace.path s.trace.counters s.context.history

/-- They tell the same of the steps that followed some others. -/
def SettledSince (past : List Step) (s : Scope) : Prop :=
  ∃ es, s.context.history = past ++ es ∧ Tally s.trace.path s.trace.counters es

theorem settledSince_nil {s : Scope} : s.SettledSince [] ↔ s.Settled :=
  ⟨fun ⟨_, hh, ht⟩ => by rwa [Settled, hh], fun h => ⟨_, rfl, h⟩⟩

theorem fork_settled (s : Scope) : s.fork.SettledSince [] := ⟨[], rfl, .nil⟩

/-- Every scope is settled that nothing was recorded in. -/
theorem settledSince_blank (c : Context) : SettledSince c.history { context := c } := ⟨[], (List.append_nil _).symm, .nil⟩

/-- While a step is open it stands at the end of the history, and nothing is counted. -/
theorem During.shape {s t : Scope} {node : String} (h : During (s.nextStep node) (s.beginStep node) t) :
    (∃ e : Step, t.context.history = s.context.history ++ [e] ∧ e.node = node) ∧
      t.trace.path = s.trace.path ∧ t.trace.counters = s.trace.counters := by
  induction h with
  | refl => exact ⟨⟨_, rfl, rfl⟩, rfl, rfl⟩
  | noting fs _ ih => exact ih
  | awaitStep _ ih =>
    obtain ⟨⟨e, he, hn⟩, hp, hc⟩ := ih
    refine ⟨⟨{ e with status := .waiting }, ?_, hn⟩, hp, hc⟩
    simp only [Scope.awaitStep, Context.modifyStep, nextStep, he, Context.modify_last]
  | set key value _ ih => exact ih

section Since

variable {past : List Step}

/-- What is recorded next settles the scope again. -/
theorem SettledSince.next {s t : Scope} {path : List String} {counters : Counters} {es : List Step} (hs : s.SettledSince past)
    (h : Tally path counters es) (hp : t.trace.path = s.trace.path ++ path) (hc : t.trace.counters = s.trace.counters + counters)
    (hh : t.context.history = s.context.history ++ es) : t.SettledSince past := by
  obtain ⟨es₀, hh₀, hs⟩ := hs
  exact ⟨es₀ ++ es, by rw [hh, hh₀, List.append_assoc], by rw [hp, hc]; exact hs.append h⟩

/-- So does a step that is finished. -/
theorem SettledSince.finish {s t : Scope} {node : String} (hs : s.SettledSince past)
    (hd : During (s.nextStep node) (s.beginStep node) t) {status : StepStatus} (report : StepReport)
    (hf : status.isFinished = true) : (t.finishStep (s.nextStep node) status report).SettledSince past := by
  obtain ⟨⟨e, he, rfl⟩, hp, hc⟩ := hd.shape
  have step := Tally.finished_step (e := { e with
    status, result := report.result, error := report.error, fallbackUsed := report.fallbackUsed,
    retryCount := report.retryCount, interrupted := false }) hf rfl
  refine hs.next step ?_ ?_ ?_ <;>
    simp only [finishStep, closeStep, Context.modifyStep, nextStep, he, Context.modify_last, hp, hc]

/-- So does a step that a cancellation interrupts. -/
theorem SettledSince.cancel {s t : Scope} {node : String} (hs : s.SettledSince past)
    (hd : During (s.nextStep node) (s.beginStep node) t) : (t.cancelStep (s.nextStep node)).SettledSince past := by
  obtain ⟨⟨e, he, rfl⟩, hp, hc⟩ := hd.shape
  have step := Tally.cancelled_step (e := { e with
    status := .skipped, result := none, error := some "cancelled", fallbackUsed := false,
    retryCount := 0, interrupted := true }) rfl rfl rfl rfl
  refine hs.next step ?_ ?_ ?_ <;>
    simp only [cancelStep, closeStep, Context.modifyStep, nextStep, he, Context.modify_last, hp, hc, List.append_nil]

theorem SettledSince.merge {s b : Scope} (hs : s.SettledSince past) (hb : b.Settled) : (s.merge b).SettledSince past :=
  hs.next hb rfl rfl (Context.history_merge ..)

theorem SettledSince.absorb {s b : Scope} (hs : s.SettledSince past) (hb : b.Settled) : (s.absorb b).SettledSince past :=
  hs.next hb rfl rfl rfl

end Since

/-- Whatever a strand does leaves a settled scope settled. -/
theorem Grows.settledSince {s t : Scope} (h : s.Grows t) {past : List Step} (hs : s.SettledSince past) : t.SettledSince past := by
  induction h generalizing past with
  | refl => exact hs
  | noting fs _ ih => exact ih hs
  | set key value _ ih => exact ih hs
  | countPass _ ih =>
    obtain ⟨es, hh, hf, hp, hi, he, hx, hk, hr⟩ := ih hs
    exact ⟨es, hh, hf, hp, hi, he, hx, hk, hr⟩
  | finish report _ hd hf ih => exact (ih hs).finish hd report hf
  | cancel _ hd ih => exact (ih hs).cancel hd
  | merge _ _ ih ihb => exact (ih hs).merge (settledSince_nil.mp (ihb (fork_settled _)))
  | absorb _ _ ih ihb => exact (ih hs).absorb (settledSince_nil.mp (ihb (fork_settled _)))

end Scope

/-! ## Runs -/

namespace Execution

/-- The process of a run is that of its graph from the start node. -/
theorem start_of_run {s : Setting} {c : Context} {p : Process Outcome} (h : run s c = .ok p) :
    ∃ n, s.graph.start? = some n ∧ p = runFrom s n.id c := by
  unfold run at h
  dsimp only at h
  split at h
  · split at h
    · next n hn =>
      cases h
      exact ⟨n, hn, rfl⟩
    · cases h
  · cases h

theorem run_eq {s : Setting} {c : Context} {p : Process Outcome} (h : run s c = .ok p) :
    ∃ start, p = runFrom s start c := by
  obtain ⟨n, -, rfl⟩ := start_of_run h
  exact ⟨n.id, rfl⟩

/-- What a run records of its steps settles its scope. -/
theorem Course.settledSince {limit : Nat} {b : Bool} {s : Setting} {c : Context} {p : Process Outcome} {w w' : Shared}
    {acts : List Act} {o : Outcome} (hr : run s c = .ok p) (h : Course limit b (.at p) w acts (.finished o) w') :
    o.scope.SettledSince c.history := by
  obtain ⟨start, rfl⟩ := run_eq hr
  have grown : Scope.Grows { context := c } o.scope :=
    h.ensured (runFrom_ensures (J := fun _ => True) s trivial start c)
  exact grown.settledSince (Scope.settledSince_blank c)

/-- A run that began without a history ends in a settled scope. -/
theorem Course.settled {limit : Nat} {b : Bool} {s : Setting} {c : Context} {p : Process Outcome} {w w' : Shared}
    {acts : List Act} {o : Outcome} (hr : run s c = .ok p) (hc : c.history = [])
    (h : Course limit b (.at p) w acts (.finished o) w') : o.scope.Settled :=
  Scope.settledSince_nil.mp (hc ▸ h.settledSince hr)

/-- So does a rehearsal, whatever its script answers and whenever it is cancelled. -/
theorem rehearsal_settled {s : Setting} {c : Context} {script : Rehearsal.Script} {withdrawal : Option Nat}
    {r : Rehearsal.Report} (h : Rehearsal.rehearse s c script withdrawal = .ok r) (hc : c.history = []) :
    Tally r.result.path r.result.counters r.result.steps := by
  obtain ⟨p, acts, o, w', elapsedMs, hp, hcourse, he⟩ := rehearse_course h
  rw [he]
  exact hcourse.settled hp hc

/-- The result of a run that began without a history: all its steps are over, the path shows
    those that were not closed by an interruption, and the counters count them. -/
theorem every_result_is_settled {s : Setting} {c : Context} {p : Process Outcome} {w w' : Shared}
    {acts : List Act} {o : Outcome} (hr : run s c = .ok p) (hc : c.history = [])
    (h : Course s.config.maxVisits false (.at p) w acts (.finished o) w') (elapsedMs : Nat) :
    let r := o.result s.graph elapsedMs
    (∀ e ∈ r.steps, e.status = .completed ∨ e.status = .failed ∨ e.status = .skipped) ∧
      r.path = (r.steps.filter fun e => !e.interrupted).map (·.node) ∧
      r.counters.executed = r.steps.countP (·.status = .completed) ∧
      r.counters.failed = r.steps.countP (·.status = .failed) ∧
      r.counters.skipped = r.steps.countP (·.status = .skipped) ∧
      r.counters.retries = (r.steps.map (·.retryCount)).sum := by
  have settled := h.settled hr hc
  exact ⟨fun e he => StepStatus.isFinished_iff.mp (settled.finished e he), settled.path, settled.executed,
    settled.failed, settled.skipped, settled.retries⟩

/-- A branch that lost a race has a step, which is skipped, but no place in the path. -/
theorem a_lost_race_is_settled : ∃ r : Rehearsal.Report,
    Rehearsal.rehearse rivals {} slowOne none = .ok r ∧
      r.result.steps.map (·.node) = ["start", "fork", "a", "b", "meet", "end"] ∧
      r.result.path = ["start", "fork", "b", "meet", "end"] ∧
      (∀ e ∈ r.result.steps, e.status = .completed ∨ e.status = .failed ∨ e.status = .skipped) ∧
      r.result.path = (r.result.steps.filter fun e => !e.interrupted).map (·.node) ∧
      r.result.counters.skipped = r.result.steps.countP (·.status = .skipped) := by
  have shown : (Rehearsal.rehearse rivals {} slowOne none).toOption.map
      (fun r => (r.result.steps.map (·.node), r.result.path)) =
      some (["start", "fork", "a", "b", "meet", "end"], ["start", "fork", "b", "meet", "end"]) := by
    decide +kernel
  obtain ⟨r, hr, hshown⟩ := Option.map_eq_some_iff.mp shown
  obtain ⟨steps, path⟩ := Prod.mk.inj hshown
  obtain ⟨p, acts, o, w', elapsedMs, hp, hc, he⟩ := rehearse_course (ok_of_toOption hr)
  obtain ⟨finished, shows, -, -, skipped, -⟩ := every_result_is_settled hp rfl hc elapsedMs
  rw [← he] at finished shows skipped
  exact ⟨r, ok_of_toOption hr, steps, path, finished, shows, skipped⟩

end Execution

end Capability
