/-
  Capability.Proofs.Retries — the retries of a run are those that its steps report.

  The trials that a run shows belong to its visits of skill nodes. Those of different branches are
  mingled, so they are told apart by the steps that the visits left in the history. Every attempt that
  is shown was called, but for some that a cancellation answered; and a visit that no cancellation
  interrupts has no attempt that one answers.

  (1) `Course.perm_called`: the calls that a run makes are its attempts.
  (2) `Chronicle.visits`: the trials of a run are those of its visits of skill nodes.
  (3) `retries_are_accounted_for`: each visit reports its retries, and the counters of the run add
      them up.
-/

import Capability.Proofs.Chronicle
import Capability.Proofs.Exhaustion

namespace Capability.Execution

/-! ## Calls and answers -/

/-- The attempt that is over with an act, and its answer. -/
def Act.attempt? (act : Act) : Option (Invocation × Answer) := act.deed?.bind Deed.attempt?

theorem attemptsIn_deedsIn (acts : List Act) : attemptsIn (deedsIn acts) = acts.filterMap Act.attempt? :=
  List.filterMap_filterMap ..

section Calls

variable {limit : Nat} {α : Type} {b : Bool} {s s' : Standing α} {w w' : Shared}

/-- What was called before an act, and by it, is answered by it or called behind it. Nothing else is
    answered but what was cancelled before it was called. -/
def Settles (before : List Invocation) (act : Act) (behind : List Invocation) : Prop :=
  ∃ made unmade, act.attempt?.toList = made ++ unmade ∧ (∀ p ∈ unmade, p.2 = .cancelled) ∧
    (before ++ act.invocation?.toList).Perm (made.map (·.1) ++ behind)

theorem Settles.idle {act : Act} {called : List Invocation} (ha : act.attempt? = none) (hi : act.invocation? = none) :
    Settles called act called :=
  ⟨[], [], by rw [ha]; rfl, List.forall_mem_nil _, by simp [hi]⟩

theorem Settles.called {act : Act} {i : Invocation} (ha : act.attempt? = none) (hi : act.invocation? = some i) :
    Settles [] act [i] :=
  ⟨[], [], by rw [ha]; rfl, List.forall_mem_nil _, by simp [hi]⟩

theorem Settles.answered {act : Act} {i : Invocation} {answer : Answer} (ha : act.attempt? = some (i, answer))
    (hi : act.invocation? = none) : Settles [i] act [] :=
  ⟨[(i, answer)], [], by rw [ha]; rfl, List.forall_mem_nil _, by simp [hi]⟩

/-- What is settled in a branch is settled beside other calls. -/
theorem Settles.beside {act : Act} {before behind others : List Invocation} (h : Settles before act behind) :
    Settles (before ++ others) act (behind ++ others) := by
  obtain ⟨made, unmade, hparts, hunmade, hperm⟩ := h
  refine ⟨made, unmade, hparts, hunmade, ?_⟩
  calc List.Perm ((before ++ others) ++ act.invocation?.toList) ((before ++ act.invocation?.toList) ++ others) := by
        rw [List.append_assoc, List.append_assoc]
        exact List.perm_append_comm.append_left _
    List.Perm _ ((made.map (·.1) ++ behind) ++ others) := hperm.append_right _
    List.Perm _ (made.map (·.1) ++ (behind ++ others)) := by rw [List.append_assoc]

theorem Settles.perm {act : Act} {before before' behind behind' : List Invocation} (h : Settles before act behind)
    (hb : before'.Perm before) (hb' : behind'.Perm behind) : Settles before' act behind' := by
  obtain ⟨made, unmade, hparts, hunmade, hperm⟩ := h
  exact ⟨made, unmade, hparts, hunmade, (hb.append_right _).trans (hperm.trans (hb'.symm.append_left _))⟩

/-- Whatever becomes of a branch, what it called may come before what all the others called. -/
theorem perm_called_update {n : Nat} (i : Fin n) (branches : Fin n → Standing Outcome) (t : Standing Outcome) :
    (List.ofFn fun j => (Function.update branches i t j).called).flatten.Perm
      (t.called ++ (List.ofFn (Function.update (fun j => (branches j).called) i [])).flatten) := by
  have updated : (fun j => (Function.update branches i t j).called) = Function.update (fun j => (branches j).called) i t.called := by
    funext j
    by_cases e : j = i
    · subst e; simp
    · simp [Function.update_of_ne e]
  have moved := perm_flatten_update i t.called (Function.update (fun j => (branches j).called) i [])
  rw [Function.update_self, List.append_nil, Function.update_idem] at moved
  rw [updated]
  exact moved.symm

theorem Move.settles {act : Act} (h : Move limit b s w act s' w') : Settles s.called act s'.called := by
  induction h with
  | visit | stopped | notify | pause | cut | finish => exact .idle rfl rfl
  | call k =>
    cases k with
    | skill i => exact .called rfl rfl
    | question q => exact .idle rfl rfl
  | skip k =>
    cases k with
    | skill i => exact ⟨[], [(i, .cancelled)], rfl, by simp, .refl _⟩
    | question q => exact .idle rfl rfl
  | answer k | expire k | interrupt k =>
    cases k with
    | skill i => exact .answered rfl rfl
    | question q => exact .idle rfl rfl
  | «open» =>
    refine Settles.perm (.idle rfl rfl) (.refl []) ?_
    simp [Standing.called]
  | @branch _ _ _ _ _ _ branches _ _ i act t _ ih =>
    have before := perm_called_update i branches (branches i)
    rw [Function.update_eq_self] at before
    exact Settles.perm ih.beside before (perm_called_update i branches t)
  | gather outcomes ho =>
    refine Settles.perm (.idle rfl rfl) ?_ (.refl [])
    simp [Standing.called, ho]

/-- Every call of a course that comes to its end is answered, and nothing else is but what was cancelled
    before it was called. -/
theorem Course.perm_called {acts : List Act} {a : α} (h : Course limit b s w acts (.finished a) w') :
    ∃ made unmade, (attemptsIn (deedsIn acts)).Perm (made ++ unmade) ∧ (∀ p ∈ unmade, p.2 = .cancelled) ∧
      (made.map (·.1)).Perm (s.called ++ invocationsIn acts) := by
  rw [attemptsIn_deedsIn]
  generalize ht : Standing.finished a = t at h
  induction h with
  | stay =>
    subst ht
    exact ⟨[], [], .refl _, List.forall_mem_nil _, .refl _⟩
  | @move s s₁ _ _ _ _ act acts hm _ ih =>
    obtain ⟨made₁, unmade₁, hparts, hunmade₁, hperm₁⟩ := hm.settles
    obtain ⟨made₂, unmade₂, hattempts, hunmade₂, hperm₂⟩ := ih ht
    have attempts : (act :: acts).filterMap Act.attempt? = act.attempt?.toList ++ acts.filterMap Act.attempt? := by
      cases ha : act.attempt? <;> simp [ha]
    have calls : invocationsIn (act :: acts) = act.invocation?.toList ++ invocationsIn acts := by
      cases ha : act.invocation? <;> simp [invocationsIn, ha]
    refine ⟨made₁ ++ made₂, unmade₁ ++ unmade₂, ?_, List.forall_mem_append.mpr ⟨hunmade₁, hunmade₂⟩, ?_⟩
    · rw [attempts, hparts]
      calc List.Perm ((made₁ ++ unmade₁) ++ acts.filterMap Act.attempt?) ((made₁ ++ unmade₁) ++ (made₂ ++ unmade₂)) :=
            hattempts.append_left _
        List.Perm _ ((made₁ ++ made₂) ++ (unmade₁ ++ unmade₂)) := by
          simp only [List.append_assoc]
          refine List.Perm.append_left _ ?_
          simp only [← List.append_assoc]
          exact List.perm_append_comm.append_right _
    · rw [calls, List.map_append]
      calc List.Perm (made₁.map (·.1) ++ made₂.map (·.1)) (made₁.map (·.1) ++ (s₁.called ++ invocationsIn acts)) :=
            hperm₂.append_left _
        List.Perm _ ((s.called ++ act.invocation?.toList) ++ invocationsIn acts) := by
          rw [← List.append_assoc]
          exact hperm₁.symm.append_right _
        List.Perm _ (s.called ++ (act.invocation?.toList ++ invocationsIn acts)) := by
          rw [List.append_assoc]
  | elsewhere _ _ _ ih => exact ih ht

end Calls

/-! ## Visits of skill nodes -/

/-- A visit of a skill node: what a run shows of its trials, and the step that it records. -/
structure SkillVisit where
  node : Node
  trials : List Deed
  step : Step

/-- Unless it was interrupted its step reports the retries among its trials, and what they came to. -/
structure SkillVisit.Exact (g : Graph) (v : SkillVisit) : Prop where
  declared : g.node? v.step.node = some v.node
  skill : v.node.kind = .skill
  reckoned : v.step.interrupted = false → Reckoned g v.node v.trials v.step.retryCount
  bestows : v.step.interrupted = false → v.step.status = .completed → Bestows v.trials v.step.report

/-- Whether a step is one of a skill node. -/
def ofSkill (g : Graph) (e : Step) : Bool := g.kind? e.node = some .skill

/-- Some visits of skill nodes are those whose steps are among some others, and whose trials are among
    some deeds, each in its own order. The others report no retries, nor do those that were interrupted. -/
structure Visits (g : Graph) (ds : List Deed) (es : List Step) (vs : List SkillVisit) : Prop where
  steps : vs.map (·.step) = es.filter (ofSkill g)
  trials : Mingled (vs.map (·.trials)) (trialsIn ds)
  exact : ∀ v ∈ vs, v.Exact g
  others : ∀ e ∈ es, ofSkill g e = false ∨ e.interrupted = true → e.retryCount = 0

section Visits

variable {g : Graph} {ds ds' : List Deed} {es es' : List Step} {vs vs' : List SkillVisit}

theorem Visits.nil (h : trialsIn ds = []) : Visits g ds [] [] := ⟨rfl, h ▸ .flatten [], by simp, by simp⟩

theorem Visits.append (h : Visits g ds es vs) (h' : Visits g ds' es' vs') : Visits g (ds ++ ds') (es ++ es') (vs ++ vs') where
  steps := by rw [List.map_append, List.filter_append, h.steps, h'.steps]
  trials := by
    rw [trialsIn_append, List.map_append]
    exact h.trials.append h'.trials
  exact := List.forall_mem_append.mpr ⟨h.exact, h'.exact⟩
  others := List.forall_mem_append.mpr ⟨h.others, h'.others⟩

theorem trialsIn_step (n : Node) (status : StepStatus) (ds : List Deed) :
    trialsIn (Walk.opening n ++ (ds ++ Walk.closing n status)) = trialsIn ds := by
  have opening : trialsIn (Walk.opening n) = [] := rfl
  have closing : trialsIn (Walk.closing n status) = [] := rfl
  rw [trialsIn_append, trialsIn_append, opening, closing, List.nil_append, List.append_nil]

/-- A step is one visit if it is that of a skill node, and none otherwise. -/
theorem Account.visits {n : Node} {trials : List Deed} {e : Step} (h : Account g n trials e) (hn : g.node? n.id = some n)
    (he : e.node = n.id) (ht : trialsIn ds = trials) : ∃ vs, Visits g ds [e] vs := by
  have kind : g.kind? e.node = some n.kind := he ▸ Graph.kind?_of_node? hn
  have none (hk : n.kind ≠ .skill) (ht : trialsIn ds = []) (hr : e.retryCount = 0) : Visits g ds [e] [] := by
    have plain : ofSkill g e = false := by simp [ofSkill, kind, hk]
    exact ⟨by simp [plain], ht ▸ .flatten [], by simp, List.forall_mem_singleton.mpr fun _ => hr⟩
  have one (hk : n.kind = .skill) (hx : SkillVisit.Exact g ⟨n, trials, e⟩) (hr : e.interrupted = true → e.retryCount = 0) :
      Visits g ds [e] [⟨n, trials, e⟩] := by
    have skilled : ofSkill g e = true := by simp [ofSkill, kind, hk]
    refine ⟨by simp [skilled], ht ▸ .single _, List.forall_mem_singleton.mpr hx, List.forall_mem_singleton.mpr fun ho => ?_⟩
    exact hr (ho.resolve_left (by simp [skilled]))
  have declared : g.node? e.node = some n := he ▸ hn
  cases h with
  | finished calm hw =>
    have kept (hi : e.interrupted = true) : e.retryCount = 0 := by simp [calm] at hi
    cases hw with
    | idle hk hr => exact ⟨_, none hk ht hr⟩
    | tried hk hr hb => exact ⟨_, one hk ⟨declared, hk, fun _ => hr, fun _ => hb⟩ kept⟩
  | interrupted hi hr hs =>
    by_cases hk : n.kind = .skill
    · exact ⟨_, one hk ⟨declared, hk, fun calm => by simp [hi] at calm, fun calm => by simp [hi] at calm⟩ fun _ => hr⟩
    · exact ⟨_, none hk (ht.trans (hs hk)) hr⟩

/-- What a run shows of trials belongs to the steps of skill nodes that it records. -/
theorem Chronicle.visits {fs : List ConditionFailure} (h : Chronicle g ds es fs) : ∃ vs, Visits g ds es vs := by
  induction h with
  | aside _ ht => exact ⟨[], .nil ht⟩
  | append _ _ ih ih' =>
    obtain ⟨vs, h⟩ := ih
    obtain ⟨vs', h'⟩ := ih'
    exact ⟨vs ++ vs', h.append h'⟩
  | step hn he _ _ _ account => exact account.visits hn he (trialsIn_step _ _ _)
  | @split n branches ds _ _ hb hd ih =>
    choose! visits own using ih
    refine ⟨branches.flatMap visits, ?_, ?_, fun v hv => ?_, fun e he => ?_⟩
    · rw [List.map_flatMap, List.filter_flatMap]
      exact List.flatMap_congr fun b hb => (own b hb).steps
    · have shown : Mingled (branches.map fun b => trialsIn b.1) (trialsIn ds) := by simpa [trialsIn, Function.comp_def] using hd.filter _
      simpa only [List.map_flatMap] using shown.nested fun b hb => (own b hb).trials
    · obtain ⟨b, hb, hv⟩ := List.mem_flatMap.mp hv
      exact (own b hb).exact v hv
    · obtain ⟨b, hb, he⟩ := List.mem_flatMap.mp he
      exact (own b hb).others e he

/-- All retries that are reported are reported by visits that were not interrupted. -/
theorem Visits.retries (h : Visits g ds es vs) :
    (es.map (·.retryCount)).sum = ((vs.filter fun v => !v.step.interrupted).map (·.step.retryCount)).sum := by
  have kept : (vs.filter fun v => !v.step.interrupted).map (·.step.retryCount) =
      (es.filter fun e => ofSkill g e = true ∧ e.interrupted = false).map (·.retryCount) := by
    have steps := congrArg (fun es => (es.filter fun e => !e.interrupted).map (·.retryCount)) h.steps
    simp only [List.filter_map, List.map_map, List.filter_filter] at steps
    refine Eq.trans steps (congrArg _ (List.filter_congr fun e _ => ?_))
    cases e.interrupted <;> cases ofSkill g e <;> rfl
  have rest : ((es.filter fun e => ¬(ofSkill g e = true ∧ e.interrupted = false)).map (·.retryCount)).sum = 0 := by
    refine List.sum_eq_zero fun k hk => ?_
    obtain ⟨e, he, rfl⟩ := List.mem_map.mp hk
    obtain ⟨he, hout⟩ := List.mem_filter.mp he
    refine h.others e he ?_
    cases hs : ofSkill g e
    · exact .inl rfl
    · exact .inr (by simpa [hs] using hout)
  rw [kept, ← List.sum_map_filter_add_sum_map_filter_not (fun e => ofSkill g e = true ∧ e.interrupted = false), rest, Nat.add_zero]

end Visits

/-! ## Runs -/

/-- Whoever answers whatever and whenever a run is cancelled, the trials that it shows are those of its
    visits of skill nodes, each in its own order and with a step of its own. All calls that the run
    makes are among its attempts, and all attempts among its calls but for some that a cancellation
    answered. A visit that is not interrupted makes attempts at the skill of its node and at
    implementations, none of which a cancellation answers: for each of these they are numbered from
    zero, and all of them have the same variables. There is one for each of these and one more for each
    retry that its step reports, and as many retries are announced. If the visit is completed its last
    attempt gave the value, and its step shows a fallback just when that was one at an implementation.
    The counters of the run add up what these steps report. -/
theorem retries_are_accounted_for {s : Setting} {c : Context} {p : Process Outcome} {w w' : Shared} {acts : List Act} {o : Outcome}
    (hr : run s c = .ok p) (h : Course s.config.maxVisits false (.at p) w acts (.finished o) w') (elapsedMs : Nat) :
    let r := o.result s.graph elapsedMs
    ∃ (es : List Step) (vs : List SkillVisit) (made unmade : List (Invocation × Answer)), r.steps = c.history ++ es ∧
      vs.map (·.step) = es.filter (ofSkill s.graph) ∧ Mingled (vs.map (·.trials)) (trialsIn (deedsIn acts)) ∧
      (attemptsIn (deedsIn acts)).Perm (made ++ unmade) ∧ (∀ p ∈ unmade, p.2 = .cancelled) ∧
      (made.map (·.1)).Perm (invocationsIn acts) ∧
      (∀ v ∈ vs, s.graph.node? v.step.node = some v.node ∧ v.node.kind = .skill ∧ (v.step.interrupted = false →
        ∃ u skill tried rounds, Reckoning s.graph v.node u skill tried rounds v.trials v.step.retryCount ∧
          (attemptsIn v.trials).length = 1 + v.step.retryCount + tried.length ∧
          (retriesIn v.trials).length = v.step.retryCount ∧
          (v.step.status = .completed → Bestows v.trials v.step.report))) ∧
      r.counters.retries = ((vs.filter fun v => !v.step.interrupted).map (·.step.retryCount)).sum := by
  intro r
  obtain ⟨between, hdeeds, es, fs, hes, -, chronicle⟩ := h.chronicled hr
  obtain ⟨vs, visits⟩ := chronicle.visits
  obtain ⟨made, unmade, hattempts, hunmade, hcalls⟩ := h.perm_called
  have shown : trialsIn (deedsIn acts) = trialsIn between := by
    have ends : trialsIn [.told (.event (.runFinished (statusOf o.ending)))] = [] := rfl
    rw [hdeeds, ← List.append_nil (trialsIn between), ← ends, ← trialsIn_append]
    rfl
  refine ⟨es, vs, made, unmade, hes, visits.steps, shown ▸ visits.trials, hattempts, hunmade, hcalls, fun v hv => ?_, ?_⟩
  · obtain ⟨declared, skill, reckoned, bestows⟩ := visits.exact v hv
    refine ⟨declared, skill, fun calm => ?_⟩
    obtain ⟨u, skill, tried, rounds, reckoning⟩ := reckoned calm
    exact ⟨u, skill, tried, rounds, reckoning, reckoning.attempts_length, reckoning.retries_length, bestows calm⟩
  · obtain ⟨es', hes', tally⟩ := h.settledSince hr
    obtain rfl : es = es' := List.append_cancel_left (hes.symm.trans hes')
    exact tally.retries.trans visits.retries

/-- The risky node of a guarded graph may be tried three times. -/
def persistent : Setting where
  graph := { guarded.graph with id := "persistent", maxRetries := 2 }

/-- A drill that works the third time. -/
def jamming : Rehearsal.Script :=
  let jam : Rehearsal.Reply := { content := .fault fun node _ => .failed node "jammed" }
  { Rehearsal.Script.simulated with skills := [("drill", [jam, jam, { content := .value (.str "done") }])] }

/-- A drill that is called three times has two retries, which its step reports. -/
theorem a_jammed_drill_is_retried : ∃ p acts o w', run persistent {} = .ok p ∧
    Course persistent.config.maxVisits false (.at p) {} acts (.finished o) w' ∧
    (o.result persistent.graph 0).steps.map (fun e => (e.node, e.retryCount, e.interrupted)) =
      [("start", 0, false), ("risky", 2, false), ("end", 0, false)] ∧
    (attemptsIn (deedsIn acts)).length = 3 ∧ (retriesIn (deedsIn acts)).length = 2 ∧
    (o.result persistent.graph 0).counters.retries = 2 := by
  have shown : (Rehearsal.rehearse persistent {} jamming none).toOption.map
      (fun r => r.result.steps.map fun e => (e.node, e.retryCount, e.interrupted)) =
      some [("start", 0, false), ("risky", 2, false), ("end", 0, false)] := by
    decide +kernel
  obtain ⟨r, hr, steps⟩ := Option.map_eq_some_iff.mp shown
  obtain ⟨p, acts, o, w', elapsedMs, hp, hc, he⟩ := rehearse_course (ok_of_toOption hr)
  rw [he] at steps
  obtain ⟨es, vs, -, -, hes, hvs, mingled, -, -, -, exact, counted⟩ := retries_are_accounted_for hp hc 0
  have recorded : es.map (fun e => (e.node, e.retryCount, e.interrupted)) =
      [("start", 0, false), ("risky", 2, false), ("end", 0, false)] := by
    rw [← List.nil_append es]
    exact hes ▸ steps
  obtain ⟨start, _, rfl, hstart, h⟩ := List.map_eq_cons_iff.mp recorded
  obtain ⟨risky, _, rfl, hrisky, h⟩ := List.map_eq_cons_iff.mp h
  obtain ⟨finish, rfl, hfinish⟩ := List.map_eq_singleton_iff.mp h
  simp only [Prod.mk.injEq] at hstart hrisky hfinish
  -- Only the second of the three steps is that of a skill node.
  have skilled : [start, risky, finish].filter (ofSkill persistent.graph) = [risky] := by
    have before : ofSkill persistent.graph start = false := by simp only [ofSkill, hstart]; decide
    have own : ofSkill persistent.graph risky = true := by simp only [ofSkill, hrisky]; decide
    have behind : ofSkill persistent.graph finish = false := by simp only [ofSkill, hfinish]; decide
    simp [before, own, behind]
  obtain ⟨v, rfl, rfl⟩ := List.map_eq_singleton_iff.mp (hvs.trans skilled)
  obtain ⟨declared, -, accounted⟩ := exact v (.head _)
  obtain ⟨u, skill, tried, rounds, reckoning, attempts, retries, -⟩ := accounted hrisky.2.2
  rw [hrisky.1] at declared
  obtain rfl : tried = [] := by
    have plain : v.node.implementations = [] := by
      rw [← Option.some.inj declared]
      rfl
    exact List.subset_nil.mp (plain ▸ reckoning.known)
  have whole : v.trials = trialsIn (deedsIn acts) :=
    (mingled.inOrder _ (.head _)).eq_of_length (by simpa using mingled.perm.length_eq.symm)
  rw [whole, attemptsIn_trialsIn, hrisky.2.1] at attempts
  rw [whole, retriesIn_trialsIn, hrisky.2.1] at retries
  refine ⟨p, acts, o, w', hp, hc, steps, attempts, retries, counted.trans ?_⟩
  simp [hrisky]

end Capability.Execution
