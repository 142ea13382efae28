/-
  Capability.Proofs.Chronicle — what a run shows, side by side with what it records.

  A chronicle puts what is shown by a strand beside the steps and the failed conditions that it
  records: asides, whole steps with the asides during them, and splits, whose branches show what
  they do in some order but record it in that of their declaration. Trials are shown during the steps
  of skill nodes only, which report them.

  (1) `Walk.Concludes`: a step that is open is closed, whatever becomes of its node.
  (2) `segment_chronicles`: what a segment shows and records is a chronicle, with all that is inside.
  (3) `Course.chronicled`: so is what is seen of a run, between its beginning and its end.
-/

import Capability.Proofs.Asides
import Capability.Proofs.Justification
import Capability.Proofs.Reckoning

namespace Capability.Execution

variable {α β : Type} {g : Graph}

/-! ## Chronicles -/

/-- What a strand shows, with the steps and the failed conditions that it records meanwhile. -/
inductive Chronicle (g : Graph) : List Deed → List Step → List ConditionFailure → Prop
  | aside {ds : List Deed} {fs : List ConditionFailure} : Aside g none ds fs → trialsIn ds = [] → Chronicle g ds [] fs
  | append {ds ds' : List Deed} {es es' : List Step} {fs fs' : List ConditionFailure} : Chronicle g ds es fs →
      Chronicle g ds' es' fs' → Chronicle g (ds ++ ds') (es ++ es') (fs ++ fs')
  | step {n : Node} {ds : List Deed} {e : Step} {status : StepStatus} {fs : List ConditionFailure} : g.node? n.id = some n →
      e.node = n.id → e.status = status → Aside g (some n) ds fs →
      (n.kind = .skill → Served ds → Step.Smooth e ∧ FallbackFree ds) → Account g n (trialsIn ds) e →
      Chronicle g (Walk.opening n ++ (ds ++ Walk.closing n status)) [e] fs
  /-- Each branch of a split keeps a chronicle of its own; what they show is seen in some order. -/
  | split {n : Node} {branches : List (List Deed × List Step × List ConditionFailure)} {ds : List Deed} :
      g.node? n.id = some n → n.kind = .split → (∀ b ∈ branches, Chronicle g b.1 b.2.1 b.2.2) →
      Mingled (branches.map fun b => b.1) ds → Chronicle g ds (branches.flatMap fun b => b.2.1) (branches.flatMap fun b => b.2.2)

/-- What is shown from one scope to another is a chronicle of what was recorded. -/
def Chronicled (g : Graph) (ds : List Deed) (s s' : Scope) : Prop :=
  ∃ es fs, s'.context.history = s.context.history ++ es ∧
    s'.trace.conditionFailures = s.trace.conditionFailures ++ fs ∧ Chronicle g ds es fs

/-- The step of a node is open since a scope, and what was shown meanwhile are asides, some of them
    trials. -/
structure Underway (g : Graph) (n : Node) (s : Scope) (ds trials : List Deed) (t : Scope) : Prop where
  during : Scope.During (s.nextStep n.id) (s.beginStep n.id) t
  failures : ∃ fs, t.trace.conditionFailures = s.trace.conditionFailures ++ fs ∧ Aside g (some n) ds fs
  trials : trialsIn ds = trials

theorem Chronicled.refl (s : Scope) : Chronicled g [] s s := ⟨[], [], by simp, by simp, .aside .nil rfl⟩

theorem Chronicled.trans {ds ds' : List Deed} {s t u : Scope} (h : Chronicled g ds s t) (h' : Chronicled g ds' t u) :
    Chronicled g (ds ++ ds') s u := by
  obtain ⟨es, fs, he, hf, hc⟩ := h
  obtain ⟨es', fs', he', hf', hc'⟩ := h'
  exact ⟨es ++ es', fs ++ fs', by rw [he', he, List.append_assoc], by rw [hf', hf, List.append_assoc], hc.append hc'⟩

namespace Underway

variable {n : Node} {s t : Scope} {ds trials : List Deed}

theorem start (n : Node) (s : Scope) : Underway g n s [] [] (s.beginStep n.id) :=
  ⟨.refl, ⟨[], (List.append_nil _).symm, .nil⟩, rfl⟩

theorem noting (h : Underway g n s ds trials t) {ds' : List Deed} {fs : List ConditionFailure} (ha : Aside g (some n) ds' fs) :
    Underway g n s (ds ++ ds') (trials ++ trialsIn ds') (t.noting fs) := by
  obtain ⟨hd, ⟨fs₀, hf, ha₀⟩, ht⟩ := h
  exact ⟨hd.noting fs, ⟨fs₀ ++ fs, by simp [Scope.noting, hf], ha₀.append ha⟩, by rw [trialsIn_append, ht]⟩

theorem awaitStep (h : Underway g n s ds trials t) : Underway g n s ds trials (t.awaitStep (s.nextStep n.id)) :=
  ⟨h.during.awaitStep, h.failures, h.trials⟩

theorem set (h : Underway g n s ds trials t) (key : String) (value : Json) : Underway g n s ds trials (t.set key value) :=
  ⟨h.during.set key value, h.failures, h.trials⟩

theorem bindOutputs (h : Underway g n s ds trials t) (value : Json) :
    Underway g n s ds trials (Execution.bindOutputs n value t) := by
  refine ⟨bindOutputs_during h.during n value, ?_, h.trials⟩
  have same (names : List String) (u : Scope) :
      (names.foldl (fun u name => u.set name (outputOf value name)) u).trace = u.trace := by
    induction names generalizing u with
    | nil => rfl
    | cons name names ih => exact ih _
  obtain ⟨fs, hf, ha⟩ := h.failures
  refine ⟨fs, ?_, ha⟩
  unfold Execution.bindOutputs
  rw [same]
  exact hf

/-- A step of a skill node that is finished went smoothly if every call was served. -/
theorem finish (h : Underway g n s ds trials t) (hn : g.node? n.id = some n) {status : StepStatus} {report : StepReport}
    (hs : n.kind = .skill → Served ds →
      (status = .completed ∧ report.retryCount = 0 ∧ report.fallbackUsed = false) ∧ FallbackFree ds)
    (hw : Warrant g n trials status report) :
    Chronicled g (Walk.opening n ++ (ds ++ Walk.closing n status)) s (t.finishStep (s.nextStep n.id) status report) := by
  obtain ⟨e, he, hh⟩ := h.during.history_finish status report
  obtain ⟨fs, hf, ha⟩ := h.failures
  refine ⟨_, fs, hh, hf, .step hn he rfl ha (fun hk hserved => ⟨.inr (hs hk hserved).1, (hs hk hserved).2⟩) ?_⟩
  rw [h.trials]
  exact .finished rfl hw

/-- So did one that a cancellation interrupts. -/
theorem cancel (h : Underway g n s ds trials t) (hn : g.node? n.id = some n)
    (hs : n.kind = .skill → Served ds → FallbackFree ds) (hi : n.kind ≠ .skill → trials = []) :
    Chronicled g (Walk.opening n ++ (ds ++ Walk.closing n .skipped)) s (t.cancelStep (s.nextStep n.id)) := by
  obtain ⟨e, he, hh⟩ := h.during.history_cancel
  obtain ⟨fs, hf, ha⟩ := h.failures
  refine ⟨_, fs, hh, hf, .step hn he rfl ha (fun hk hserved => ⟨.inl ⟨rfl, rfl⟩, hs hk hserved⟩) ?_⟩
  rw [h.trials]
  exact .interrupted rfl rfl hi

end Underway

open Walk (Rambles Mentions)

/-! ## Walks -/

/-- What the walk shows is a chronicle of what it records. -/
def Walk.Chronicles (g : Graph) (w : Walk α) : Prop := ∀ s, w.Recounts s fun ds _ s' => Chronicled g ds s s'

/-- While the step of a node is open since a scope, the walk closes it and goes on. -/
def Walk.Concludes (g : Graph) (n : Node) (s : Scope) (ds : List Deed) (w : Walk α) (t : Scope) : Prop :=
  w.Recounts t fun es _ s' => Chronicled g (Walk.opening n ++ (ds ++ es)) s s'

namespace Walk

theorem Rambles.chronicles {w : Walk α} (h : w.Rambles g none) : w.Chronicles g := by
  refine fun s => (h s).mono fun ds r s' hr => ?_
  obtain ⟨a, fs, -, rfl, ha, ht⟩ := hr
  exact ⟨[], fs, by simp, rfl, .aside ha ht⟩

theorem Chronicles.bind {w : Walk α} (h : w.Chronicles g) {f : α → Walk β} (hf : ∀ a, (f a).Chronicles g) :
    (w >>= f).Chronicles g := by
  refine fun s => .bind ((h s).mono fun ds r s' hr => ?_)
  cases r with
  | error halt => exact hr
  | ok a => exact (hf a s').mono fun _ _ _ => hr.trans

theorem Chronicles.pure (a : α) : (pure a : Walk α).Chronicles g := fun s => .pure (.refl s)

theorem Chronicles.throw (halt : Halt) : (throw halt : Walk α).Chronicles g := fun s => .throw (.refl s)

theorem Chronicles.ite {c : Prop} [Decidable c] {w w' : Walk α} (h : w.Chronicles g) (h' : w'.Chronicles g) :
    (if c then w else w').Chronicles g := by
  split
  · exact h
  · exact h'

theorem checkpoint_chronicles : checkpoint.Chronicles g := fun s => .checkpoint (.refl s) (.refl s)

/-- Steps and failed conditions do not change with variables and counts. -/
theorem Chronicles.modify {f : Scope → Scope} (hh : ∀ s, (f s).context.history = s.context.history)
    (hf : ∀ s, (f s).trace.conditionFailures = s.trace.conditionFailures) : (modify f : Walk Unit).Chronicles g :=
  fun s => .modify ⟨[], [], by rw [hh, List.append_nil], by rw [hf, List.append_nil], .aside .nil rfl⟩

section Steps

variable {n : Node} {s t : Scope} {ds trials : List Deed}

/-- Asides may be made while a step is open. -/
theorem Recounts.concludes_bind {P : List Deed → α → Prop} {w : Walk α}
    (h : w.Recounts t fun es r t' => ∃ a fs, r = .ok a ∧ t' = t.noting fs ∧ Aside g (some n) es fs ∧ P es a)
    (hu : Underway g n s ds trials t) {f : α → Walk β}
    (hf : ∀ es a u, P es a → Underway g n s (ds ++ es) (trials ++ trialsIn es) u → (f a).Concludes g n s (ds ++ es) u) :
    (w >>= f).Concludes g n s ds t := by
  refine .bind (h.mono fun es r t' hr => ?_)
  obtain ⟨a, fs, rfl, rfl, ha, hp⟩ := hr
  refine (hf es a _ hp (hu.noting ha)).mono fun es' r s' hr => ?_
  rwa [← List.append_assoc ds]

/-- Where nothing is shown of trials, none are added. -/
theorem Rambles.concludes_bind {w : Walk α} (h : w.Rambles g (some n)) (hu : Underway g n s ds trials t) {f : α → Walk β}
    (hf : ∀ es a u, Underway g n s (ds ++ es) trials u → (f a).Concludes g n s (ds ++ es) u) :
    (w >>= f).Concludes g n s ds t :=
  Recounts.concludes_bind (h t) hu fun es a u hs hu => hf es a u (by rwa [hs, List.append_nil] at hu)

/-- A walk that begins a step and closes it. -/
theorem Concludes.chronicles {f : OpenStep → Walk α}
    (h : ∀ s, (f (s.nextStep n.id)).Concludes g n s [] (s.beginStep n.id)) : (beginStep n >>= f).Chronicles g :=
  fun s => .bind (.beginStep (h s))

theorem concludes_modify_bind {f : Scope → Scope} {w : Walk α} (h : w.Concludes g n s ds (f t)) :
    (modify f >>= fun _ => w).Concludes g n s ds t :=
  Recounts.bind (.modify h)

/-- A step is finished, and the walk goes on. -/
theorem finishStep_concludes (hu : Underway g n s ds trials t) (hn : g.node? n.id = some n) {status : StepStatus}
    {report : StepReport} (hs : n.kind = .skill → Served ds →
      (status = .completed ∧ report.retryCount = 0 ∧ report.fallbackUsed = false) ∧ FallbackFree ds)
    (hw : Warrant g n trials status report) {w : Walk α} (h : w.Chronicles g) :
    (finishStep n (s.nextStep n.id) status report >>= fun _ => w).Concludes g n s ds t := by
  refine .bind (.finishStep ((h _).mono fun es r s' hr => ?_))
  simpa only [List.append_assoc] using (hu.finish hn hs hw).trans hr

theorem cancelStep_concludes (hu : Underway g n s ds trials t) (hn : g.node? n.id = some n)
    (hs : n.kind = .skill → Served ds → FallbackFree ds) (hi : n.kind ≠ .skill → trials = []) :
    (cancelStep n (s.nextStep n.id) : Walk α).Concludes g n s ds t :=
  .cancelStep (hu.cancel hn hs hi)

theorem failStep_concludes (hu : Underway g n s ds trials t) (hn : g.node? n.id = some n) (hs : n.kind = .skill → ¬Served ds)
    {report : StepReport} {fault : Fault} (hw : Warrant g n trials .failed { report with error := some fault.message }) :
    (failStep n (s.nextStep n.id) report fault : Walk α).Concludes g n s ds t :=
  .failStep (hu.finish hn (fun hk hserved => absurd hserved (hs hk)) hw)

theorem passThrough_chronicles (hn : g.node? n.id = some n) (hk : n.kind ≠ .skill) : (passThrough n).Chronicles g :=
  fun s => .passThrough ((Underway.start n s).finish hn (fun h => absurd h hk) (.idle hk rfl))

end Steps

end Walk

/-! ## Visits -/

section Visits

variable {st : Setting} {n : Node} {s t : Scope} {ds trials : List Deed}

theorem advance_chronicles (st : Setting) (node : String) : (advance st node).Chronicles st.graph :=
  (advance_rambles st node).chronicles

/-- Whether a failed node is skipped is found out while its step is open. -/
theorem skips_concludes (hu : Underway st.graph n s ds trials t) (hn : st.graph.node? n.id = some n)
    (hs : n.kind = .skill → ¬Served ds) (hi : n.kind ≠ .skill → trials = []) {fault : Fault} {f : Bool → Walk α}
    (hf : ∀ skipped ds' u, Underway st.graph n s ds' trials u → (n.kind = .skill → ¬Served ds') →
      (f skipped).Concludes st.graph n s ds' u) :
    (skips st n (s.nextStep n.id) fault >>= f).Concludes st.graph n s ds t := by
  have later {es : List Deed} : n.kind = .skill → ¬Served (ds ++ es) := fun hk hserved => hs hk hserved.left
  unfold skips
  split
  · exact hf _ ds t hu hs
  · exact hf _ ds t hu hs
  · exact hf _ ds t hu hs
  · simp only [bind_assoc]
    refine Walk.concludes_modify_bind ?_
    refine (Rambles.emit rfl (.asked _ _) rfl).concludes_bind hu.awaitStep fun es _ u hu => ?_
    refine (question_rambles _ _).concludes_bind hu fun es' r u hu => ?_
    rw [List.append_assoc] at hu ⊢
    split
    · exact hf _ _ u hu later
    · exact Walk.Recounts.bind (.cancelStep (hu.cancel hn (fun hk hserved => absurd hserved (later hk)) hi))
    · exact hf _ _ u hu later

/-- A node that failed for good is closed with its retries. -/
theorem handleFailure_concludes (hu : Underway st.graph n s ds trials t) (hn : st.graph.node? n.id = some n)
    (hs : n.kind = .skill → ¬Served ds) (fault : Fault) {retries : Nat}
    (hw : ∀ status (report : StepReport), status ≠ .completed → report.retryCount = retries →
      Warrant st.graph n trials status report) :
    (handleFailure st n (s.nextStep n.id) fault retries).Concludes st.graph n s ds t := by
  have later {es : List Deed} : n.kind = .skill → ¬Served (ds ++ es) := fun hk hserved => hs hk hserved.left
  have silent : n.kind ≠ .skill → trials = [] := (hw .failed { retryCount := retries } (by decide) rfl).silent
  unfold handleFailure
  refine Rambles.get.concludes_bind hu fun es u _ hu => ?_
  have triggered : (Walk.firstWhere (triggers (triggerVariables u.context.vars n fault) n)
      ((st.graph.outgoing n.id).filter (·.kind = .fallback))).Rambles st.graph (some n) :=
    Walk.firstWhere_rambles fun e he => triggers_rambles _ (List.mem_filter.mp he).1 (by simpa using (List.mem_filter.mp he).2)
  refine triggered.concludes_bind hu fun es' reroute u hu => ?_
  rw [List.append_assoc] at hu ⊢
  cases reroute with
  | some e =>
    refine (Rambles.emit rfl (.fallback _ rfl) rfl).concludes_bind hu fun es'' _ u hu => ?_
    rw [List.append_assoc] at hu ⊢
    exact Walk.finishStep_concludes hu hn (fun hk hserved => absurd hserved (later hk)) (hw _ _ (by decide) rfl) (.pure _)
  | none =>
    refine skips_concludes hu hn later silent fun skipped ds' u hu hs' => ?_
    cases skipped with
    | true =>
      exact Walk.finishStep_concludes hu hn (fun hk hserved => absurd hserved (hs' hk)) (hw _ _ (by decide) rfl) (advance_chronicles st n.id)
    | false => exact Walk.failStep_concludes hu hn hs' (hw _ _ (by decide) rfl)

theorem visitMarker_chronicles (hn : st.graph.node? n.id = some n) (hk : n.kind ≠ .skill) :
    (visitMarker st n).Chronicles st.graph :=
  (Walk.passThrough_chronicles hn hk).bind fun _ => advance_chronicles st n.id

theorem visitBranch_chronicles (hn : g.node? n.id = some n) (hk : n.kind = .branch) : (visitBranch n).Chronicles g := by
  have plain : n.kind ≠ .skill := by simp [hk]
  refine Walk.Concludes.chronicles fun s => ?_
  have started := Underway.start (g := g) n s
  dsimp only
  split
  · exact Walk.failStep_concludes started hn (fun h => absurd h plain) (.idle plain rfl)
  · refine (Walk.firstWhere_rambles fun c hc => Walk.holds_rambles (.choice hn hk hc)).concludes_bind started
      fun es matched u hu => ?_
    exact Walk.finishStep_concludes hu hn (fun h => absurd h plain) (.idle plain rfl) (.pure _)

/-- A skill node whose calls are all served is completed or cancelled. Whatever they are answered, its
    step reports the trials that were made. -/
theorem visitSkill_chronicles (hn : st.graph.node? n.id = some n) (hk : n.kind = .skill) (hs : n.skillId.isSome) :
    (visitSkill st n).Chronicles st.graph := by
  obtain ⟨skill, hs⟩ := Option.isSome_iff_exists.mp hs
  refine Walk.Concludes.chronicles fun s => ?_
  simp only [hs]
  obtain ⟨order, after, explored⟩ := exists_exploration [skill] (ranked_mergeSort n (s.beginStep n.id).context.vars).subset
  have recovers := (recover_mentions hn hk hs (s.beginStep n.id)).and (recover_shows st explored (s.beginStep n.id) rfl)
  refine Walk.Recounts.concludes_bind (P := fun ds r => (Served ds →
      (((∃ v, r.outcome = .ok (v, none)) ∨ r.outcome = .error .cancelled) ∧ r.retries = 0) ∧ FallbackFree ds) ∧
      Series st n (s.beginStep n.id).context (candidates skill order) .cancelled (trialsIn ds) r)
    (recovers.mono fun es r u hr => ?_) (Underway.start n s) fun es r u hr hu => ?_
  · obtain ⟨⟨a, fs, rfl, rfl, ha, hp⟩, _, _, ⟨⟩, -, series⟩ := hr
    exact ⟨a, fs, rfl, rfl, ha, hp, series⟩
  obtain ⟨hr, series⟩ := hr
  rw [List.nil_append] at hu ⊢
  rw [List.nil_append] at hu
  split
  · next value implementation ho =>
    have reckoned := series.reckoned hs explored (by simp [ho])
    refine Walk.concludes_modify_bind ?_
    refine Walk.finishStep_concludes (hu.bindOutputs value) hn (fun _ hserved => ?_)
      (.tried hk reckoned fun _ => series.bestows ho rfl rfl) (advance_chronicles st n.id)
    obtain ⟨⟨⟨v, hv⟩ | hc, hretries⟩, free⟩ := hr hserved
    · cases ho.symm.trans hv
      exact ⟨⟨rfl, hretries, rfl⟩, free⟩
    · cases ho.symm.trans hc
  · exact Walk.cancelStep_concludes hu hn (fun _ hserved => (hr hserved).2) (absurd hk)
  · next fault hne ho =>
    have reckoned := series.reckoned hs explored (by simpa [ho] using hne)
    refine handleFailure_concludes hu hn (fun _ hserved => ?_) _ fun status report hopen hretries => ?_
    · obtain ⟨⟨⟨v, hv⟩ | hc, -⟩, -⟩ := hr hserved
      · cases ho.symm.trans hv
      · exact hne (Except.error.inj (ho.symm.trans hc))
    · exact .tried hk (hretries ▸ reckoned) fun hc => absurd hc hopen

theorem visitQuestion_chronicles (hn : st.graph.node? n.id = some n) (hk : n.kind ≠ .skill) :
    (visitQuestion st n).Chronicles st.graph := by
  refine Walk.Concludes.chronicles fun s => ?_
  dsimp only
  split
  · exact Walk.failStep_concludes (Underway.start n s) hn (fun h => absurd h hk) (.idle hk rfl)
  · refine Walk.concludes_modify_bind ?_
    refine Rambles.get.concludes_bind (Underway.start n s).awaitStep fun es u _ hu => ?_
    refine (Rambles.emit rfl (.asked _ _) rfl).concludes_bind hu fun es _ u hu => ?_
    refine (question_rambles _ _).concludes_bind hu fun es r u hu => ?_
    split
    · refine Walk.concludes_modify_bind ?_
      exact Walk.finishStep_concludes (hu.set _ _) hn (fun h => absurd h hk) (.idle hk rfl) (advance_chronicles st n.id)
    · exact Walk.cancelStep_concludes hu hn (fun h => absurd h hk) fun _ => rfl
    · exact handleFailure_concludes hu hn (fun h => absurd h hk) _ fun _ _ _ => .idle hk

end Visits

/-! ## Loops and splits -/

/-- What the segments inside show is a chronicle of what they record. -/
def Inner.Chronicles (g : Graph) (inner : Inner) : Prop := ∀ boundaries start, (inner boundaries start).Chronicles g

section Nested

variable {st : Setting} {inner : Inner} {n : Node}

theorem passNode_chronicles {id : String} (hk : st.graph.kind? id ≠ some .skill) : (passNode st id).Chronicles st.graph := by
  unfold passNode
  split
  · next n hn =>
    obtain rfl := Graph.node?_id hn
    exact Walk.passThrough_chronicles hn fun h => hk (h ▸ Graph.kind?_of_node? hn)
  · exact .pure _

theorem closePass_chronicles {e : Edge} (he : st.graph.iterationEdge? n.id = some e) : (closePass st e).Chronicles st.graph := by
  obtain ⟨hm, hkind, closes⟩ := Graph.iterationEdge?_closes he
  have leaves : e ∈ st.graph.outgoing e.source := List.mem_filter.mpr ⟨hm, by simp⟩
  exact Walk.checkpoint_chronicles.bind fun _ => (passNode_chronicles (by simp [closes])).bind fun _ =>
    (exits_rambles leaves hkind).chronicles

theorem numberPass_chronicles (st : Setting) (n : Node) (i : Nat) : (numberPass st n i).Chronicles g :=
  .modify (fun _ => rfl) fun _ => rfl

theorem passes_chronicles (hi : inner.Chronicles st.graph) {e : Edge} (he : st.graph.iterationEdge? n.id = some e) (left i : Nat) :
    (passes st inner n e left i).Chronicles st.graph := by
  induction left generalizing i with
  | zero => exact .pure _
  | succ left ih =>
    unfold passes
    refine Walk.checkpoint_chronicles.bind fun _ => (numberPass_chronicles st n i).bind fun _ =>
      (successor_rambles st n.id).chronicles.bind fun body => ?_
    cases body with
    | none => exact .pure _
    | some body =>
      refine (hi _ _).bind fun flow => ?_
      cases flow with
      | ended => exact .pure _
      | deadEnd => exact ih _
      | boundary id =>
        refine .ite ((closePass_chronicles he).bind fun out => ?_) (ih _)
        cases out with
        | true => exact .pure _
        | false => exact ih _

theorem visitLoop_chronicles (hi : inner.Chronicles st.graph) (hn : st.graph.node? n.id = some n) (hk : n.kind ≠ .skill) :
    (visitLoop st inner n).Chronicles st.graph := by
  refine Walk.Concludes.chronicles fun s => ?_
  have started := Underway.start (g := st.graph) n s
  dsimp only
  split
  · exact Walk.failStep_concludes started hn (fun h => absurd h hk) (.idle hk rfl)
  · next e he =>
    exact Walk.finishStep_concludes started hn (fun h => absurd h hk) (.idle hk rfl)
      ((passes_chronicles hi he _ _).bind fun ended => .ite (.pure _) (advance_chronicles st e.source))

theorem openSplit_chronicles (hn : st.graph.node? n.id = some n) (hk : n.kind ≠ .skill) : (openSplit st n).Chronicles st.graph := by
  refine Walk.Concludes.chronicles fun s => ?_
  have opened : (Walk.keepWhere (opensBranch n) (st.graph.flow n.id)).Rambles st.graph (some n) :=
    (Walk.keepWhere_mentions fun e he => opensBranch_rambles he).mono fun _ _ h => h.1
  refine opened.concludes_bind (Underway.start n s) fun es edges u hu => ?_
  exact Walk.finishStep_concludes hu hn (fun h => absurd h hk) (.idle hk rfl) (.pure _)

theorem passJoin_chronicles (st : Setting) (id : String) (ended : Bool) :
    (passJoin st (st.graph.join? id) ended).Chronicles st.graph := by
  unfold passJoin
  split
  · next join hj =>
    obtain ⟨m, hm, -, hk⟩ := Graph.join?_isJoin hj
    exact (passNode_chronicles (by simp [Graph.kind?_of_node? hm, hk])).bind fun _ => advance_chronicles st _
  · exact .pure _

/-- What the branches of a split show is a chronicle of what they are folded back with. -/
theorem folded_chronicled (hn : g.node? n.id = some n) (hk : n.kind = .split) (joining : Joining)
    {shown : List (List Deed × Outcome)} {winner : Option Nat} {ds : List Deed}
    (hb : ∀ b ∈ shown, Chronicle g b.1 b.2.scope.context.history b.2.scope.trace.conditionFailures)
    (hd : Mingled (shown.map Prod.fst) ds) (s : Scope) :
    Chronicled g ds s (foldBranches joining ⟨shown.map Prod.snd, winner⟩ s) := by
  let recorded (b : List Deed × Outcome) := (b.1, b.2.scope.context.history, b.2.scope.trace.conditionFailures)
  have kept : ∀ b ∈ shown.map recorded, Chronicle g b.1 b.2.1 b.2.2 := List.forall_mem_map.mpr hb
  have seen : Mingled ((shown.map recorded).map fun b => b.1) ds := by simpa [recorded, Function.comp_def] using hd
  refine ⟨_, _, ?_, ?_, .split hn hk kept seen⟩
  · simp [history_foldBranches, List.flatMap_map, recorded]
  · simp [trace_foldBranches, conditionFailures_absorbed, List.flatMap_map, recorded]

theorem closeSplit_chronicles {gathered : Gathered} {ds : List Deed} {s : Scope}
    (h : Chronicled st.graph ds s (foldBranches st.joining gathered s)) :
    (closeSplit st n gathered).Recounts s fun es _ s' => Chronicled st.graph (ds ++ es) s s' := by
  have onward {w : Walk Next} (hw : w.Chronicles st.graph) :
      w.Recounts (foldBranches st.joining gathered s) fun es _ s' => Chronicled st.graph (ds ++ es) s s' :=
    (hw _).mono fun _ _ _ => h.trans
  unfold closeSplit
  refine .bind (.modify ?_)
  dsimp only
  split
  · exact onward (.throw _)
  · exact onward (Walk.checkpoint_chronicles.bind fun _ => .throw _)
  · exact onward (Walk.checkpoint_chronicles.bind fun _ => passJoin_chronicles _ _ _)

theorem visitSplit_chronicles (hi : inner.Chronicles st.graph) (hn : st.graph.node? n.id = some n) (hk : n.kind = .split) :
    (visitSplit st inner n).Chronicles st.graph := by
  refine (openSplit_chronicles hn (by simp [hk])).bind fun starts s => ?_
  refine .bind (.get (.bind (.split
    (fun ds o => Chronicle st.graph ds o.scope.context.history o.scope.trace.conditionFailures) (fun b hb => ?_)
    fun shown winner ds hb hd => ?_)))
  · obtain ⟨start, -, rfl⟩ := List.mem_map.mp hb
    refine (hi _ start s.fork).mono fun ds r s' hr => ?_
    obtain ⟨es, fs, he, hf, hc⟩ := hr
    have history : s'.context.history = es := he
    have failures : s'.trace.conditionFailures = fs := hf
    rwa [← history, ← failures] at hc
  · exact closeSplit_chronicles (folded_chronicled hn hk st.joining hb hd s)

theorem visit_chronicles (hc : st.graph.Checked) (hi : inner.Chronicles st.graph) (hn : st.graph.node? n.id = some n) :
    (visit st inner n).Chronicles st.graph := by
  unfold visit
  split
  · next hk => exact (Walk.passThrough_chronicles hn (by simp [hk])).bind fun _ => .pure _
  · next hk => exact visitMarker_chronicles hn (by simp [hk])
  · next hk => exact visitMarker_chronicles hn (by simp [hk])
  · next hk => exact visitMarker_chronicles hn (by simp [hk])
  · next hk => exact visitMarker_chronicles hn (by simp [hk])
  · next hk => exact visitBranch_chronicles hn hk
  · next hk => exact visitLoop_chronicles hi hn (by simp [hk])
  · next hk => exact visitSplit_chronicles hi hn hk
  · next hk => exact visitSkill_chronicles hn hk (hc.skills n (Graph.mem_of_node? hn) hk)
  · next hk => exact visitQuestion_chronicles hn (by simp [hk])
  · next hk => exact visitQuestion_chronicles hn (by simp [hk])
  · next hk => exact visitQuestion_chronicles hn (by simp [hk])

end Nested

/-! ## Segments and runs -/

/-- What a segment shows is a chronicle of what it records, with all that is inside. -/
theorem segment_chronicles {st : Setting} (hc : st.graph.Checked) (budget : Nat) : (segment st budget).Chronicles st.graph := by
  induction budget with
  | zero =>
    intro boundaries id
    unfold segment
    exact .ite (.pure _) (Walk.checkpoint_chronicles.bind fun _ => Rambles.visit.chronicles.bind fun _ => .throw _)
  | succ budget ih =>
    intro boundaries id
    unfold segment
    refine .ite (.pure _) (Walk.checkpoint_chronicles.bind fun _ => Rambles.visit.chronicles.bind fun allowed => ?_)
    cases allowed with
    | false => exact .throw _
    | true =>
      rw [if_pos rfl]
      split
      · exact .throw _
      · next n hn =>
        obtain rfl := Graph.node?_id hn
        refine (visit_chronicles hc ih hn).bind fun next => ?_
        cases next with
        | node id => exact ih boundaries id
        | stop flow => exact .pure _

/-- What a run shows: its beginning, a chronicle of what it records, and its end. -/
def RunChronicled (s : Setting) (c : Context) (ds : List Deed) (o : Outcome) : Prop :=
  ∃ between, ds = .told (.event (.runStarted s.graph.id s.graph.nodes.length)) :: between ++
      [.told (.event (.runFinished (statusOf o.ending)))] ∧
    Chronicled s.graph between { context := c } o.scope

theorem runFrom_recounts {st : Setting} (hc : st.graph.Checked) (start : String) (c : Context) :
    (runFrom st start c).Recounts none (RunChronicled st c) := by
  refine .bind ⟨rfl, fun _ => ⟨rfl, .bind (.bind ?_)⟩⟩
  refine Process.Recounts.mono (segment_chronicles hc st.config.maxVisits [] start { context := c }) fun ds p hp => ?_
  exact ⟨rfl, rfl, fun _ => ⟨rfl, ds, by simp [Request.deed?], hp⟩⟩

/-- So does every course of a run of a valid graph. -/
theorem Course.chronicled {s : Setting} {c : Context} {p : Process Outcome} {limit : Nat} {b : Bool} {w w' : Shared}
    {acts : List Act} {o : Outcome} (hr : run s c = .ok p) (h : Course limit b (.at p) w acts (.finished o) w') :
    RunChronicled s c (deedsIn acts) o := by
  obtain ⟨start, -, rfl⟩ := start_of_run hr
  exact h.recounts (runFrom_recounts (Graph.checked_of_isValid (isValid_of_run hr)) start.id c)

end Capability.Execution
