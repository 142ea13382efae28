/-
  Capability.Proofs.Justification — why a node is dispatched.

  A step leads to a node if the graph says that a run may go there from the node of the step: along
  an edge that was open, to a target of a branch, along a fallback edge after a failure, or to the
  other end of a loop or a split. A strand begins at one node, and all of its other steps are led to
  by steps before them. Loops walk on the history of their strand. The branches of a split have
  histories of their own, each of which begins where the split leads.

  (1) `Walk.Justifies`: what is dispatched in a walk is led to, if its first node is.
  (2) `segment_justifies`: so it is in every segment, with all that is walked inside.
  (3) `every_step_is_led_to`: all steps of a run but the first are led to.
-/

import Capability.Proofs.Cancellation
import Capability.Proofs.Failures
import Capability.Proofs.Terminal

namespace Capability.Execution

variable {α β : Type}

/-! ## Steps that lead somewhere -/

/-- The step of a node leads to the node of an id. -/
inductive Leads (g : Graph) (u : Step) : String → Prop
  /-- Out of a node that is no branch a flow edge leads that is open. -/
  | flow {e : Edge} {vars : Keyed Json} : g.kind? u.node ≠ some .branch → e ∈ g.flow u.node → isOpen vars e = true →
      Leads g u e.target
  /-- Out of a branch a condition leads that is true, or the first one. -/
  | choice {n : Node} {c : BranchCondition} {vars : Keyed Json} : g.node? u.node = some n → n.kind = .branch →
      c ∈ n.conditions → isTrue vars c.expression = true ∨ n.conditions.head? = some c → Leads g u c.target
  /-- A fallback edge leads on after a failure. -/
  | fallback {e : Edge} {vars : Keyed Json} : e ∈ g.outgoing u.node → e.kind = .fallback → fires vars e = true →
      u.status = .failed → u.fallbackUsed = true → Leads g u e.target
  | loopEnd {id : String} : g.loopEnd? u.node = some id → Leads g u id
  | join {id : String} : g.join? u.node = some id → Leads g u id
  /-- Behind a loop a flow edge leads on from its end. -/
  | pastLoop {id : String} {e : Edge} {vars : Keyed Json} : g.loopEnd? u.node = some id → e ∈ g.flow id →
      isOpen vars e = true → Leads g u e.target

/-- A strand that begins at `entry` may dispatch a node behind some steps. -/
def Led (g : Graph) (entry : String) (past : List Step) (id : String) : Prop :=
  past = [] ∧ id = entry ∨ ∃ u ∈ past, Leads g u id

/-- Behind some steps, each of some others is led to. -/
def Justified (g : Graph) (entry : String) : (past es : List Step) → Prop
  | _, [] => True
  | past, e :: es => Led g entry past e.node ∧ Justified g entry (past ++ [e]) es

/-- A step of the node is among some steps. -/
def Visited (id : String) (past : List Step) : Prop := ∃ u ∈ past, u.node = id

section Past

variable {g : Graph} {entry id : String} {past es es' : List Step} {n : Node} {e : Edge} {vars : Keyed Json}

theorem Justified.append (h : Justified g entry past es) (h' : Justified g entry (past ++ es) es') :
    Justified g entry past (es ++ es') := by
  induction es generalizing past with
  | nil => simpa using h'
  | cons e es ih => exact ⟨h.1, ih h.2 (by simpa using h')⟩

/-- What is justified in a branch is justified behind a step that leads to where the branch begins. -/
theorem Justified.graft {start : String} {own : List Step} (h : Justified g start own es) (hown : own ⊆ past)
    (hs : ∃ u ∈ past, Leads g u start) : Justified g entry past es := by
  induction es generalizing own past with
  | nil => trivial
  | cons e es ih =>
    obtain ⟨led, rest⟩ := h
    obtain ⟨u, hu, hl⟩ := hs
    refine ⟨.inr ?_, ih rest ?_ ⟨u, List.mem_append_left _ hu, hl⟩⟩
    · obtain ⟨-, hid⟩ | ⟨v, hv, hl'⟩ := led
      · exact ⟨u, hu, hid ▸ hl⟩
      · exact ⟨v, hown hv, hl'⟩
    · exact List.append_subset.mpr ⟨fun _ h => List.mem_append_left _ (hown h), List.subset_append_right past [e]⟩

/-- Each of the steps is led to by one before it. -/
theorem Justified.led (h : Justified g entry past es) (i : Nat) (hi : i < es.length) :
    Led g entry (past ++ es.take i) es[i].node := by
  induction es generalizing past i with
  | nil => cases hi
  | cons e es ih =>
    cases i with
    | zero => simpa using h.1
    | succ i => simpa using ih h.2 i (Nat.lt_of_succ_lt_succ hi)

theorem Visited.append (h : Visited id past) (es : List Step) : Visited id (past ++ es) := by
  obtain ⟨u, hu, hid⟩ := h
  exact ⟨u, List.mem_append_left es hu, hid⟩

theorem Visited.of_last {e : Step} (h : e.node = id) (past : List Step) : Visited id (past ++ [e]) :=
  ⟨e, by simp, h⟩

/-- What every step of a node leads to is led to behind one. -/
theorem Visited.led {next : String} (h : Visited id past) (hl : ∀ u : Step, u.node = id → Leads g u next) :
    Led g entry past next := by
  obtain ⟨u, hu, hid⟩ := h
  exact .inr ⟨u, hu, hl u hid⟩

/-- The edge that is taken out of a node is one of its edges, and open. -/
theorem mem_of_edgeTaken {es : List Edge} (h : edgeTaken vars es = some e) : e ∈ es ∧ isOpen vars e = true := by
  unfold edgeTaken at h
  obtain h | ⟨-, h⟩ := Option.or_eq_some_iff.mp h
  · refine ⟨List.mem_of_find?_eq_some h, ?_⟩
    have held := List.find?_some h
    cases hc : e.guard? with
    | none => simp [isOpen, hc]
    | some c => simpa [isOpen, hc] using held
  · refine ⟨List.mem_of_find?_eq_some h, ?_⟩
    have hc : e.guard? = none := by simpa using List.find?_some h
    simp [isOpen, hc]

end Past

/-! ## Walks -/

/-- From one scope to another the steps that were added are led to, and if there is a value, `post`
    holds of that and of all steps. -/
def Grounded (g : Graph) (entry : String) (post : α → List Step → Prop) (s : Scope) (r : Except Halt α) (s' : Scope) : Prop :=
  ∃ es, s'.context.history = s.context.history ++ es ∧ Justified g entry s.context.history es ∧
    ∀ a, r = .ok a → post a s'.context.history

section Walks

variable {g : Graph} {entry : String} {pre : List Step → Prop} {post : α → List Step → Prop}

theorem Grounded.stay {s t : Scope} {a : α} (hs : t.context.history = s.context.history) (h : post a s.context.history) :
    Grounded g entry post s (.ok a) t :=
  ⟨[], by simp [hs], trivial, by rintro _ ⟨⟩; rwa [hs]⟩

theorem Grounded.reached {a : α} {s t : Scope} (h : Grounded g entry post s (.ok a) t) : post a t.context.history := by
  obtain ⟨_, -, -, ha⟩ := h
  exact ha a rfl

theorem Grounded.trans {mid : β → List Step → Prop} {b : β} {s t u : Scope} {r : Except Halt α}
    (h : Grounded g entry mid s (.ok b) t) (h' : Grounded g entry post t r u) : Grounded g entry post s r u := by
  obtain ⟨es, he, hj, -⟩ := h
  obtain ⟨es', he', hj', ha⟩ := h'
  exact ⟨es ++ es', by rw [he', he, List.append_assoc], hj.append (he ▸ hj'), ha⟩

/-- One step of a node that is led to. -/
theorem Grounded.step {s t : Scope} {r : Except Halt α} {e : Step} (he : t.context.history = s.context.history ++ [e])
    (hl : Led g entry s.context.history e.node) (h : ∀ a, r = .ok a → post a (s.context.history ++ [e])) :
    Grounded g entry post s r t :=
  ⟨[e], he, ⟨hl, trivial⟩, he ▸ h⟩

/-- Behind steps that satisfy `pre`, whatever the walk comes to is grounded. -/
def Walk.Justifies (g : Graph) (entry : String) (pre : List Step → Prop) (w : Walk α) (post : α → List Step → Prop) : Prop :=
  ∀ s, pre s.context.history → w.Ensures (fun _ => True) s (Grounded g entry post s)

/-- A walk goes on where another one came to a value. -/
theorem Grounded.onward {mid : β → List Step → Prop} {b : β} {s t : Scope} (h : Grounded g entry mid s (.ok b) t) {w : Walk α}
    (hw : w.Justifies g entry (mid b) post) : w.Ensures (fun _ => True) t (Grounded g entry post s) :=
  (hw t h.reached).mono fun _ _ => h.trans

namespace Walk

theorem Justifies.bind {w : Walk β} {mid : β → List Step → Prop} (h : w.Justifies g entry pre mid) {f : β → Walk α}
    (hf : ∀ b, (f b).Justifies g entry (mid b) post) : (w >>= f).Justifies g entry pre post := by
  intro s hs
  refine ensures_bind.mpr ((h s hs).mono fun r s' hr => ?_)
  cases r with
  | error halt =>
    obtain ⟨es, he, hj, -⟩ := hr
    exact ⟨es, he, hj, nofun⟩
  | ok b => exact hr.onward (hf b)

theorem Justifies.weaken {w : Walk α} {pre' : List Step → Prop} (h : w.Justifies g entry pre post)
    (hpre : ∀ past, pre' past → pre past) : w.Justifies g entry pre' post :=
  fun s hs => h s (hpre _ hs)

/-- What stays true while steps are added is true afterwards as well. -/
theorem Justifies.keep {w : Walk α} (h : w.Justifies g entry pre post) {F : List Step → Prop}
    (hF : ∀ past es, F past → F (past ++ es)) :
    w.Justifies g entry (fun past => F past ∧ pre past) fun _ => F := by
  intro s hs
  refine (h s hs.2).mono fun r s' hr => ?_
  obtain ⟨es, he, hj, -⟩ := hr
  exact ⟨es, he, hj, fun _ _ => he ▸ hF _ es hs.1⟩

theorem Justifies.ite {c : Prop} [Decidable c] {w w' : Walk α} (h : w.Justifies g entry pre post)
    (h' : w'.Justifies g entry pre post) : (if c then w else w').Justifies g entry pre post := by
  split
  · exact h
  · exact h'

theorem Justifies.throw (h : Halt) : (throw h : Walk α).Justifies g entry pre post := fun _ _ => ⟨[], by simp, trivial, nofun⟩

theorem Justifies.pure {a : α} (h : ∀ past, pre past → post a past) : (pure a : Walk α).Justifies g entry pre post :=
  fun _ hs => .stay rfl (h _ hs)

/-- A walk that only notes dispatches nothing. -/
theorem Notes.justifies {w : Walk α} (h : w.Notes) : w.Justifies g entry pre fun _ => pre :=
  fun _ hs => h.ensures fun _ _ => .stay rfl hs

/-- Nor does one that comes to a function of the variables. -/
theorem Decides.justifies {w : Walk α} {v : Keyed Json → α} (h : w.Decides v)
    (hpost : ∀ vars past, pre past → post (v vars) past) : w.Justifies g entry pre post :=
  fun _ hs => h.ensures fun _ => .stay rfl (hpost _ _ hs)

theorem checkpoint_justifies : checkpoint.Justifies g entry pre fun _ => pre := by
  refine (Notes.request .stopped).justifies.bind fun stopped => ?_
  cases stopped with
  | false => exact .pure fun _ h => h
  | true => exact .throw _

end Walk

end Walks

/-- If a strand goes on at a node, that is led to. -/
def Next.Led (g : Graph) (entry : String) (next : Next) (past : List Step) : Prop :=
  ∀ id, next = .node id → Execution.Led g entry past id

section Visits

variable {st : Setting} {entry : String} {n : Node} {s t : Scope}

theorem Next.led_stop (g : Graph) (entry : String) (flow : Flow) (past : List Step) : (Next.stop flow).Led g entry past := nofun

/-- Where the edges of a node lead to is led to, if they do so from a step that is there. -/
theorem Next.led_goesOn {id : String} {past : List Step} (vars : Keyed Json)
    (h : ∀ e ∈ st.graph.flow id, isOpen vars e = true → Execution.Led st.graph entry past e.target) :
    (goesOn st id vars).Led st.graph entry past := by
  unfold goesOn
  cases he : edgeTaken vars (st.graph.flow id) with
  | none => exact led_stop _ _ _ _
  | some e =>
    rintro _ ⟨⟩
    obtain ⟨hm, ho⟩ := mem_of_edgeTaken he
    exact h e hm ho

/-- Behind a step of a node that is no branch, its edges lead on. -/
theorem Visited.flow {id : String} {past : List Step} (h : Visited id past) (hk : st.graph.kind? id ≠ some .branch) {e : Edge}
    {vars : Keyed Json} (he : e ∈ st.graph.flow id) (ho : isOpen vars e = true) : Led st.graph entry past e.target := by
  refine h.led fun u hu => ?_
  subst hu
  exact .flow hk he ho

theorem advance_justifies {id : String} (hk : st.graph.kind? id ≠ some .branch) :
    (advance st id).Justifies st.graph entry (Visited id) (Next.Led st.graph entry) :=
  (advance_decides st id).justifies fun vars _ h => Next.led_goesOn vars fun _ he ho => h.flow hk he ho

/-- A step that is finished is led to if its node is. -/
theorem Grounded.finish {post : α → List Step → Prop} {r : Except Halt α}
    (hd : Scope.During (s.nextStep n.id) (s.beginStep n.id) t) (hl : Led st.graph entry s.context.history n.id)
    (status : StepStatus) (report : StepReport)
    (h : ∀ (a : α) (e : Step), r = .ok a → e.node = n.id → post a (s.context.history ++ [e])) :
    Grounded st.graph entry post s r (t.finishStep (s.nextStep n.id) status report) := by
  obtain ⟨e, hn, he⟩ := hd.history_finish status report
  exact .step he (hn.symm ▸ hl) fun a ha => h a _ ha hn

/-- So is one that a cancellation interrupts. -/
theorem Grounded.cancel {post : α → List Step → Prop} (hd : Scope.During (s.nextStep n.id) (s.beginStep n.id) t)
    (hl : Led st.graph entry s.context.history n.id) :
    Grounded st.graph entry post s (.error .cancelled) (t.cancelStep (s.nextStep n.id)) := by
  obtain ⟨e, hn, he⟩ := hd.history_cancel
  exact .step he (hn.symm ▸ hl) nofun

/-- A node whose step is finished is left along its edges. -/
theorem finish_advance_justifies (hd : Scope.During (s.nextStep n.id) (s.beginStep n.id) t)
    (hl : Led st.graph entry s.context.history n.id) (hk : st.graph.kind? n.id ≠ some .branch) (status : StepStatus)
    (report : StepReport) : (advance st n.id).Ensures (fun _ => True) (t.finishStep (s.nextStep n.id) status report)
      (Grounded st.graph entry (Next.Led st.graph entry) s) := by
  have finished : Grounded st.graph entry (fun _ : Unit => Visited n.id) s (.ok ())
      (t.finishStep (s.nextStep n.id) status report) :=
    .finish hd hl status report fun _ _ _ hn => .of_last hn _
  exact finished.onward (advance_justifies hk)

/-- A node that fails as soon as it is begun leads nowhere. -/
theorem failStep_justifies (hl : Led st.graph entry s.context.history n.id) (report : StepReport) (fault : Fault) :
    (Walk.failStep n (s.nextStep n.id) report fault).Ensures (fun _ => True) (s.beginStep n.id)
      (Grounded st.graph entry (Next.Led st.graph entry) s) :=
  Walk.ensures_failStep.mpr (.finish .refl hl _ _ fun _ _ h => by cases h)

theorem passThrough_justifies (n : Node) :
    (Walk.passThrough n).Justifies st.graph entry (fun past => Led st.graph entry past n.id) fun _ => Visited n.id :=
  fun _ hs => Walk.ensures_passThrough.mpr (.finish .refl hs _ _ fun _ _ _ hn => .of_last hn _)

theorem visitMarker_justifies (hk : st.graph.kind? n.id ≠ some .branch) :
    (visitMarker st n).Justifies st.graph entry (fun past => Led st.graph entry past n.id) (Next.Led st.graph entry) :=
  (passThrough_justifies n).bind fun _ => advance_justifies hk

theorem visitBranch_justifies (hn : st.graph.node? n.id = some n) (hk : n.kind = .branch) :
    (visitBranch n).Justifies st.graph entry (fun past => Led st.graph entry past n.id) (Next.Led st.graph entry) := by
  intro s hs
  unfold visitBranch
  simp only [Walk.ensures_bind, Walk.ensures_beginStep]
  cases hc : n.conditions with
  | nil => exact failStep_justifies hs _ _
  | cons first rest =>
    refine Walk.ensures_bind.mpr ((Walk.firstWhere_decides (fun c : BranchCondition => Walk.holds_decides n.id c.expression)
      (first :: rest)).ensures fun fs => ?_)
    simp only [Walk.ensures_bind, Walk.ensures_finishStep, Walk.ensures_pure]
    refine .finish (.noting fs .refl) hs _ _ fun next e hnext he id hid => .inr ⟨e, by simp, ?_⟩
    cases hnext
    cases hid
    cases hm : List.find? _ (first :: rest) with
    | none =>
      have first_of : isTrue s.context.vars first.expression = true ∨ n.conditions.head? = some first :=
        .inr (by rw [hc, List.head?_cons])
      exact .choice (he.symm ▸ hn) hk (hc ▸ .head _) first_of
    | some c =>
      have held := List.find?_some (p := fun c : BranchCondition => isTrue _ c.expression) hm
      exact .choice (he.symm ▸ hn) hk (hc ▸ List.mem_of_find?_eq_some hm) (.inl held)

/-- A node that failed for good is left along a fallback edge or, if it is skipped, along its other edges. -/
theorem Aftermath.grounded {fault : Fault} {replies : List (Call × Answer)} {r : Except Halt Next}
    (h : Aftermath st n fault s replies r t) (hl : Led st.graph entry s.context.history n.id)
    (hk : st.graph.kind? n.id ≠ some .branch) : Grounded st.graph entry (Next.Led st.graph entry) s r t := by
  cases h with
  | @rerouted f _ hw hc =>
    obtain ⟨e, he, hn, hs, hf, -⟩ := hc
    refine .step he (hn.symm ▸ hl) fun next hnext id hid => .inr ⟨e, by simp, ?_⟩
    cases hnext
    cases hid
    obtain ⟨hout, hkind⟩ := List.mem_filter.mp (List.mem_of_find?_eq_some hw)
    exact .fallback (hn.symm ▸ hout) (by simpa using hkind) (List.find?_some hw) hs hf
  | skipped hw hskip hc =>
    obtain ⟨e, he, hn, -⟩ := hc
    refine .step he (hn.symm ▸ hl) fun next hnext => ?_
    cases hnext
    exact Next.led_goesOn _ fun _ he ho => (Visited.of_last hn _).flow hk he ho
  | halted hw hskip hc =>
    obtain ⟨e, he, hn, -⟩ := hc
    exact .step he (hn.symm ▸ hl) nofun
  | cancelled hw hskip hi =>
    obtain ⟨e, he, hn, -⟩ := hi.step
    exact .step he (hn.symm ▸ hl) nofun

theorem handleFailure_justifies (ho : Open s n t) (hl : Led st.graph entry s.context.history n.id)
    (hk : st.graph.kind? n.id ≠ some .branch) (fault : Fault) (retries : Nat) :
    (handleFailure st n (s.nextStep n.id) fault retries).Ensures (fun _ => True) t
      (Grounded st.graph entry (Next.Led st.graph entry) s) := by
  refine (Walk.Asks.ensures (handleFailure_asks ho retries)).mono fun r t' hr => ?_
  obtain ⟨replies, after⟩ := hr
  exact after.grounded hl hk

theorem visitSkill_justifies (hk : st.graph.kind? n.id ≠ some .branch) :
    (visitSkill st n).Justifies st.graph entry (fun past => Led st.graph entry past n.id) (Next.Led st.graph entry) := by
  intro s hs
  unfold visitSkill
  simp only [Walk.ensures_bind, Walk.ensures_beginStep]
  split
  · exact failStep_justifies hs _ _
  · refine (recover_notes _ _ _).ensures_bind fun r fs => ?_
    have still := (Open.start s n).noting fs
    split
    · simp only [Walk.ensures_bind, Walk.ensures_modify, Walk.ensures_finishStep]
      exact finish_advance_justifies (bindOutputs_during still.during n _) hs hk _ _
    · exact Walk.ensures_cancelStep.mpr (.cancel still.during hs)
    · exact handleFailure_justifies still hs hk _ _

theorem visitQuestion_justifies (hk : st.graph.kind? n.id ≠ some .branch) :
    (visitQuestion st n).Justifies st.graph entry (fun past => Led st.graph entry past n.id) (Next.Led st.graph entry) := by
  intro s hs
  unfold visitQuestion
  simp only [Walk.ensures_bind, Walk.ensures_beginStep]
  split
  · exact failStep_justifies hs _ _
  · simp only [Walk.ensures_bind, Walk.ensures_modify, Walk.ensures_get, Walk.ensures_emit]
    refine (call_notes _ _ _).ensures fun r fs => ?_
    have still := (Open.start s n).awaitStep.noting fs
    dsimp only
    split
    · simp only [Walk.ensures_bind, Walk.ensures_modify, Walk.ensures_finishStep]
      exact finish_advance_justifies (still.during.set _ _) hs hk _ _
    · exact Walk.ensures_cancelStep.mpr (.cancel still.during hs)
    · exact handleFailure_justifies still hs hk _ _

end Visits

/-! ## Loops and splits -/

/-- The segments inside are justified, whichever strand they belong to. -/
def Inner.Justifies (g : Graph) (inner : Inner) : Prop :=
  ∀ entry boundaries start,
    (inner boundaries start).Justifies g entry (fun past => Led g entry past start) fun _ _ => True

section Nested

variable {st : Setting} {entry : String} {inner : Inner} {n : Node}

theorem passNode_justifies {id : String} (hd : st.graph.isDeclared id) :
    (passNode st id).Justifies st.graph entry (fun past => Led st.graph entry past id) fun _ => Visited id := by
  obtain ⟨n, hn⟩ := Option.isSome_iff_exists.mp hd
  unfold passNode
  rw [hn]
  obtain rfl := Graph.node?_id hn
  exact passThrough_justifies n

/-- The end of a loop is led to while its start is among the steps. -/
theorem Visited.loopEnd {past : List Step} {id l : String} (h : Visited id past) (hl : st.graph.loopEnd? id = some l) :
    Led st.graph entry past l :=
  h.led fun _ hu => .loopEnd (hu.symm ▸ hl)

theorem closePass_justifies {e : Edge} (he : st.graph.iterationEdge? n.id = some e) :
    (closePass st e).Justifies st.graph entry (Visited n.id) fun _ => Visited n.id := by
  obtain ⟨m, hm⟩ := Graph.loopEnd_declared he
  have ends : st.graph.loopEnd? n.id = some e.source := by simp [Graph.loopEnd?, he]
  have passed : (passNode st e.source).Justifies st.graph entry (Visited n.id) fun _ => Visited n.id :=
    ((passNode_justifies (Option.isSome_iff_exists.mpr ⟨m, hm⟩)).keep (F := Visited n.id) fun _ es h => h.append es).weaken
      fun _ h => ⟨h, h.loopEnd ends⟩
  exact Walk.checkpoint_justifies.bind fun _ => passed.bind fun _ => (exits_notes _ _).justifies

theorem numberPass_justifies (i : Nat) {pre : List Step → Prop} : (numberPass st n i).Justifies st.graph entry pre fun _ => pre :=
  fun _ hs => .stay rfl hs

/-- The passes of a loop are led to by the step of its start. -/
theorem passes_justify (hi : inner.Justifies st.graph) (hk : st.graph.kind? n.id ≠ some .branch) {e : Edge}
    (he : st.graph.iterationEdge? n.id = some e) (left i : Nat) :
    (passes st inner n e left i).Justifies st.graph entry (Visited n.id) fun _ => Visited n.id := by
  induction left generalizing i with
  | zero => exact .pure fun _ h => h
  | succ left ih =>
    unfold passes
    have body : (successor st n.id).Justifies st.graph entry (Visited n.id) fun next past =>
        Visited n.id past ∧ ∀ id, next = some id → Led st.graph entry past id := by
      refine (successor_decides st n.id).justifies fun vars past h => ⟨h, fun id hid => ?_⟩
      obtain ⟨f, hf, rfl⟩ := Option.map_eq_some_iff.mp hid
      obtain ⟨hm, ho⟩ := mem_of_edgeTaken hf
      exact h.flow hk hm ho
    refine Walk.checkpoint_justifies.bind fun _ => (numberPass_justifies i).bind fun _ => body.bind fun next => ?_
    cases next with
    | none => exact .pure fun _ h => h.1
    | some id =>
      have walked : (inner [e.source, n.id] id).Justifies st.graph entry
          (fun past => Visited n.id past ∧ ∀ id', some id = some id' → Led st.graph entry past id') fun _ => Visited n.id :=
        ((hi entry _ id).keep (F := Visited n.id) fun _ es h => h.append es).weaken fun _ h => ⟨h.1, h.2 id rfl⟩
      refine walked.bind fun flow => ?_
      cases flow with
      | ended => exact .pure fun _ h => h
      | deadEnd => exact ih _
      | boundary id' =>
        refine .ite ((closePass_justifies he).bind fun out => ?_) (ih _)
        cases out with
        | true => exact .pure fun _ h => h
        | false => exact ih _

theorem visitLoop_justifies (hi : inner.Justifies st.graph) (hk : st.graph.kind? n.id ≠ some .branch) :
    (visitLoop st inner n).Justifies st.graph entry (fun past => Led st.graph entry past n.id) (Next.Led st.graph entry) := by
  intro s hs
  unfold visitLoop
  simp only [Walk.ensures_bind (w := Walk.beginStep n), Walk.ensures_beginStep]
  cases he : st.graph.iterationEdge? n.id with
  | none => exact failStep_justifies hs _ _
  | some e =>
    have ends : st.graph.loopEnd? n.id = some e.source := by simp [Graph.loopEnd?, he]
    have behind : (advance st e.source).Justifies st.graph entry (Visited n.id) (Next.Led st.graph entry) :=
      (advance_decides st e.source).justifies fun vars _ h => Next.led_goesOn vars fun f hf ho =>
        h.led fun u hu => .pastLoop (hu.symm ▸ ends) hf ho
    have passed : (passes st inner n e (passBound n e) 0).Justifies st.graph entry (Visited n.id) fun _ => Visited n.id :=
      passes_justify hi hk he _ _
    have walked := passed.bind fun ended =>
      Walk.Justifies.ite (c := ended = true) (.pure fun past _ => Next.led_stop _ _ .ended past) behind
    have opened : Grounded st.graph entry (fun _ : Unit => Visited n.id) s (.ok ())
        ((s.beginStep n.id).finishStep (s.nextStep n.id) .completed
          { result := some (.obj [("max_iterations", .ofNat (passBound n e)), ("loop_end", .str e.source)]) }) :=
      .finish .refl hs _ _ fun _ _ _ hn => .of_last hn _
    refine Walk.ensures_bind.mpr (Walk.ensures_finishStep.mpr ?_)
    exact opened.onward walked

/-- What the branches of a split recorded is led to behind its step. -/
theorem fold_justified {past : List Step} {starts : List String} {outcomes : List Outcome}
    (hs : ∀ start ∈ starts, ∃ u ∈ past, Leads st.graph u start)
    (ho : ∀ o ∈ outcomes, ∃ start ∈ starts, Justified st.graph start [] o.scope.context.history) :
    Justified st.graph entry past (outcomes.flatMap fun o => o.scope.context.history) := by
  induction outcomes generalizing past with
  | nil => trivial
  | cons o outcomes ih =>
    obtain ⟨start, hmem, hj⟩ := ho o (.head _)
    rw [List.flatMap_cons]
    refine (hj.graft (List.nil_subset _) (hs start hmem)).append (ih (fun start' h => ?_) fun o' h => ho o' (.tail _ h))
    obtain ⟨u, hu, hl⟩ := hs start' h
    exact ⟨u, List.mem_append_left _ hu, hl⟩

theorem passJoin_justifies (ended : Bool) :
    (passJoin st (st.graph.join? n.id) ended).Justifies st.graph entry (Visited n.id) (Next.Led st.graph entry) := by
  unfold passJoin
  split
  · next id hj =>
    obtain ⟨m, hm, -, hk⟩ := Graph.join?_isJoin hj
    have kind : st.graph.kind? id ≠ some .branch := by simp [Graph.kind?_of_node? hm, hk]
    have passed : (passNode st id).Justifies st.graph entry (Visited n.id) fun _ => Visited id :=
      (passNode_justifies (Option.isSome_iff_exists.mpr ⟨m, hm⟩)).weaken fun _ h => h.led fun u hu => .join (hu.symm ▸ hj)
    exact passed.bind fun _ => advance_justifies kind
  · exact .pure fun _ _ => Next.led_stop _ _ _ _

/-- Behind its branches a split goes on at the join. -/
theorem closeSplit_justifies {starts : List String} {g : Gathered} {s : Scope} (hv : Visited n.id s.context.history)
    (hs : ∀ start ∈ starts, ∃ u ∈ s.context.history, Leads st.graph u start)
    (ho : ∀ o ∈ g.outcomes, ∃ start ∈ starts, Justified st.graph start [] o.scope.context.history) :
    (closeSplit st n g).Ensures (fun _ => True) s (Grounded st.graph entry (Next.Led st.graph entry) s) := by
  have folded : Grounded st.graph entry (fun _ : Unit => Visited n.id) s (.ok ()) (foldBranches st.joining g s) :=
    ⟨_, history_foldBranches st.joining g s, fold_justified hs ho, fun _ _ => history_foldBranches st.joining g s ▸ hv.append _⟩
  unfold closeSplit
  simp only [Walk.ensures_bind, Walk.ensures_modify]
  split
  · exact folded.onward (.throw _)
  · exact folded.onward (Walk.checkpoint_justifies.bind fun _ => .throw _)
  · exact folded.onward (Walk.checkpoint_justifies.bind fun _ => passJoin_justifies _)

/-- Each branch of a split is a strand that begins where an open edge of the split leads. -/
theorem visitSplit_justifies (hi : inner.Justifies st.graph) (hk : st.graph.kind? n.id ≠ some .branch) :
    (visitSplit st inner n).Justifies st.graph entry (fun past => Led st.graph entry past n.id) (Next.Led st.graph entry) := by
  intro s hs
  unfold visitSplit
  refine Walk.ensures_bind.mpr ((openSplit_ensures st n s).mono fun r t hr => ?_)
  obtain ⟨rfl, e, fs, he, rfl⟩ := hr
  have recorded : (s.record e fs).context.history = s.context.history ++ [e] := rfl
  have opened : Grounded st.graph entry (fun _ : Unit => Visited n.id) s (.ok ()) (s.record e fs) :=
    .step recorded (he.node.symm ▸ hs) fun _ _ => .of_last he.node _
  have leads : ∀ start ∈ branchStarts st n s.context.vars, ∃ u ∈ (s.record e fs).context.history, Leads st.graph u start := by
    intro start hstart
    obtain ⟨f, hf, rfl⟩ := List.mem_map.mp hstart
    obtain ⟨hflow, ho⟩ := List.mem_filter.mp hf
    exact ⟨e, by simp [recorded], .flow (he.node.symm ▸ hk) (he.node.symm ▸ hflow) ho⟩
  simp only [Walk.ensures_bind, Walk.ensures_get]
  refine Walk.ensures_split trivial
    (fun o => ∃ start ∈ branchStarts st n s.context.vars, Justified st.graph start [] o.scope.context.history)
    (fun b hb => ?_) fun os winner _ ho => ?_
  · obtain ⟨start, hstart, rfl⟩ := List.mem_map.mp hb
    refine (hi start _ start _ (.inl ⟨rfl, rfl⟩)).mono fun r s' hr => ?_
    obtain ⟨es, hes, hj, -⟩ := hr
    exact ⟨start, hstart, hes.symm ▸ hj⟩
  · exact (closeSplit_justifies (g := ⟨os, winner⟩) opened.reached leads ho).mono fun _ _ => opened.trans

theorem visit_justifies (hi : inner.Justifies st.graph) {id : String} (hn : st.graph.node? id = some n) :
    (visit st inner n).Justifies st.graph entry (fun past => Led st.graph entry past n.id) (Next.Led st.graph entry) := by
  obtain rfl := Graph.node?_id hn
  have kind {k : NodeKind} (hk : n.kind = k) (h : k ≠ .branch) : st.graph.kind? n.id ≠ some .branch := by
    simpa [Graph.kind?_of_node? hn, hk] using h
  unfold visit
  split
  · exact (passThrough_justifies n).bind fun _ => .pure fun past _ => Next.led_stop _ _ _ past
  · next hk => exact visitMarker_justifies (kind hk nofun)
  · next hk => exact visitMarker_justifies (kind hk nofun)
  · next hk => exact visitMarker_justifies (kind hk nofun)
  · next hk => exact visitMarker_justifies (kind hk nofun)
  · next hk => exact visitBranch_justifies hn hk
  · next hk => exact visitLoop_justifies hi (kind hk nofun)
  · next hk => exact visitSplit_justifies hi (kind hk nofun)
  · next hk => exact visitSkill_justifies (kind hk nofun)
  · next hk => exact visitQuestion_justifies (kind hk nofun)
  · next hk => exact visitQuestion_justifies (kind hk nofun)
  · next hk => exact visitQuestion_justifies (kind hk nofun)

end Nested

/-! ## Segments and runs -/

/-- All that is dispatched in a segment is led to, if its first node is. -/
theorem segment_justifies (st : Setting) (budget : Nat) : (segment st budget).Justifies st.graph := by
  induction budget with
  | zero =>
    intro entry boundaries id
    unfold segment
    exact .ite (.pure fun _ _ => trivial) (Walk.checkpoint_justifies.bind fun _ =>
      (Walk.Notes.request .visit).justifies.bind fun _ => .throw _)
  | succ budget ih =>
    intro entry boundaries id
    unfold segment
    refine .ite (.pure fun _ _ => trivial) (Walk.checkpoint_justifies.bind fun _ =>
      (Walk.Notes.request .visit).justifies.bind fun allowed => ?_)
    cases allowed with
    | false => exact .throw _
    | true =>
      rw [if_pos rfl]
      split
      · exact .throw _
      · next n hn =>
        obtain rfl := Graph.node?_id hn
        refine (visit_justifies ih hn).bind fun next => ?_
        cases next with
        | node id => exact (ih entry boundaries id).weaken fun _ h => h id rfl
        | stop flow => exact .pure fun _ _ => trivial

theorem runFrom_justifies (st : Setting) (start : String) {c : Context} (hc : c.history = []) :
    (runFrom st start c).Ensures (fun _ => True) fun o => Justified st.graph start [] o.scope.context.history := by
  refine Process.ensures_bind.mpr fun _ => Process.ensures_bind.mpr (Process.ensures_bind.mpr ?_)
  have walked := segment_justifies st st.config.maxVisits start [] start { context := c } (.inl ⟨hc, rfl⟩)
  refine Process.Ensures.mono walked fun p hp _ => ?_
  obtain ⟨es, he, hj, -⟩ := hp
  rw [hc, List.nil_append] at he
  rw [hc, ← he] at hj
  exact hj

/-- The steps in the result of a run that began without a history: the first is one of the start node,
    and each of the others is led to by a step before it. In particular no iteration edge is followed,
    no fallback edge without a failure, and no edge out of a branch. -/
theorem every_step_is_led_to {s : Setting} {c : Context} {p : Process Outcome} {w w' : Shared} {acts : List Act}
    {o : Outcome} (hr : run s c = .ok p) (hc : c.history = [])
    (h : Course s.config.maxVisits false (.at p) w acts (.finished o) w') (elapsedMs : Nat) :
    let r := o.result s.graph elapsedMs
    (∀ e, r.steps.head? = some e → s.graph.start?.map (·.id) = some e.node) ∧
      ∀ i (hi : i < r.steps.length), 0 < i → ∃ u ∈ r.steps.take i, Leads s.graph u r.steps[i].node := by
  obtain ⟨n, hn, rfl⟩ := start_of_run hr
  have justified : Justified s.graph n.id [] o.scope.context.history := h.ensured (runFrom_justifies s n.id hc)
  refine ⟨fun e he => ?_, fun i hi hpos => ?_⟩
  · have first : o.scope.context.history.head? = some e := he
    cases hh : o.scope.context.history with
    | nil => rw [hh] at first; cases first
    | cons e' es =>
      rw [hh] at first justified
      cases first
      obtain ⟨-, hid⟩ | ⟨u, hu, -⟩ := justified.1
      · rw [hn, Option.map_some, hid]
      · cases hu
  · have within : i < o.scope.context.history.length := hi
    obtain ⟨hnone, -⟩ | leads := justified.led i within
    · have none : o.scope.context.history = [] := by simpa [Nat.ne_of_gt hpos] using hnone
      rw [none] at within
      exact absurd within (Nat.not_lt_zero i)
    · rw [List.nil_append] at leads
      exact leads

/-- Where the second branch wins a race it is led to behind the steps of the first one, and the join
    behind the steps of them both. -/
theorem a_race_is_led_to_its_join : ∃ r : Rehearsal.Report, Rehearsal.rehearse rivals {} slowOne none = .ok r ∧
    r.result.steps.map (·.node) = ["start", "fork", "a", "b", "meet", "end"] ∧
      (∃ u ∈ r.result.steps.take 3, Leads rivals.graph u "b") ∧ ∃ u ∈ r.result.steps.take 4, Leads rivals.graph u "meet" := by
  have shown : (Rehearsal.rehearse rivals {} slowOne none).toOption.map (·.result.steps.map (·.node)) =
      some ["start", "fork", "a", "b", "meet", "end"] := by
    decide +kernel
  obtain ⟨r, hr, steps⟩ := Option.map_eq_some_iff.mp shown
  obtain ⟨p, acts, o, w', elapsedMs, hp, hc, he⟩ := rehearse_course (ok_of_toOption hr)
  obtain ⟨-, led⟩ := every_step_is_led_to hp rfl hc elapsedMs
  rw [← he] at led
  have count : r.result.steps.length = 6 := by simpa using congrArg List.length steps
  have node (i : Nat) (hi : i < r.result.steps.length) :
      some r.result.steps[i].node = ["start", "fork", "a", "b", "meet", "end"][i]? := by
    rw [← steps, List.getElem?_map, List.getElem?_eq_getElem hi, Option.map_some]
  have third : r.result.steps[3].node = "b" := Option.some.inj (node 3 (by omega))
  have fourth : r.result.steps[4].node = "meet" := Option.some.inj (node 4 (by omega))
  exact ⟨r, ok_of_toOption hr, steps, third ▸ led 3 (by omega) (by omega), fourth ▸ led 4 (by omega) (by omega)⟩

end Capability.Execution
