/-
  Capability.Proofs.Asides — what a run shows apart from its steps.

  Between the beginning and the end of a step, and between steps, a run makes asides: it tells of
  conditions that cannot be evaluated, of retries, of questions and of fallbacks, and is answered.
  A condition that fails is one that the graph has where it is looked at, and a skill that is invoked
  is one that its node names.

  (1) `Walk.Mentions`: whatever decides, chooses or calls makes asides, and records no steps.
  (2) `recover_mentions`: as long as every skill that is called gives a value, none but the first is.
-/

import Capability.Proofs.Trials

namespace Capability.Execution

variable {α β : Type} {g : Graph}

/-! ## Asides -/

/-- An expression that is looked at from a node is written in the graph where such expressions are:
    in a condition of a branch, of an implementation, of an edge out of the node, in the exit
    condition of an iteration edge or the trigger of a fallback edge. -/
inductive Consults (g : Graph) (node : String) : String → Prop
  | choice {n : Node} {c : BranchCondition} : g.node? node = some n → n.kind = .branch → c ∈ n.conditions →
      Consults g node c.expression
  | implementation {n : Node} {i : Implementation} {c : String} : g.node? node = some n → n.kind = .skill →
      i ∈ n.implementations → c ∈ i.conditions → Lint.isDefault c = false → Consults g node c
  | guard {e : Edge} {c : String} : e ∈ g.flow node → e.guard? = some c → Consults g node c
  | exit {e : Edge} {c : String} : e ∈ g.outgoing node → e.kind = .iteration → e.exitCondition = some c → Consults g node c
  | trigger {e : Edge} {c : String} : e ∈ g.outgoing node → e.kind = .fallback → e.trigger = some c → Consults g node c

/-- A condition failed that is looked at from its node, for what its message says. -/
structure FailedCondition (g : Graph) (f : ConditionFailure) : Prop where
  consulted : Consults g f.node f.expression
  reason : ∃ vars e, Condition.holds f.expression vars = .error e ∧ f.message = e.message

/-- A skill is invoked that its node names. -/
def Calls (g : Graph) (i : Invocation) : Prop :=
  ∃ n, g.node? i.node = some n ∧ n.kind = .skill ∧ i.skill ∈ Lint.skillsOf n

/-- What is shown apart from beginnings and ends of steps, with the conditions among it that failed.
    Fallbacks are told of while the step of their node is open. -/
inductive Aside (g : Graph) (open? : Option Node) : List Deed → List ConditionFailure → Prop
  | nil : Aside g open? [] []
  | append {ds ds' : List Deed} {fs fs' : List ConditionFailure} : Aside g open? ds fs → Aside g open? ds' fs' →
      Aside g open? (ds ++ ds') (fs ++ fs')
  | failed {f : ConditionFailure} : FailedCondition g f → Aside g open? [.told (.event (.conditionFailed f))] [f]
  | retrying (node : String) (attempt : Nat) (delay : Duration) :
      Aside g open? [.told (.event (.nodeRetrying node attempt delay))] []
  | asked (node prompt : String) : Aside g open? [.told (.event (.questionAsked node prompt))] []
  | answered {k : Call} (l : Option Duration) (a : Answer) : (∀ i, k = .skill i → Calls g i) → Aside g open? [.answered k l a] []
  | fallback {n : Node} (target : String) : open? = some n → Aside g open? [.told (.event (.fallbackUsed n.id target))] []

/-- Every attempt at a skill among some deeds gave a value or was cancelled. -/
def Served (ds : List Deed) : Prop :=
  ∀ i l a, .answered (.skill i) l a ∈ ds → a = .cancelled ∨ ∃ v, a = .given (.ok v)

/-- No fallback is told of. -/
def FallbackFree (ds : List Deed) : Prop := ∀ node target, .told (.event (.fallbackUsed node target)) ∉ ds

/-- A step that a cancellation interrupted, or that was completed at the first attempt. -/
def Step.Smooth (e : Step) : Prop :=
  e.status = .skipped ∧ e.interrupted = true ∨ e.status = .completed ∧ e.retryCount = 0 ∧ e.fallbackUsed = false

theorem Aside.weaken {ds : List Deed} {fs : List ConditionFailure} (h : Aside g none ds fs) (open? : Option Node) :
    Aside g open? ds fs := by
  induction h with
  | nil => exact .nil
  | append _ _ ih ih' => exact ih.append ih'
  | failed hf => exact .failed hf
  | retrying node attempt delay => exact .retrying node attempt delay
  | asked node prompt => exact .asked node prompt
  | answered l a hk => exact .answered l a hk
  | fallback target ho => cases ho

theorem Aside.fallbackFree {ds : List Deed} {fs : List ConditionFailure} (h : Aside g none ds fs) : FallbackFree ds := by
  induction h with
  | append _ _ ih ih' => exact fun node target hm => (List.mem_append.mp hm).elim (ih node target) (ih' node target)
  | fallback target ho => cases ho
  | _ => exact fun node target hm => by simp at hm

theorem Served.left {ds ds' : List Deed} (h : Served (ds ++ ds')) : Served ds :=
  fun i l a hm => h i l a (List.mem_append_left _ hm)

theorem Served.right {ds ds' : List Deed} (h : Served (ds ++ ds')) : Served ds' :=
  fun i l a hm => h i l a (List.mem_append_right _ hm)

/-! ## Walks that make asides -/

namespace Walk

variable {open? : Option Node} {P : List Deed → α → Prop}

/-- The walk makes asides, notes the failures among them, and comes to a value that satisfies `P`
    together with them. -/
def Mentions (g : Graph) (open? : Option Node) (w : Walk α) (P : List Deed → α → Prop) : Prop :=
  ∀ s, w.Recounts s fun ds r s' => ∃ a fs, r = .ok a ∧ s' = s.noting fs ∧ Aside g open? ds fs ∧ P ds a

/-- The walk makes asides that show nothing of trials. -/
def Rambles (g : Graph) (open? : Option Node) (w : Walk α) : Prop := w.Mentions g open? fun ds _ => trialsIn ds = []

theorem Mentions.mono {w : Walk α} (h : w.Mentions g open? P) {P' : List Deed → α → Prop} (hP : ∀ ds a, P ds a → P' ds a) :
    w.Mentions g open? P' := by
  refine fun s => (h s).mono fun ds r s' hr => ?_
  obtain ⟨a, fs, hr, hs, ha, hp⟩ := hr
  exact ⟨a, fs, hr, hs, ha, hP ds a hp⟩

/-- While no step needs to be open, no fallback is told of. -/
theorem Mentions.weaken {w : Walk α} (h : w.Mentions g none P) (open? : Option Node) :
    w.Mentions g open? fun ds a => P ds a ∧ FallbackFree ds := by
  refine fun s => (h s).mono fun ds r s' hr => ?_
  obtain ⟨a, fs, hr, hs, ha, hp⟩ := hr
  exact ⟨a, fs, hr, hs, ha.weaken open?, hp, ha.fallbackFree⟩

theorem Mentions.pure {a : α} (h : P [] a) : (pure a : Walk α).Mentions g open? P :=
  fun _ => .pure ⟨a, [], rfl, by simp, .nil, h⟩

theorem Mentions.bind {w : Walk α} (h : w.Mentions g open? P) {f : α → Walk β} {Q : List Deed → β → Prop}
    (hf : ∀ ds a, P ds a → (f a).Mentions g open? fun es b => Q (ds ++ es) b) : (w >>= f).Mentions g open? Q := by
  refine fun s => .bind ((h s).mono fun ds r s' hr => ?_)
  obtain ⟨a, fs, rfl, rfl, ha, hp⟩ := hr
  refine (hf ds a hp _).mono fun es r s' hr => ?_
  obtain ⟨b, gs, rfl, rfl, hb, hq⟩ := hr
  exact ⟨b, fs ++ gs, rfl, by simp, ha.append hb, hq⟩

theorem Mentions.ite {c : Prop} [Decidable c] {w w' : Walk α} (h : w.Mentions g open? P) (h' : w'.Mentions g open? P) :
    (if c then w else w').Mentions g open? P := by
  split
  · exact h
  · exact h'

theorem Rambles.bind {w : Walk α} (h : w.Rambles g open?) {f : α → Walk β} (hf : ∀ a, (f a).Rambles g open?) :
    (w >>= f).Rambles g open? :=
  Mentions.bind h fun _ a hs => (hf a).mono fun _ _ hs' => by rw [trialsIn_append, hs, hs', List.append_nil]

theorem Rambles.pure (a : α) : (pure a : Walk α).Rambles g open? := Mentions.pure rfl

theorem Rambles.ite {c : Prop} [Decidable c] {w w' : Walk α} (h : w.Rambles g open?) (h' : w'.Rambles g open?) :
    (if c then w else w').Rambles g open? :=
  Mentions.ite h h'

theorem Mentions.get {P : List Deed → Scope → Prop} (h : ∀ s, P [] s) : (get : Walk Scope).Mentions g open? P :=
  fun s => .get ⟨s, [], rfl, by simp, .nil, h s⟩

theorem Rambles.get : (get : Walk Scope).Rambles g open? := Mentions.get fun _ => rfl

/-- A request that is answered with an aside, or with nothing that is shown. -/
theorem Mentions.request {q : Request} (hr : q.reported? = none) (hc : q.completed? = none)
    (ha : ∀ r, Aside g open? (q.deed? r).toList []) {P : List Deed → q.Reply → Prop} (hP : ∀ r, P (q.deed? r).toList r) :
    (request q).Mentions g open? P :=
  fun _ => .request hr hc fun r => ⟨r, [], rfl, by simp, ha r, hP r⟩

theorem Rambles.pause (d : Duration) : (request (.pause d)).Rambles g open? :=
  Mentions.request rfl rfl (fun _ => .nil) fun _ => rfl

theorem Rambles.visit : mayVisit.Rambles g open? := Mentions.request rfl rfl (fun _ => .nil) fun _ => rfl

theorem Mentions.emit {e : Event} (he : e.completed? = none) (ha : Aside g open? [.told (.event e)] []) :
    (emit e).Mentions g open? fun ds _ => ds = [.told (.event e)] :=
  Mentions.request (q := .notify (.event e)) he rfl (fun _ => ha) fun _ => rfl

/-- An event that does not announce a retry. -/
theorem Rambles.emit {e : Event} (he : e.completed? = none) (ha : Aside g open? [.told (.event e)] [])
    (ht : trialsIn [.told (.event e)] = []) : (emit e).Rambles g open? :=
  (Mentions.emit he ha).mono fun _ _ hds => hds ▸ ht

theorem noteFailure_rambles {f : ConditionFailure} (hf : FailedCondition g f) : (noteFailure f).Rambles g open? := by
  refine fun s => .bind (.emit rfl ?_)
  exact Recounts.modify ⟨(), [f], rfl, rfl, .failed hf, rfl⟩

/-! ### Conditions -/

/-- A condition that is looked at is one that the graph has there. -/
theorem holdsUnder_rambles (vars : Keyed Json) {node expression : String} (h : Consults g node expression) :
    (holdsUnder vars node expression).Rambles g open? := by
  unfold holdsUnder
  split
  · exact .pure _
  · next e he =>
    have failed : FailedCondition g ⟨node, expression, e.message⟩ := ⟨h, vars, e, he, rfl⟩
    exact .bind (noteFailure_rambles failed) fun _ => .pure _

theorem holds_rambles {node expression : String} (h : Consults g node expression) : (holds node expression).Rambles g open? :=
  .bind .get fun _ => holdsUnder_rambles _ h

theorem allHold_rambles {test : String → Walk Bool} {cs : List String} (h : ∀ c ∈ cs, (test c).Rambles g open?) :
    (allHold test cs).Rambles g open? := by
  induction cs with
  | nil => exact .pure _
  | cons c cs ih => exact .bind (h c (.head _)) fun _ => .ite (ih fun d hd => h d (.tail _ hd)) (.pure _)

theorem firstWhere_rambles {test : α → Walk Bool} {as : List α} (h : ∀ a ∈ as, (test a).Rambles g open?) :
    (firstWhere test as).Rambles g open? := by
  induction as with
  | nil => exact .pure _
  | cons a as ih => exact .bind (h a (.head _)) fun _ => .ite (.pure _) (ih fun b hb => h b (.tail _ hb))

theorem keepWhere_mentions {test : α → Walk Bool} {as : List α} (h : ∀ a ∈ as, (test a).Rambles g open?) :
    (keepWhere test as).Mentions g open? fun ds kept => trialsIn ds = [] ∧ kept ⊆ as := by
  induction as with
  | nil => exact .pure ⟨rfl, List.Subset.refl _⟩
  | cons a as ih =>
    refine Mentions.bind (h a (.head _)) fun _ keeps hs => (ih fun b hb => h b (.tail _ hb)).bind fun _ others ho => .pure ?_
    obtain ⟨hs', ho⟩ := ho
    refine ⟨by simp [hs, hs'], ?_⟩
    cases keeps with
    | true => exact List.cons_subset_cons a ho
    | false => exact List.subset_cons_of_subset a ho

end Walk

open Walk (Rambles Mentions)

section Asides

variable {open? : Option Node} {st : Setting} {n : Node} {node : String}

theorem chooseEdge_rambles {es : List Edge} (h : ∀ e ∈ es, ∀ c, e.guard? = some c → Consults g node c) (e? : Option Edge) :
    (chooseEdge node es e?).Rambles g open? := by
  induction es generalizing e? with
  | nil => exact .pure _
  | cons e es ih =>
    have rest := ih fun e' he' => h e' (.tail _ he')
    unfold chooseEdge
    split
    · exact rest _
    · next c hc => exact .bind (Walk.holds_rambles (h e (.head _) c hc)) fun _ => .ite (.pure _) (rest _)

theorem successor_rambles (st : Setting) (node : String) : (successor st node).Rambles st.graph open? :=
  .bind (chooseEdge_rambles (fun _ he _ hc => .guard he hc) none) fun _ => .pure _

theorem advance_rambles (st : Setting) (node : String) : (advance st node).Rambles st.graph open? := by
  refine .bind (successor_rambles st node) fun next => ?_
  cases next <;> exact .pure _

theorem exits_rambles {e : Edge} (he : e ∈ g.outgoing node) (hk : e.kind = .iteration) : (exits node e).Rambles g open? := by
  unfold exits
  split
  · next c hc => exact Walk.holds_rambles (.exit he hk hc)
  · exact .pure _

theorem opensBranch_rambles {e : Edge} (he : e ∈ g.flow n.id) : (opensBranch n e).Rambles g open? := by
  unfold opensBranch
  split
  · next c hc => exact Walk.holds_rambles (.guard he hc)
  · exact .pure _

theorem triggers_rambles (vars : Keyed Json) {e : Edge} (he : e ∈ g.outgoing n.id) (hk : e.kind = .fallback) :
    (triggers vars n e).Rambles g open? := by
  unfold triggers
  split
  · exact .pure _
  · next c hc => exact Walk.holdsUnder_rambles vars (.trigger he hk hc)

/-! ### Skills -/

/-- A call of a skill that its node names comes to what it is answered. -/
theorem call_mentions {k : Call} (hk : ∀ i, k = .skill i → Calls g i) (l : Option Duration) :
    (call node k l).Mentions g open? fun ds r => ∃ a : Answer, ds = [.answered k l a] ∧ r = a.outcome node l :=
  (Mentions.request (q := .call k l) (P := fun ds a => ds = [.answered k l a]) rfl rfl (fun _ => .answered l _ hk)
    fun _ => rfl).bind fun _ a h => .pure ⟨a, by simpa using h, rfl⟩

theorem question_rambles (q : Question) (l : Option Duration) : (call node (.question q) l).Rambles g open? :=
  (call_mentions (fun _ hi => by cases hi) l).mono fun _ _ ⟨_, hds, _⟩ => hds ▸ rfl

/-- The first of some attempts comes to what it is answered, and a value ends them. -/
theorem attempts_mention {i : Nat → Invocation} (hi : ∀ k, Calls g (i k)) {l : Option Duration} {a : Attempts Walk Json}
    (ha : ∀ k, a.attempt k = call node (.skill (i k)) l) (hn : ∀ k d, a.announce k d = Walk.emit (.nodeRetrying node k d))
    (hp : ∀ d, a.pause d = Walk.request (.pause d)) (backoff : Backoff) (retries k : Nat) :
    (a.run backoff retries k).Mentions g open? fun ds r =>
      Served ds → ((∃ v, r.outcome = .ok v) ∨ r.outcome = .error .cancelled) ∧ r.retries = k := by
  have attempt (k : Nat) : (a.attempt k).Mentions g open? fun ds r =>
      Served ds → (∃ v, r = .ok v) ∨ r = .error .cancelled := by
    rw [ha]
    refine (call_mentions (fun j hj => ?_) l).mono fun ds r hr hserved => ?_
    · cases hj
      exact hi k
    · obtain ⟨a, rfl, rfl⟩ := hr
      obtain rfl | ⟨v, rfl⟩ := hserved (i k) l a (.head _)
      · exact .inr rfl
      · exact .inl ⟨v, rfl⟩
  -- A fault that is retried is none that a served call can come to.
  have disturbed {ds : List Deed} {fault : Fault} {r : Except Fault Json} (hr : r = .error fault)
      (hd : Served ds → (∃ v, r = .ok v) ∨ r = .error .cancelled) (hretry : fault.isRetryable = true) : ¬Served ds := by
    intro hserved
    subst hr
    obtain ⟨v, hv⟩ | hc := hd hserved
    · cases hv
    · cases hc
      cases hretry
  induction retries generalizing k with
  | zero =>
    unfold Attempts.run
    refine (attempt k).bind fun ds r hr => ?_
    cases r with
    | ok v => exact .pure fun _ => ⟨.inl ⟨v, rfl⟩, rfl⟩
    | error fault => exact .pure fun hserved => ⟨hr hserved.left, rfl⟩
  | succ retries ih =>
    unfold Attempts.run
    refine (attempt k).bind fun ds r hr => ?_
    cases r with
    | ok v => exact .pure fun _ => ⟨.inl ⟨v, rfl⟩, rfl⟩
    | error fault =>
      dsimp only
      split
      · next retried =>
        have never : ∀ {ds' : List Deed}, ¬Served (ds ++ ds') := fun hserved => disturbed rfl hr retried hserved.left
        simp only [hn, hp]
        refine Mentions.bind (Mentions.emit rfl (.retrying node (k + 1) _)) fun _ _ _ =>
          Mentions.bind (Rambles.pause _) fun _ (cut : Bool) _ => .ite (.pure fun hserved => absurd hserved never) ?_
        exact (ih (k + 1)).mono fun _ _ _ hserved => absurd hserved never
      · exact .pure fun hserved => ⟨hr hserved.left, rfl⟩

/-- As long as an attempt at a skill is served it is the only one. -/
theorem attemptSkill_mentions (hn : st.graph.node? n.id = some n) (hk : n.kind = .skill) {skill : String}
    (hs : skill ∈ Lint.skillsOf n) (implementation : Option String) :
    (attemptSkill st n skill implementation).Mentions st.graph open? fun ds r =>
      Served ds → ((∃ v, r.outcome = .ok v) ∨ r.outcome = .error .cancelled) ∧ r.retries = 0 :=
  (Mentions.get (P := fun ds _ => ds = []) fun _ => rfl).bind fun ds s hds => by
    subst hds
    exact attempts_mention (fun _ => ⟨n, hn, hk, hs⟩) (fun _ => rfl) (fun _ _ => rfl) (fun _ => rfl) _ _ _

theorem implementationHolds_rambles (hn : g.node? n.id = some n) (hk : n.kind = .skill) {i : Implementation}
    (hi : i ∈ n.implementations) {c : String} (hc : c ∈ i.conditions) : (implementationHolds n c).Rambles g open? := by
  unfold implementationHolds
  split
  · exact .pure _
  · next hd => exact Walk.holds_rambles (.implementation hn hk hi hc (by simpa using hd))

/-- The implementations that apply are among those of the node. -/
theorem rankedImplementations_mentions (hn : g.node? n.id = some n) (hk : n.kind = .skill) :
    (rankedImplementations n).Mentions g open? fun _ is => is ⊆ n.implementations := by
  unfold rankedImplementations
  have applicable (i : Implementation) (hi : i ∈ n.implementations) :
      (Walk.allHold (implementationHolds n) i.conditions).Rambles g open? :=
    Walk.allHold_rambles fun c hc => implementationHolds_rambles hn hk hi hc
  refine (Walk.keepWhere_mentions applicable).bind fun _ kept ⟨_, hkept⟩ => .pure ?_
  have sorted : (kept.mergeSort fun a b => a.priority ≤ b.priority) ⊆ n.implementations :=
    fun i hi => hkept (List.mem_mergeSort.mp hi)
  exact sorted

theorem tryAlternatives_mentions (hn : st.graph.node? n.id = some n) (hk : n.kind = .skill) (room : Nat)
    (attempted : List String) {queue : List Implementation} (hq : queue ⊆ n.implementations) (retries : Nat) (last : Fault) :
    (tryAlternatives st n room attempted queue retries last).Mentions st.graph (some n) fun _ _ => True := by
  induction room generalizing attempted queue retries last with
  | zero => unfold tryAlternatives; split <;> exact .pure trivial
  | succ room ih =>
    unfold tryAlternatives
    split
    · exact .pure trivial
    · next i rest hrest =>
      obtain ⟨-, within, -⟩ := mem_of_dropWhile hrest
      have queued : i :: rest ⊆ n.implementations := fun j hj => hq (within j hj)
      have named : i.skillId ∈ Lint.skillsOf n := List.mem_append_right _ (List.mem_map_of_mem (queued (.head _)))
      have further : fallbacksOf n i ++ rest ⊆ n.implementations := by
        exact List.append_subset.mpr ⟨fun j hj => mem_of_fallbacksOf hj, fun j hj => queued (.tail _ hj)⟩
      refine (Mentions.emit rfl (.fallback _ rfl)).bind fun _ _ _ => (attemptSkill_mentions hn hk named _).bind fun _ r _ => ?_
      split
      · exact .pure trivial
      · exact .ite (.pure trivial) (ih _ further _ _)

/-- As long as every skill that is called gives a value, none but that of the node itself is. -/
theorem recover_mentions (hn : st.graph.node? n.id = some n) (hk : n.kind = .skill) {skill : String}
    (hs : n.skillId = some skill) : (recover st n skill).Mentions st.graph (some n) fun ds r =>
      Served ds → (((∃ v, r.outcome = .ok (v, none)) ∨ r.outcome = .error .cancelled) ∧ r.retries = 0) ∧ FallbackFree ds := by
  have named : skill ∈ Lint.skillsOf n := List.mem_append_left _ (by simp [hs])
  refine ((attemptSkill_mentions hn hk named none).weaken (some n)).bind fun ds r hr => ?_
  obtain ⟨hr, free⟩ := hr
  split
  · next v hv =>
    refine .pure ?_
    rw [List.append_nil]
    exact fun hserved => ⟨⟨.inl ⟨v, rfl⟩, (hr hserved).2⟩, free⟩
  · next fault hf =>
    -- A served attempt comes to no fault but that of a cancellation.
    have cancelled (hserved : Served ds) : fault = .cancelled := by
      obtain ⟨⟨v, hv⟩ | hc, -⟩ := hr hserved
      · cases hf.symm.trans hv
      · exact Except.error.inj (hf.symm.trans hc)
    split
    · refine .pure ?_
      rw [List.append_nil]
      exact fun hserved => ⟨⟨.inr (congrArg _ (cancelled hserved)), (hr hserved).2⟩, free⟩
    · next mendable =>
      have never {es : List Deed} : ¬Served (ds ++ es) := fun hserved => mendable (cancelled hserved.left ▸ rfl)
      refine (rankedImplementations_mentions hn hk).bind fun _ queue hq => ?_
      exact (tryAlternatives_mentions hn hk _ _ hq _ _).mono fun _ _ _ hserved => absurd hserved never

end Asides

end Capability.Execution
