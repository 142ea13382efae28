/-
  Capability.Proofs.Growth — all that a strand does to its scope.

  A scope grows by conditions that could not be evaluated, by variables, by passes of loops,
  by steps that are begun and closed one after another, and by branches folded back. While a
  step is open, only conditions and variables are added, and the step may be put to wait.

  (1) `Walk.Notes`: walks that decide conditions, choose where to go on or make calls do
      nothing but note the conditions that could not be evaluated.
  (2) `segment_grows`: every segment grows its scope, whatever is replied.
-/

import Capability.Proofs.Ensures

namespace Capability

/-! ## Scopes -/

namespace Scope

/-- Records conditions that could not be evaluated. -/
def noting (s : Scope) (fs : List ConditionFailure) : Scope :=
  { s with trace.conditionFailures := s.trace.conditionFailures ++ fs }

@[simp] theorem noting_nil (s : Scope) : s.noting [] = s := by simp [noting]

@[simp] theorem noting_noting (s : Scope) (fs gs : List ConditionFailure) :
    (s.noting fs).noting gs = s.noting (fs ++ gs) := by simp [noting]

@[simp] theorem noting_context (s : Scope) (fs : List ConditionFailure) : (s.noting fs).context = s.context := rfl

/-- What becomes of a scope while a step is open in it. -/
inductive During (step : OpenStep) (s : Scope) : Scope → Prop
  | refl : During step s s
  | noting {s' : Scope} (fs : List ConditionFailure) : During step s s' → During step s (s'.noting fs)
  | awaitStep {s' : Scope} : During step s s' → During step s (s'.awaitStep step)
  | set {s' : Scope} (key : String) (value : Json) : During step s s' → During step s (s'.set key value)

/-- What becomes of a scope in the hands of one strand. -/
inductive Grows : Scope → Scope → Prop
  | refl (s : Scope) : Grows s s
  | noting {s s' : Scope} (fs : List ConditionFailure) : Grows s s' → Grows s (s'.noting fs)
  | set {s s' : Scope} (key : String) (value : Json) : Grows s s' → Grows s (s'.set key value)
  | countPass {s s' : Scope} : Grows s s' → Grows s s'.countPass
  | finish {s s' t : Scope} {node : String} {status : StepStatus} (report : StepReport) : Grows s s' →
      During (s'.nextStep node) (s'.beginStep node) t → status.isFinished = true →
      Grows s (t.finishStep (s'.nextStep node) status report)
  | cancel {s s' t : Scope} {node : String} : Grows s s' →
      During (s'.nextStep node) (s'.beginStep node) t → Grows s (t.cancelStep (s'.nextStep node))
  | merge {s s' r b : Scope} : Grows s s' → Grows r.fork b → Grows s (s'.merge b)
  | absorb {s s' r b : Scope} : Grows s s' → Grows r.fork b → Grows s (s'.absorb b)

theorem Grows.trans {s t u : Scope} (h : Grows s t) (h' : Grows t u) : Grows s u := by
  induction h' with
  | refl => exact h
  | noting fs _ ih => exact (ih h).noting fs
  | set key value _ ih => exact (ih h).set key value
  | countPass _ ih => exact (ih h).countPass
  | finish report _ hd hs ih => exact (ih h).finish report hd hs
  | cancel _ hd ih => exact (ih h).cancel hd
  | merge _ hb ih _ => exact (ih h).merge hb
  | absorb _ hb ih _ => exact (ih h).absorb hb

end Scope

namespace Execution

variable {J : Joining → Prop}

/-! ## Walks that only note -/

namespace Walk

variable {α β : Type} {s : Scope}

/-- The walk is not broken off and does nothing to its scope but note conditions. -/
def Notes (w : Walk α) : Prop :=
  ∀ J s, w.Ensures J s fun r s' => (∃ a, r = .ok a) ∧ ∃ fs, s' = s.noting fs

theorem Notes.ensures {w : Walk α} (h : w.Notes) {Q : Except Halt α → Scope → Prop}
    (hQ : ∀ a fs, Q (.ok a) (s.noting fs)) : w.Ensures J s Q := by
  refine (h J s).mono fun r s' hr => ?_
  obtain ⟨⟨a, rfl⟩, fs, rfl⟩ := hr
  exact hQ a fs

theorem Notes.ensures_bind {w : Walk α} (h : w.Notes) {f : α → Walk β} {Q : Except Halt β → Scope → Prop}
    (hf : ∀ a fs, (f a).Ensures J (s.noting fs) Q) : (w >>= f).Ensures J s Q :=
  Walk.ensures_bind.mpr (h.ensures hf)

theorem Notes.pure (a : α) : (pure a : Walk α).Notes := fun _ s => ⟨⟨a, rfl⟩, [], by simp⟩

theorem Notes.get : (get : Walk Scope).Notes := fun _ s => ⟨⟨s, rfl⟩, [], by simp⟩

theorem Notes.request (q : Request) : (request q).Notes := fun _ _ r => ⟨⟨r, rfl⟩, [], by simp⟩

theorem Notes.bind {w : Walk α} (h : w.Notes) {f : α → Walk β} (hf : ∀ a, (f a).Notes) : (w >>= f).Notes := by
  intro J s
  refine h.ensures_bind fun a fs => (hf a).ensures fun b gs => ⟨⟨b, rfl⟩, fs ++ gs, by simp⟩

theorem Notes.ite {c : Prop} [Decidable c] {w w' : Walk α} (h : w.Notes) (h' : w'.Notes) :
    (if c then w else w').Notes := by
  split
  · exact h
  · exact h'

theorem Notes.emit (e : Event) : (emit e).Notes := .request _

theorem noteFailure_notes (f : ConditionFailure) : (noteFailure f).Notes :=
  .bind (.emit _) fun _ _ _ => ⟨⟨(), rfl⟩, [f], rfl⟩

theorem holdsUnder_notes (vars : Keyed Json) (node expression : String) :
    (holdsUnder vars node expression).Notes := by
  unfold holdsUnder
  split
  · exact .pure _
  · exact .bind (noteFailure_notes _) fun _ => .pure _

theorem holds_notes (node expression : String) : (holds node expression).Notes :=
  .bind .get fun _ => holdsUnder_notes _ _ _

theorem allHold_notes {test : String → Walk Bool} (h : ∀ c, (test c).Notes) : ∀ cs, (allHold test cs).Notes
  | [] => .pure _
  | c :: cs => .bind (h c) fun _ => .ite (allHold_notes h cs) (.pure _)

theorem firstWhere_notes {test : α → Walk Bool} (h : ∀ a, (test a).Notes) : ∀ as, (firstWhere test as).Notes
  | [] => .pure _
  | a :: as => .bind (h a) fun _ => .ite (.pure _) (firstWhere_notes h as)

theorem keepWhere_notes {test : α → Walk Bool} (h : ∀ a, (test a).Notes) : ∀ as, (keepWhere test as).Notes
  | [] => .pure _
  | a :: as => .bind (h a) fun _ => .bind (keepWhere_notes h as) fun _ => .pure _

end Walk

open Walk (Notes)

theorem chooseEdge_notes (node : String) (es : List Edge) (e? : Option Edge) : (chooseEdge node es e?).Notes := by
  induction es generalizing e? with
  | nil => exact .pure _
  | cons e es ih =>
    unfold chooseEdge
    split
    · exact ih _
    · exact .bind (Walk.holds_notes _ _) fun _ => .ite (.pure _) (ih _)

theorem successor_notes (st : Setting) (node : String) : (successor st node).Notes :=
  .bind (chooseEdge_notes _ _ _) fun _ => .pure _

theorem advance_notes (st : Setting) (node : String) : (advance st node).Notes := by
  refine .bind (successor_notes _ _) fun next => ?_
  cases next <;> exact .pure _

theorem call_notes (node : String) (c : Call) (limit : Option Duration) : (call node c limit).Notes :=
  .bind (.request _) fun _ => .pure _

theorem attempts_notes {α : Type} {a : Attempts Walk α} (ha : ∀ n, (a.attempt n).Notes)
    (hn : ∀ n d, (a.announce n d).Notes) (hp : ∀ d, (a.pause d).Notes) (backoff : Backoff) (retries n : Nat) :
    (a.run backoff retries n).Notes := by
  induction retries generalizing n with
  | zero =>
    unfold Attempts.run
    refine .bind (ha n) fun r => ?_
    cases r <;> exact .pure _
  | succ retries ih =>
    unfold Attempts.run
    refine .bind (ha n) fun r => ?_
    cases r with
    | ok v => exact .pure _
    | error fault => exact .ite (.bind (hn _ _) fun _ => .bind (hp _) fun _ => .ite (.pure _) (ih _)) (.pure _)

theorem attemptSkill_notes (st : Setting) (n : Node) (skill : String) (implementation : Option String) :
    (attemptSkill st n skill implementation).Notes :=
  .bind .get fun _ => attempts_notes (fun _ => call_notes _ _ _) (fun _ _ => .emit _) (fun _ => .request _) _ _ _

theorem implementationHolds_notes (n : Node) (condition : String) : (implementationHolds n condition).Notes :=
  .ite (.pure _) (Walk.holds_notes _ _)

theorem rankedImplementations_notes (n : Node) : (rankedImplementations n).Notes :=
  .bind (Walk.keepWhere_notes (fun _ => Walk.allHold_notes (implementationHolds_notes n) _) _) fun _ => .pure _

theorem tryAlternatives_notes (st : Setting) (n : Node) (room : Nat) (attempted : List String)
    (queue : List Implementation) (retries : Nat) (last : Fault) :
    (tryAlternatives st n room attempted queue retries last).Notes := by
  induction room generalizing attempted queue retries last with
  | zero => unfold tryAlternatives; split <;> exact .pure _
  | succ room ih =>
    unfold tryAlternatives
    split
    · exact .pure _
    · refine .bind (.emit _) fun _ => .bind (attemptSkill_notes _ _ _ _) fun r => ?_
      split
      · exact .pure _
      · exact .ite (.pure _) (ih _ _ _ _)

theorem recover_notes (st : Setting) (n : Node) (skill : String) : (recover st n skill).Notes := by
  refine .bind (attemptSkill_notes _ _ _ _) fun r => ?_
  split
  · exact .pure _
  · exact .ite (.pure _) (.bind (rankedImplementations_notes n) fun _ => tryAlternatives_notes _ _ _ _ _ _ _)

theorem triggers_notes (vars : Keyed Json) (n : Node) (e : Edge) : (triggers vars n e).Notes := by
  unfold triggers
  split
  · exact .pure _
  · exact Walk.holdsUnder_notes _ _ _

theorem exits_notes (loopEnd : String) (e : Edge) : (exits loopEnd e).Notes := by
  unfold exits
  split
  · exact Walk.holds_notes _ _
  · exact .pure _

theorem opensBranch_notes (n : Node) (e : Edge) : (opensBranch n e).Notes := by
  unfold opensBranch
  split
  · exact Walk.holds_notes _ _
  · exact .pure _

/-! ## Walks that grow their scope -/

/-- Whatever the walk comes to, its scope has grown. -/
def Walk.Grows (J : Joining → Prop) {α : Type} (w : Walk α) : Prop := ∀ s, w.Ensures J s fun _ s' => s.Grows s'

section Closure

variable {α β : Type}

theorem Walk.Notes.grows {w : Walk α} (h : w.Notes) : w.Grows J :=
  fun s => h.ensures fun _ fs => .noting fs (.refl s)

theorem Walk.Grows.bind {w : Walk α} (h : w.Grows J) {f : α → Walk β} (hf : ∀ a, (f a).Grows J) :
    (w >>= f).Grows J := by
  intro s
  refine Walk.ensures_bind.mpr ((h s).mono fun r s' hr => ?_)
  cases r with
  | error => exact hr
  | ok a => exact (hf a s').mono fun _ _ => hr.trans

theorem Walk.Grows.throw (h : Halt) : (throw h : Walk α).Grows J := fun s => .refl s

theorem Walk.Grows.ite {c : Prop} [Decidable c] {w w' : Walk α} (h : w.Grows J) (h' : w'.Grows J) :
    (if c then w else w').Grows J := by
  split
  · exact h
  · exact h'

theorem Walk.checkpoint_grows : Walk.checkpoint.Grows J := by
  refine (Walk.Notes.request .stopped).grows.bind fun stopped => ?_
  cases stopped with
  | false => exact (Walk.Notes.pure ()).grows
  | true => exact .throw _

theorem Walk.passThrough_grows (n : Node) : (Walk.passThrough n).Grows J :=
  fun s => Walk.ensures_passThrough.mpr (.finish _ (.refl s) .refl rfl)

end Closure

/-- As long as no answer comes, nothing is closed; a cancellation closes the step. -/
theorem skips_ensures {s t : Scope} {step : OpenStep} (hd : Scope.During step s t) (st : Setting) (n : Node)
    (fault : Fault) :
    (skips st n step fault).Ensures J t fun r t' =>
      match r with
      | .ok _ => Scope.During step s t'
      | .error _ => ∃ u, Scope.During step s u ∧ t' = u.cancelStep step := by
  unfold skips
  split
  · exact hd
  · exact hd
  · exact hd
  · simp only [Walk.ensures_bind, Walk.ensures_modify, Walk.ensures_emit]
    refine (call_notes _ _ _).ensures fun outcome fs => ?_
    have hw : Scope.During step s ((t.awaitStep step).noting fs) := hd.awaitStep.noting fs
    cases outcome with
    | ok _ => exact hw
    | error f =>
      cases f with
      | cancelled => exact Walk.ensures_cancelStep.mpr ⟨_, hw, rfl⟩
      | _ => exact hw

/-- A node that failed for good has its step closed. -/
theorem handleFailure_grows {s t : Scope} {n : Node}
    (hd : Scope.During (s.nextStep n.id) (s.beginStep n.id) t) (st : Setting) (fault : Fault) (retries : Nat) :
    (handleFailure st n (s.nextStep n.id) fault retries).Ensures J t fun _ t' => s.Grows t' := by
  unfold handleFailure
  simp only [Walk.ensures_bind, Walk.ensures_get]
  refine (Walk.firstWhere_notes (triggers_notes _ n) _).ensures fun reroute fs => ?_
  have hn := hd.noting fs
  cases reroute with
  | some e =>
    simp only [Walk.ensures_bind, Walk.ensures_emit, Walk.ensures_finishStep, Walk.ensures_pure]
    exact .finish _ (.refl s) hn rfl
  | none =>
    refine Walk.ensures_bind.mpr ((skips_ensures hn st n fault).mono fun r t' hr => ?_)
    cases r with
    | error _ =>
      obtain ⟨u, hu, rfl⟩ := hr
      exact .cancel (.refl s) hu
    | ok skipped =>
      cases skipped with
      | true =>
        simp only [if_true, Walk.ensures_bind, Walk.ensures_finishStep]
        exact (advance_notes _ _).ensures fun _ gs => .noting gs (.finish _ (.refl s) hr rfl)
      | false =>
        simp only [Bool.false_eq_true, if_false, Walk.ensures_failStep]
        exact .finish _ (.refl s) hr rfl

theorem visitMarker_grows (st : Setting) (n : Node) : (visitMarker st n).Grows J :=
  (Walk.passThrough_grows n).bind fun _ => (advance_notes _ _).grows

theorem visitBranch_grows (n : Node) : (visitBranch n).Grows J := by
  intro s
  unfold visitBranch
  simp only [Walk.ensures_bind, Walk.ensures_beginStep]
  split
  · exact Walk.ensures_failStep.mpr (.finish _ (.refl s) .refl rfl)
  · refine (Walk.firstWhere_notes (fun _ => Walk.holds_notes _ _) _).ensures_bind fun _ fs => ?_
    simp only [Walk.ensures_bind, Walk.ensures_finishStep, Walk.ensures_pure]
    exact .finish _ (.refl s) (.noting fs .refl) rfl

theorem bindOutputs_during {step : OpenStep} {s t : Scope} (hd : Scope.During step s t) (n : Node) (value : Json) :
    Scope.During step s (bindOutputs n value t) := by
  unfold bindOutputs
  generalize n.outputs = names
  have h0 : Scope.During step s (t.set (resultVariable n) value) := hd.set _ _
  generalize t.set (resultVariable n) value = u at h0
  induction names generalizing u with
  | nil => exact h0
  | cons name names ih => exact ih _ (h0.set _ _)

theorem visitSkill_grows (st : Setting) (n : Node) : (visitSkill st n).Grows J := by
  intro s
  unfold visitSkill
  simp only [Walk.ensures_bind, Walk.ensures_beginStep]
  split
  · exact Walk.ensures_failStep.mpr (.finish _ (.refl s) .refl rfl)
  · refine (recover_notes _ _ _).ensures_bind fun r fs => ?_
    have hd : Scope.During (s.nextStep n.id) (s.beginStep n.id) ((s.beginStep n.id).noting fs) := .noting fs .refl
    split
    · simp only [Walk.ensures_bind, Walk.ensures_modify, Walk.ensures_finishStep]
      exact (advance_notes _ _).ensures fun _ gs => .noting gs (.finish _ (.refl s) (bindOutputs_during hd n _) rfl)
    · exact Walk.ensures_cancelStep.mpr (.cancel (.refl s) hd)
    · exact handleFailure_grows hd _ _ _

theorem visitQuestion_grows (st : Setting) (n : Node) : (visitQuestion st n).Grows J := by
  intro s
  unfold visitQuestion
  simp only [Walk.ensures_bind, Walk.ensures_beginStep]
  split
  · exact Walk.ensures_failStep.mpr (.finish _ (.refl s) .refl rfl)
  · simp only [Walk.ensures_bind, Walk.ensures_modify, Walk.ensures_get, Walk.ensures_emit]
    refine (call_notes _ _ _).ensures fun r fs => ?_
    have hd : Scope.During (s.nextStep n.id) (s.beginStep n.id)
        (((s.beginStep n.id).awaitStep (s.nextStep n.id)).noting fs) := .noting fs (.awaitStep .refl)
    dsimp only
    split
    · simp only [Walk.ensures_bind, Walk.ensures_modify, Walk.ensures_finishStep]
      exact (advance_notes _ _).ensures fun _ gs => .noting gs (.finish _ (.refl s) (hd.set _ _) rfl)
    · exact Walk.ensures_cancelStep.mpr (.cancel (.refl s) hd)
    · exact handleFailure_grows hd _ _ _

/-! ## Loops and splits -/

/-- How a node is visited does not matter as long as the segments inside grow their scopes. -/
def Inner.Grows (J : Joining → Prop) (inner : Inner) : Prop := ∀ boundaries start, (inner boundaries start).Grows J

theorem passNode_grows (st : Setting) (id : String) : (passNode st id).Grows J := by
  unfold passNode
  split
  · exact Walk.passThrough_grows _
  · exact (Walk.Notes.pure _).grows

theorem closePass_grows (st : Setting) (e : Edge) : (closePass st e).Grows J :=
  Walk.checkpoint_grows.bind fun _ => (passNode_grows _ _).bind fun _ => (exits_notes _ _).grows

theorem numberPass_grows (st : Setting) (n : Node) (i : Nat) : (numberPass st n i).Grows J :=
  fun s => .countPass (.set _ _ (.set _ _ (.refl s)))

theorem passes_grows {inner : Inner} (hi : inner.Grows J) (st : Setting) (n : Node) (e : Edge) (left i : Nat) :
    (passes st inner n e left i).Grows J := by
  induction left generalizing i with
  | zero => exact (Walk.Notes.pure _).grows
  | succ left ih =>
    unfold passes
    refine Walk.checkpoint_grows.bind fun _ => (numberPass_grows st n i).bind fun _ =>
      (successor_notes _ _).grows.bind fun body => ?_
    cases body with
    | none => exact (Walk.Notes.pure _).grows
    | some body =>
      refine (hi _ _).bind fun flow => ?_
      cases flow with
      | ended => exact (Walk.Notes.pure _).grows
      | deadEnd => exact ih _
      | boundary id =>
        show Walk.Grows J (if id = e.source then _ else _)
        split
        · refine (closePass_grows _ _).bind fun out => ?_
          cases out with
          | true => exact (Walk.Notes.pure _).grows
          | false => exact ih _
        · exact ih _

theorem visitLoop_grows {inner : Inner} (hi : inner.Grows J) (st : Setting) (n : Node) :
    (visitLoop st inner n).Grows J := by
  intro s
  unfold visitLoop
  simp only [Walk.ensures_bind, Walk.ensures_beginStep]
  split
  · exact Walk.ensures_failStep.mpr (.finish _ (.refl s) .refl rfl)
  · simp only [Walk.ensures_bind, Walk.ensures_finishStep]
    refine (passes_grows hi st n _ _ 0 _).mono fun r s' hr => ?_
    have hs : s.Grows s' := (Scope.Grows.finish _ (.refl s) .refl rfl).trans hr
    cases r with
    | error _ => exact hs
    | ok ended =>
      cases ended with
      | true => exact hs
      | false => exact (advance_notes _ _).ensures fun _ fs => hs.noting fs

theorem openSplit_grows (st : Setting) (n : Node) : (openSplit st n).Grows J := by
  intro s
  unfold openSplit
  simp only [Walk.ensures_bind, Walk.ensures_beginStep]
  refine (Walk.keepWhere_notes (opensBranch_notes n) _).ensures fun edges fs => ?_
  simp only [Walk.ensures_finishStep, Walk.ensures_pure]
  exact .finish _ (.refl s) (.noting fs .refl) rfl

theorem foldBranch_grows (joining : Joining) (winner : Option Nat) {r s t : Scope} {o : Outcome} (h : s.Grows t)
    (ho : r.fork.Grows o.scope) (i : Nat) : s.Grows (foldBranch joining winner t o i) := by
  unfold foldBranch
  split
  · exact h.merge ho
  · exact h.absorb ho

theorem foldBranches_grows (joining : Joining) (g : Gathered) {r : Scope}
    (h : ∀ o ∈ g.outcomes, r.fork.Grows o.scope) (s : Scope) : s.Grows (foldBranches joining g s) := by
  have hm : ∀ p ∈ g.outcomes.zipIdx, r.fork.Grows p.1.scope := fun p hp => h _ (List.fst_mem_of_mem_zipIdx hp)
  have fold : ∀ (os : List (Outcome × Nat)) (t : Scope), (∀ p ∈ os, r.fork.Grows p.1.scope) → s.Grows t →
      s.Grows (os.foldl (fun t p => foldBranch joining g.winner t p.1 p.2) t) := by
    intro os
    induction os with
    | nil => exact fun _ _ ht => ht
    | cons p os ih =>
      intro t hos ht
      exact ih _ (fun q hq => hos q (List.mem_cons_of_mem _ hq))
        (foldBranch_grows joining g.winner ht (hos p List.mem_cons_self) p.2)
  exact fold _ s hm (.refl s)

theorem passJoin_grows (st : Setting) (join : Option String) (ended : Bool) : (passJoin st join ended).Grows J := by
  unfold passJoin
  split
  · exact (passNode_grows _ _).bind fun _ => (advance_notes _ _).grows
  · exact (Walk.Notes.pure _).grows

theorem closeSplit_grows (st : Setting) (n : Node) {g : Gathered} {r : Scope}
    (h : ∀ o ∈ g.outcomes, r.fork.Grows o.scope) : (closeSplit st n g).Grows J := by
  intro s
  unfold closeSplit
  simp only [Walk.ensures_bind, Walk.ensures_modify]
  have folded := foldBranches_grows st.joining g h s
  have onward {w : Walk Next} (hw : w.Grows J) : w.Ensures J (foldBranches st.joining g s) fun _ t => s.Grows t :=
    (hw _).mono fun _ _ h' => folded.trans h'
  split
  · exact onward (.throw _)
  · exact onward (Walk.checkpoint_grows.bind fun _ => .throw _)
  · exact onward (Walk.checkpoint_grows.bind fun _ => passJoin_grows _ _ _)

/-- The branches of a split grow their forks, which is all that becomes of its scope. -/
theorem visitSplit_grows {inner : Inner} (st : Setting) (hi : inner.Grows J) (hJ : J st.joining) (n : Node) :
    (visitSplit st inner n).Grows J := by
  refine (openSplit_grows st n).bind fun starts s => ?_
  simp only [Walk.ensures_bind, Walk.ensures_get]
  refine Walk.ensures_split hJ (fun o => s.fork.Grows o.scope) (fun b hb => ?_) fun os winner _ ho => ?_
  · obtain ⟨start, -, rfl⟩ := List.mem_map.mp hb
    exact hi _ start s.fork
  · exact closeSplit_grows st n (g := ⟨os, winner⟩) ho s

theorem visit_grows {inner : Inner} (st : Setting) (hi : inner.Grows J) {n : Node} (hJ : n.kind = .split → J st.joining) :
    (visit st inner n).Grows J := by
  unfold visit
  split
  · exact (Walk.passThrough_grows n).bind fun _ => (Walk.Notes.pure _).grows
  · exact visitMarker_grows _ _
  · exact visitMarker_grows _ _
  · exact visitMarker_grows _ _
  · exact visitMarker_grows _ _
  · exact visitBranch_grows _
  · exact visitLoop_grows hi _ _
  · next hk => exact visitSplit_grows st hi (hJ hk) n
  · exact visitSkill_grows _ _
  · exact visitQuestion_grows _ _
  · exact visitQuestion_grows _ _
  · exact visitQuestion_grows _ _

/-! ## Segments -/

/-- Every segment grows its scope, whatever is replied to its requests; how splits join matters only
    if there are any. -/
theorem segment_grows_joining (st : Setting) (hJ : ∀ n ∈ st.graph.nodes, n.kind = .split → J st.joining) (budget : Nat) :
    (segment st budget).Grows J := by
  induction budget with
  | zero =>
    intro boundaries id
    unfold segment
    exact .ite (Walk.Notes.pure _).grows (Walk.checkpoint_grows.bind fun _ =>
      (Walk.Notes.request _).grows.bind fun _ => .throw _)
  | succ budget ih =>
    intro boundaries id
    unfold segment
    refine .ite (Walk.Notes.pure _).grows (Walk.checkpoint_grows.bind fun _ =>
      (Walk.Notes.request .visit).grows.bind fun allowed => ?_)
    cases allowed with
    | false => exact .throw _
    | true =>
      rw [if_pos rfl]
      split
      · exact .throw _
      · next n hn =>
        refine (visit_grows st ih (hJ n (List.mem_of_find?_eq_some hn))).bind fun next => ?_
        cases next with
        | node id => exact ih _ _
        | stop flow => exact (Walk.Notes.pure _).grows

theorem segment_grows (st : Setting) (hJ : J st.joining) (budget : Nat) : (segment st budget).Grows J :=
  segment_grows_joining st (fun _ _ _ => hJ) budget

/-- What a strand ends with has grown from where it started. -/
theorem strand_ensures {w : Walk Flow} (hw : w.Grows J) (s : Scope) :
    (w.strand s).Ensures J fun o => s.Grows o.scope :=
  Process.ensures_bind.mpr (hw s)

/-- What a run ends with has grown from the initial context. -/
theorem runFrom_ensures_joining (st : Setting) (hJ : ∀ n ∈ st.graph.nodes, n.kind = .split → J st.joining) (start : String)
    (c : Context) : (runFrom st start c).Ensures J fun o => Scope.Grows { context := c } o.scope :=
  Process.ensures_bind.mpr fun _ => Process.ensures_bind.mpr
    ((strand_ensures (segment_grows_joining st hJ _ _ _) _).mono fun _ h _ => h)

theorem runFrom_ensures (st : Setting) (hJ : J st.joining) (start : String) (c : Context) :
    (runFrom st start c).Ensures J fun o => Scope.Grows { context := c } o.scope :=
  runFrom_ensures_joining st (fun _ _ _ => hJ) start c

end Execution

end Capability
