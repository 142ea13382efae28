/-
  Capability.Proofs.Truncation — a visit limit does nothing to a run but end it.

  A process shadows another if it does the same for as many dispatches as are left, and compares with
  it in some way where one is refused: it is over there, with the scope in which the dispatch was
  asked for, and whatever the other one does from there on adds to that scope. In a branch of a split
  a refusal is not the end of the run, so nothing is said of refusals where there are splits.

  (1) `segment_shadows`: segments shadow those with a larger limit.
  (2) `Course.shadowed`: what shadows a process takes the same courses as long as nothing is refused.
  (3) `Course.truncated`: where a dispatch is refused, the process took a course of the other one before.
  (4) `visit_limits_only_truncate`: what that says of two runs.
-/

import Capability.Proofs.Accounting
import Capability.Proofs.Schedules
import Capability.Proofs.Settled

namespace Capability

/-! ## Scopes -/

/-- What is recorded in a scope begins with what is recorded in another. -/
structure Scope.Continues (s t : Scope) : Prop where
  path : s.trace.path <+: t.trace.path
  steps : s.context.history <+: t.context.history
  conditionFailures : s.trace.conditionFailures <+: t.trace.conditionFailures

namespace Scope

variable {s t u : Scope}

theorem Continues.refl (s : Scope) : s.Continues s := ⟨List.prefix_rfl, List.prefix_rfl, List.prefix_rfl⟩

theorem Continues.trans (h : s.Continues t) (h' : t.Continues u) : s.Continues u :=
  ⟨h.path.trans h'.path, h.steps.trans h'.steps, h.conditionFailures.trans h'.conditionFailures⟩

/-- The conditions that were recorded before a step stand in front of those of the step. -/
theorem During.conditionFailures {step : OpenStep} (h : During step s t) :
    s.trace.conditionFailures <+: t.trace.conditionFailures := by
  induction h with
  | refl => exact List.prefix_rfl
  | noting fs _ ih => exact ih.trans (List.prefix_append _ fs)
  | awaitStep _ ih | set _ _ _ ih => exact ih

/-- A step that is closed stands behind those before it, whatever became of it. -/
theorem During.closed {node : String} (h : During (s.nextStep node) (s.beginStep node) t) (status : StepStatus)
    (report : StepReport) (interrupted : Bool) :
    s.context.history <+: (t.closeStep (s.nextStep node) status report interrupted).context.history := by
  obtain ⟨⟨e, he, -⟩, -⟩ := h.shape
  simp only [closeStep, Context.modifyStep, nextStep, he, Context.modify_last]
  exact List.prefix_append _ _

/-- Whatever a strand does to its scope is recorded behind what was recorded before. -/
theorem Grows.continues (h : s.Grows t) : s.Continues t := by
  induction h with
  | refl => exact .refl _
  | noting fs _ ih => exact ih.trans ⟨List.prefix_rfl, List.prefix_rfl, List.prefix_append _ fs⟩
  | set _ _ _ ih | countPass _ ih => exact ih.trans ⟨List.prefix_rfl, List.prefix_rfl, List.prefix_rfl⟩
  | finish report _ hd _ ih =>
    refine ih.trans ⟨?_, hd.closed _ report false, hd.conditionFailures⟩
    rw [← hd.shape.2.1]
    exact List.prefix_append _ _
  | cancel _ hd ih => exact ih.trans ⟨hd.shape.2.1 ▸ List.prefix_rfl, hd.closed _ _ true, hd.conditionFailures⟩
  | merge _ _ ih =>
    exact ih.trans ⟨List.prefix_append _ _, Context.history_merge .. ▸ List.prefix_append _ _, List.prefix_append _ _⟩
  | absorb _ _ ih => exact ih.trans ⟨List.prefix_append _ _, List.prefix_append _ _, List.prefix_append _ _⟩

end Scope

namespace Execution

/-! ## Processes -/

/-- The first process does what the second one does until more than `left` dispatches were asked for;
    where one is refused, `T` compares it with what the second one does as it asks. It splits only if
    `splits` allows it. -/
inductive Process.Shadows (splits : Prop) :
    {α : Type} → (T : Process α → Process α → Prop) → (left : Nat) → Process α → Process α → Prop
  | done {α : Type} {T : Process α → Process α → Prop} {left : Nat} (a : α) : Shadows splits T left (.done a) (.done a)
  | visit {α : Type} {T : Process α → Process α → Prop} {left : Nat} {next next' : Bool → Process α} :
      (∀ left', left = left' + 1 → Shadows splits T left' (next true) (next' true)) → T (next false) (.ask .visit next') →
      Shadows splits T left (.ask .visit next) (.ask .visit next')
  | ask {α : Type} {T : Process α → Process α → Prop} {left : Nat} {q : Request} {next next' : q.Reply → Process α} :
      q ≠ .visit → (∀ r, Shadows splits T left (next r) (next' r)) → Shadows splits T left (.ask q next) (.ask q next')
  | split {α : Type} {T : Process α → Process α → Prop} {left : Nat} {joining : Joining} {count : Nat}
      {branch branch' : Fin count → Process Outcome} {next next' : Gathered → Process α} : splits →
      (∀ i, Shadows splits (fun _ _ => True) left (branch i) (branch' i)) → (∀ g, Shadows splits T left (next g) (next' g)) →
      Shadows splits T left (.split joining count branch next) (.split joining count branch' next')

namespace Process.Shadows

variable {splits : Prop} {α β : Type} {left : Nat} {T : Process α → Process α → Prop} {U : Process β → Process β → Prop}

theorem mono {p p' : Process α} (h : p.Shadows splits T left p') {fewer : Nat} (hl : fewer ≤ left) :
    p.Shadows splits T fewer p' := by
  induction h generalizing fewer with
  | done a => exact .done a
  | @visit _ _ left _ _ _ ht ih => exact .visit (fun left' h => ih (left' + (left - fewer)) (by omega) (by omega)) ht
  | ask hq _ ih => exact .ask hq fun r => ih r hl
  | split hs _ _ ihb ih => exact .split hs (fun i => ihb i hl) fun g => ih g hl

theorem bind {p p' : Process α} (hp : p.Shadows splits T left p') {f f' : α → Process β}
    (h : ∀ a, (f a).Shadows splits U left (f' a)) (hT : ∀ q q', T q q' → U (q.bind f) (q'.bind f')) :
    (p.bind f).Shadows splits U left (p'.bind f') := by
  induction hp with
  | done a => exact h a
  | visit _ ht ih => exact .visit (fun left' hl => ih left' hl (fun a => (h a).mono (by omega)) hT) (hT _ _ ht)
  | ask hq _ ih => exact .ask hq fun r => ih r h hT
  | split hs hb _ _ ih => exact .split hs hb fun g => ih g h hT

/-- What asks for no dispatch shadows itself. -/
theorem of_plain {p : Process α} {Q : α → Prop} (h : p.Plain Q) : p.Shadows splits T left p := by
  induction p with
  | done a => exact .done a
  | ask q next ih => exact .ask h.1 fun r => ih r (h.2 r)
  | split joining count branch next _ _ => exact h.elim

end Process.Shadows

/-! ## Segments -/

@[simp] theorem within_graph (st : Setting) (limit : Nat) : (st.within limit).graph = st.graph := rfl

/-- The first process failed by the limit, and whatever the second one comes to adds to its scope.
    Nothing is said where there may be splits. -/
def Refused (splits : Prop) (limit : Nat) {α : Type} (p p' : Process (Except Halt α × Scope)) : Prop :=
  splits ∨ ∃ node t, p = .done (.error (.failed node (.visitLimit limit)), t) ∧
    p'.Ensures (fun _ => True) fun r => t.Grows r.2

/-- The first walk, which has a limit, shadows the second one. -/
structure Walk.Shadows (splits : Prop) (limit left : Nat) {α : Type} (w w' : Walk α) : Prop where
  process : ∀ s, (w.process s).Shadows splits (Refused splits limit) left (w'.process s)
  grows : splits ∨ w'.Grows fun _ => True

def Inner.Shadows (splits : Prop) (limit left : Nat) (inner inner' : Inner) : Prop :=
  ∀ own start, (inner own start).Shadows splits limit left (inner' own start)

section Segments

variable {splits : Prop} {limit left : Nat} {α β : Type} {inner inner' : Inner} {st : Setting} {more : Nat}

theorem Walk.Shadows.of_plain {w : Walk α} (h : ∀ s, w.Plain s fun _ _ => True) (hg : splits ∨ w.Grows fun _ => True) :
    w.Shadows splits limit left w :=
  ⟨fun s => .of_plain (h s), hg⟩

theorem Walk.Shadows.of_records {w : Walk α} {added : Nat} (h : w.Records added) (hg : w.Grows fun _ => True) :
    w.Shadows splits limit left w :=
  .of_plain (fun s => (h s).mono fun _ _ _ => trivial) (.inr hg)

theorem Walk.Shadows.pure (a : α) : (pure a : Walk α).Shadows splits limit left (pure a) :=
  .of_records (.pure a) (Notes.pure a).grows

theorem Walk.Shadows.halt (h : Halt) : (throw h : Walk α).Shadows splits limit left (throw h) :=
  .of_records (.throw h) (.throw h)

/-- What only looks at conditions shadows itself. -/
theorem Walk.Ponders.shadows {w : Walk α} (h : w.Ponders) (hn : w.Notes) : w.Shadows splits limit left w :=
  .of_records h.records hn.grows

theorem Walk.Shadows.bind {w w' : Walk α} (hw : w.Shadows splits limit left w') {f f' : α → Walk β}
    (h : ∀ a, (f a).Shadows splits limit left (f' a)) : (w >>= f).Shadows splits limit left (w' >>= f') := by
  constructor
  · intro s
    rw [Walk.process_bind, Walk.process_bind]
    refine (hw.process s).bind (fun p => ?_) fun q q' hq => ?_
    · obtain ⟨_ | a, t⟩ := p
      · exact .done _
      · exact (h a).process t
    · -- The refusal passes through, and what comes next adds to the scope of the second walk.
      by_cases hs : splits
      · exact .inl hs
      · obtain ⟨node, t, rfl, hg⟩ := hq.resolve_left hs
        refine .inr ⟨node, t, rfl, Process.ensures_bind.mpr (hg.mono fun r hr => ?_)⟩
        obtain ⟨_ | a, u⟩ := r
        · exact hr
        · exact (((h a).grows.resolve_left hs) u).mono fun _ _ => hr.trans
  · by_cases hs : splits
    · exact .inl hs
    · exact .inr ((hw.grows.resolve_left hs).bind fun a => (h a).grows.resolve_left hs)

theorem Walk.Shadows.ite {c : Prop} [Decidable c] {w₁ w₂ w₁' w₂' : Walk α} (h₁ : w₁.Shadows splits limit left w₁')
    (h₂ : w₂.Shadows splits limit left w₂') :
    (if c then w₁ else w₂).Shadows splits limit left (if c then w₁' else w₂') := by
  split
  · exact h₁
  · exact h₂

theorem checkpoint_shadows : Walk.checkpoint.Shadows splits limit left Walk.checkpoint :=
  .of_plain (fun _ => Walk.plain_checkpoint.mpr ⟨trivial, trivial⟩) (.inr Walk.checkpoint_grows)

/-- A dispatch that is refused is the end of the first walk. -/
theorem Walk.Shadows.mayVisit_bind {f f' : Bool → Walk α}
    (ht : ∀ left', left = left' + 1 → (f true).Shadows splits limit left' (f' true)) {node : String}
    (hf : f false = throw (.failed node (.visitLimit limit))) (hg : (Walk.mayVisit >>= f').Grows fun _ => True) :
    (Walk.mayVisit >>= f).Shadows splits limit left (Walk.mayVisit >>= f') :=
  ⟨fun s => .visit (fun left' hl => (ht left' hl).process s) (.inr ⟨node, s, congrArg (Walk.process · s) hf, hg s⟩), .inr hg⟩

theorem passNode_shadows (id : String) : (passNode st id).Shadows splits limit left (passNode st id) := by
  unfold passNode
  split
  · exact .of_records (.passThrough _) (Walk.passThrough_grows _)
  · exact .pure _

theorem closePass_shadows (e : Edge) : (closePass st e).Shadows splits limit left (closePass st e) :=
  checkpoint_shadows.bind fun _ => (passNode_shadows _).bind fun _ => (exits_ponders _ _).shadows (exits_notes _ _)

theorem leaveBody_shadows (e : Edge) (flow : Flow) :
    (leaveBody st e flow).Shadows splits limit left (leaveBody st e flow) := by
  cases flow with
  | ended | deadEnd => exact .pure _
  | boundary id => exact .ite ((closePass_shadows e).bind fun _ => .ite (.pure _) (.pure _)) (.pure _)

theorem pass_shadows (hi : inner.Shadows splits limit left inner') (n : Node) (e : Edge) (i : Nat) :
    (pass (st.within limit) inner n e i).Shadows splits limit left (pass (st.within more) inner' n e i) := by
  refine checkpoint_shadows.bind fun _ => .bind (.of_plain (w := numberPass st n i) (fun _ => trivial)
    (.inr (numberPass_grows st n i))) fun _ => ((successor_ponders st n.id).shadows (successor_notes st n.id)).bind fun body => ?_
  cases body with
  | none => exact .pure _
  | some body => exact (hi _ body).bind fun flow => leaveBody_shadows e flow

theorem passes_shadows (hi : inner.Shadows splits limit left inner') (n : Node) (e : Edge) (remaining i : Nat) :
    (passes (st.within limit) inner n e remaining i).Shadows splits limit left
      (passes (st.within more) inner' n e remaining i) := by
  induction remaining generalizing i with
  | zero => exact .pure _
  | succ remaining ih =>
    rw [passes_succ, passes_succ]
    refine (pass_shadows hi n e i).bind fun result => ?_
    cases result with
    | none => exact ih _
    | some ended => exact .pure _

/-- The step of a loop, before its passes. -/
def openLoop (n : Node) (e : Edge) : Walk Unit := do
  let step ← Walk.beginStep n
  Walk.finishStep n step .completed
    { result := some (.obj [("max_iterations", .ofNat (passBound n e)), ("loop_end", .str e.source)]) }

theorem visitLoop_of_edge (st : Setting) {n : Node} {e : Edge} (he : st.graph.iterationEdge? n.id = some e) (inner : Inner) :
    visitLoop st inner n =
      openLoop n e >>= fun _ => passes st inner n e (passBound n e) 0 >>= fun ended => leaveLoop st e ended := by
  unfold visitLoop openLoop
  simp only [he, bind_assoc]
  rfl

theorem openLoop_shadows (n : Node) (e : Edge) : (openLoop n e).Shadows splits limit left (openLoop n e) := by
  refine .of_records (.beginStep_bind fun _ => .finishStep _ _ _ _) fun s => ?_
  refine Walk.ensures_bind.mpr (Walk.ensures_beginStep.mpr (Walk.ensures_finishStep.mpr ?_))
  exact .finish _ (.refl s) .refl rfl

theorem visitLoop_shadows (hi : inner.Shadows splits limit left inner') (n : Node) :
    (visitLoop (st.within limit) inner n).Shadows splits limit left (visitLoop (st.within more) inner' n) := by
  cases he : st.graph.iterationEdge? n.id with
  | none =>
    have unpaired (limit : Nat) (inner : Inner) : visitLoop (st.within limit) inner n =
        Walk.beginStep n >>= fun step => Walk.failStep n step {} (.failed n.id "loop start has no paired loop end") := by
      unfold visitLoop
      refine congrArg _ (funext fun _ => ?_)
      rw [show (st.within limit).graph.iterationEdge? n.id = none from he]
    rw [unpaired, unpaired]
    refine .of_records (.beginStep_bind fun _ => .failStep _ _ _ _) fun s => ?_
    refine Walk.ensures_bind.mpr (Walk.ensures_beginStep.mpr (Walk.ensures_failStep.mpr ?_))
    exact .finish _ (.refl s) .refl rfl
  | some e =>
    rw [visitLoop_of_edge (st.within limit) he, visitLoop_of_edge (st.within more) he]
    refine (openLoop_shadows n e).bind fun _ => (passes_shadows hi n e _ 0).bind fun ended => ?_
    exact .ite (.pure _) ((advance_ponders st e.source).shadows (advance_notes st e.source))

theorem Walk.Shadows.strand {w w' : Walk Flow} (h : w.Shadows splits limit left w') (s : Scope) :
    (w.strand s).Shadows splits (fun _ _ => True) left (w'.strand s) :=
  (h.process s).bind (fun _ => .done _) fun _ _ _ => trivial

theorem visitSplit_shadows (hs : splits) (hi : inner.Shadows splits limit left inner') (n : Node) :
    (visitSplit (st.within limit) inner n).Shadows splits limit left (visitSplit (st.within more) inner' n) := by
  refine .bind (.of_plain (w := openSplit st n) (fun _ => (openSplit_records n).mono fun _ _ _ => trivial) (.inl hs))
    fun starts => .bind (.of_plain (w := get) (fun _ => trivial) (.inl hs)) fun scope => .bind ⟨fun s => ?_, .inl hs⟩ fun g => ?_
  · rw [Walk.split_map, Walk.split_map, Walk.process_lift, Walk.process_lift]
    exact .split hs (fun i => (hi _ (starts.get i)).strand scope.fork) fun _ => .done _
  · exact .of_plain (w := closeSplit st n g) (fun _ => (closeSplit_records n g).mono fun _ _ _ => trivial) (.inl hs)

theorem visit_shadows (hi : inner.Shadows splits limit left inner') {n : Node} (hs : n.kind = .split → splits) :
    (visit (st.within limit) inner n).Shadows splits limit left (visit (st.within more) inner' n) := by
  by_cases hl : n.kind = .loopStart
  · unfold visit
    rw [hl]
    exact visitLoop_shadows hi n
  by_cases hk : n.kind = .split
  · unfold visit
    rw [hk]
    exact visitSplit_shadows (hs hk) hi n
  · have nowhere : Inner.Grows (fun _ => True) fun _ _ => pure .ended := fun _ _ => (Walk.Notes.pure _).grows
    rw [visit_within hl hk limit (fun _ _ => pure .ended) inner, visit_within hl hk more (fun _ _ => pure .ended) inner']
    exact .of_records (visit_records _ hl hk) (visit_grows st nowhere fun h => absurd h hk)

/-- Behind its boundaries a segment asks for a dispatch, and without one it is broken off. -/
theorem dispatch_shadows {own : List String} {start : String} {f f' : Bool → Walk Flow}
    (ht : ∀ left', left = left' + 1 → (f true).Shadows splits limit left' (f' true))
    (hf : f false = throw (.failed start (.visitLimit limit)))
    (hg : (if own.contains start then pure (.boundary start) else Walk.checkpoint >>= fun _ => Walk.mayVisit >>= f' :
      Walk Flow).Grows fun _ => True) :
    (if own.contains start then pure (.boundary start) else Walk.checkpoint >>= fun _ => Walk.mayVisit >>= f :
      Walk Flow).Shadows splits limit left
      (if own.contains start then pure (.boundary start) else Walk.checkpoint >>= fun _ => Walk.mayVisit >>= f') := by
  by_cases hb : own.contains start = true
  · rw [if_pos hb, if_pos hb]
    exact .pure _
  · rw [if_neg hb] at hg ⊢
    rw [if_neg hb]
    exact checkpoint_shadows.bind fun _ => .mayVisit_bind ht hf fun s => hg s false

/-- Segments shadow those with another limit, for as many dispatches as both of their budgets allow. -/
theorem segment_shadows (st : Setting) (hs : ∀ n ∈ st.graph.nodes, n.kind = .split → splits) (limit more : Nat)
    {budget budget' : Nat} (h : left ≤ budget) (h' : left ≤ budget') :
    Inner.Shadows splits limit left (segment (st.within limit) budget) (segment (st.within more) budget') := by
  induction budget generalizing left budget' with
  | zero =>
    intro own start
    have grows := segment_grows (J := fun _ => True) (st.within more) trivial budget' own start
    cases budget' with
    | zero => exact dispatch_shadows (fun left' hl => by omega) rfl grows
    | succ budget' => exact dispatch_shadows (fun left' hl => by omega) rfl grows
  | succ budget ih =>
    intro own start
    have grows := segment_grows (J := fun _ => True) (st.within more) trivial budget' own start
    cases budget' with
    | zero => exact dispatch_shadows (fun left' hl => by omega) rfl grows
    | succ budget' =>
      refine dispatch_shadows (fun left' hl => ?_) rfl grows
      have inside : Inner.Shadows splits limit left' (segment (st.within limit) budget) (segment (st.within more) budget') :=
        ih (by omega) (by omega)
      simp only [if_true, within_graph]
      cases hn : st.graph.node? start with
      | none => exact .halt _
      | some n =>
        refine (visit_shadows inside (hs n (List.mem_of_find?_eq_some hn))).bind fun next => ?_
        cases next with
        | node next => exact inside own next
        | stop flow => exact .pure _

end Segments

/-! ## Courses -/

/-- As `Process.Shadows`, of processes under way. -/
inductive Standing.Shadows (splits : Prop) :
    {α : Type} → (T : Process α → Process α → Prop) → (left : Nat) → Standing α → Standing α → Prop
  | at {α : Type} {T : Process α → Process α → Prop} {left : Nat} {p p' : Process α} :
      p.Shadows splits T left p' → Shadows splits T left (.at p) (.at p')
  | calling {α : Type} {T : Process α → Process α → Prop} {left : Nat} {k : Call} {l : Option Duration}
      {next next' : Answer → Process α} : (∀ a, (next a).Shadows splits T left (next' a)) →
      Shadows splits T left (.calling k l next) (.calling k l next')
  | fork {α : Type} {T : Process α → Process α → Prop} {left : Nat} {joining : Joining} {count : Nat}
      {branches branches' : Fin count → Standing Outcome} {winner : Option Nat} {next next' : Gathered → Process α} :
      splits → (∀ i, Shadows splits (fun _ _ => True) left (branches i) (branches' i)) →
      (∀ g, (next g).Shadows splits T left (next' g)) →
      Shadows splits T left (.fork joining count branches winner next) (.fork joining count branches' winner next')
  | finished {α : Type} {T : Process α → Process α → Prop} {left : Nat} (a : α) :
      Shadows splits T left (.finished a) (.finished a)

section Courses

variable {splits : Prop} {α : Type} {T : Process α → Process α → Prop} {limit more left : Nat} {b : Bool}
  {s s' t : Standing α} {w w' : Shared} {act : Act} {acts : List Act}

namespace Standing.Shadows

theorem mono (h : s.Shadows splits T left s') {fewer : Nat} (hl : fewer ≤ left) : s.Shadows splits T fewer s' := by
  induction h with
  | «at» hp => exact .at (hp.mono hl)
  | calling hn => exact .calling fun a => (hn a).mono hl
  | fork hs _ hn ih => exact .fork hs (fun i => ih i hl) fun g => (hn g).mono hl
  | finished a => exact .finished a

theorem elect {T : Process Outcome → Process Outcome → Prop} {u u' : Standing Outcome} (h : u.Shadows splits T left u')
    (joining : Joining) (winner : Option Nat) (i : Nat) : u.elect joining winner i = u'.elect joining winner i := by
  cases h <;> rfl

theorem of_finished {a : α} (h : (Standing.finished a).Shadows splits T left s') : s' = .finished a := by
  cases h
  rfl

theorem of_visit {next : Bool → Process α} (h : (Standing.at (.ask .visit next)).Shadows splits T left s') :
    ∃ next', s' = .at (.ask .visit next') ∧ (∀ left', left = left' + 1 → (next true).Shadows splits T left' (next' true)) ∧
      T (next false) (.ask .visit next') := by
  cases h with
  | «at» hp =>
    cases hp with
    | visit ht hf => exact ⟨_, rfl, ht, hf⟩
    | ask hq => exact absurd rfl hq

theorem of_ask {q : Request} {next : q.Reply → Process α} (h : (Standing.at (.ask q next)).Shadows splits T left s')
    (hq : q ≠ .visit) : ∃ next', s' = .at (.ask q next') ∧ ∀ r, (next r).Shadows splits T left (next' r) := by
  cases h with
  | «at» hp =>
    cases hp with
    | visit => exact absurd rfl hq
    | ask _ hn => exact ⟨_, rfl, hn⟩

theorem of_calling {k : Call} {l : Option Duration} {next : Answer → Process α}
    (h : (Standing.calling k l next).Shadows splits T left s') :
    ∃ next', s' = .calling k l next' ∧ ∀ a, (next a).Shadows splits T left (next' a) := by
  cases h with
  | calling hn => exact ⟨_, rfl, hn⟩

end Standing.Shadows

/-- What shadows a standing for as many dispatches as are left makes the same moves, unless it is
    refused a dispatch. -/
theorem Move.shadowed (h : Move limit b s w act t w') (hs : s.Shadows splits T (limit - w.visits) s') (hl : limit ≤ more)
    (ha : act.dispatched? ≠ some false) :
    ∃ t', Move more b s' w act t' w' ∧ t.Shadows splits T (limit - w'.visits) t' := by
  induction h with
  | @visit _ b w next =>
    obtain ⟨next', rfl, ht, -⟩ := hs.of_visit
    have allowed : w.visits < limit := by simpa [Act.dispatched?] using ha
    have hm : Move more b (.at (.ask .visit next')) w _ _ _ := .visit next'
    rw [decide_eq_true (show w.visits < more by omega)] at hm
    rw [decide_eq_true allowed]
    exact ⟨_, hm, .at (ht _ (by simp only; omega))⟩
  | stopped next =>
    obtain ⟨next', rfl, hn⟩ := hs.of_ask (by simp)
    exact ⟨_, .stopped next', .at (hn _)⟩
  | notify n next cancels =>
    obtain ⟨next', rfl, hn⟩ := hs.of_ask (by simp)
    exact ⟨_, .notify n next' cancels, .at (hn _)⟩
  | call k l next hc =>
    obtain ⟨next', rfl, hn⟩ := hs.of_ask (by simp)
    exact ⟨_, .call k l next' hc, .calling hn⟩
  | skip k l next hc =>
    obtain ⟨next', rfl, hn⟩ := hs.of_ask (by simp)
    exact ⟨_, .skip k l next' hc, .at (hn _)⟩
  | answer k l next outcome cancels hc =>
    obtain ⟨next', rfl, hn⟩ := hs.of_calling
    exact ⟨_, .answer k l next' outcome cancels hc, .at (hn _)⟩
  | expire k d next hc =>
    obtain ⟨next', rfl, hn⟩ := hs.of_calling
    exact ⟨_, .expire k d next' hc, .at (hn _)⟩
  | interrupt k l next hc =>
    obtain ⟨next', rfl, hn⟩ := hs.of_calling
    exact ⟨_, .interrupt k l next' hc, .at (hn _)⟩
  | pause d next =>
    obtain ⟨next', rfl, hn⟩ := hs.of_ask (by simp)
    exact ⟨_, .pause d next', .at (hn _)⟩
  | cut d next hc =>
    obtain ⟨next', rfl, hn⟩ := hs.of_ask (by simp)
    exact ⟨_, .cut d next' hc, .at (hn _)⟩
  | «open» joining count branch next =>
    cases hs with
    | «at» hp =>
      cases hp with
      | split hsplits hb hn => exact ⟨_, .open joining count _ _, .fork hsplits (fun i => .at (hb i)) hn⟩
  | finish a =>
    cases hs with
    | «at» hp =>
      cases hp
      exact ⟨_, .finish a, .finished a⟩
  | @branch _ _ _ _ joining count branches winner next i _ t hm ih =>
    cases hs with
    | fork hsplits hb hn =>
      obtain ⟨t', hm', ht⟩ := ih (hb i) ha
      refine ⟨_, .branch i hm', ?_⟩
      rw [ht.elect]
      refine .fork hsplits (fun j => ?_) fun g => (hn g).mono hm.left_le
      by_cases e : j = i
      · subst e; simpa using ht
      · simpa [Function.update_of_ne e] using (hb j).mono hm.left_le
  | gather outcomes ho =>
    cases hs with
    | fork _ hb hn =>
      refine ⟨_, .gather outcomes fun i => ?_, .at (hn _)⟩
      have same := hb i
      rw [ho i] at same
      exact same.of_finished

/-- So it takes the same courses as long as nothing is refused. -/
theorem Course.shadowed (h : Course limit b s w acts t w') (hs : s.Shadows splits T (limit - w.visits) s') (hl : limit ≤ more)
    (hr : refusals acts = 0) : ∃ t', Course more b s' w acts t' w' ∧ t.Shadows splits T (limit - w'.visits) t' := by
  induction h generalizing s' with
  | stay => exact ⟨s', .stay, hs⟩
  | move hm _ ih =>
    rw [refusals_cons] at hr
    obtain ⟨t₁, hm', ht⟩ := hm.shadowed hs hl fun ha => by simp [ha] at hr
    obtain ⟨t', hc', ht'⟩ := ih ht (by omega)
    exact ⟨t', .move hm' hc', ht'⟩
  | elsewhere visits cancels _ ih =>
    rw [refusals_cons] at hr
    obtain ⟨t', hc', ht'⟩ := ih (hs.mono (by simp only; omega)) (by omega)
    exact ⟨t', .elsewhere visits cancels hc', ht'⟩

/-- Where nothing splits, a move that is refused a dispatch asks for it in both standings. -/
theorem Move.refused (h : Move limit b s w act t w') (hs : s.Shadows False T left s') (ha : act.dispatched? = some false) :
    ∃ p next', t = .at p ∧ s' = .at (.ask .visit next') ∧ T p (.ask .visit next') := by
  cases h with
  | visit next =>
    obtain ⟨next', rfl, -, hT⟩ := hs.of_visit
    have refused : decide (w.visits < limit) = false := Option.some.inj ha
    rw [refused]
    exact ⟨_, next', rfl, rfl, hT⟩
  | branch =>
    cases hs with
    | fork hsplits => exact hsplits.elim
  | _ => cases ha

/-- Where nothing splits and a dispatch is refused, the course up to there is one of the other
    standing, too, and what follows compares with what that does from there on. -/
theorem Course.truncated (h : Course limit b s w acts t w') (hs : s.Shadows False T (limit - w.visits) s') (hl : limit ≤ more)
    (hr : 0 < refusals acts) :
    ∃ before behind p next' w₁ w₂, before ⊆ acts ∧ Course more b s' w before (.at (.ask .visit next')) w₁ ∧
      T p (.ask .visit next') ∧ Course limit b (.at p) w₂ behind t w' := by
  induction h generalizing s' with
  | stay => simp [refusals] at hr
  | @move _ _ _ _ w₁ _ act acts hm hc ih =>
    by_cases ha : act.dispatched? = some false
    · obtain ⟨p, next', rfl, rfl, hT⟩ := hm.refused hs ha
      exact ⟨[], acts, p, next', _, w₁, List.nil_subset _, .stay, hT, hc⟩
    · rw [refusals_cons, if_neg ha] at hr
      obtain ⟨t₁, hm', ht⟩ := hm.shadowed hs hl ha
      obtain ⟨before, behind, p, next', _, w₂, sub, hbefore, hT, hbehind⟩ := ih ht hr
      exact ⟨act :: before, behind, p, next', _, w₂, List.cons_subset_cons _ sub, .move hm' hbefore, hT, hbehind⟩
  | elsewhere visits cancels _ ih =>
    rw [refusals_cons] at hr
    obtain ⟨before, behind, p, next', _, w₂, sub, hbefore, hT, hbehind⟩ := ih (hs.mono (by simp only; omega))
      (by simpa [Act.dispatched?] using hr)
    exact ⟨_ :: before, behind, p, next', _, w₂, List.cons_subset_cons _ sub, .elsewhere visits cancels hbefore, hT, hbehind⟩

/-- What shadows a process comes to an end of that, if nothing is refused. -/
theorem Process.Completes.shadowed {p p' : Process α} {answers : Answers} {a : α} (h : p.Completes answers limit acts a)
    (hs : p.Shadows splits T limit p') (hl : limit ≤ more) (hr : refusals acts = 0) : p'.Completes answers more acts a := by
  obtain ⟨⟨w, hc⟩, hu⟩ := h
  obtain ⟨t, hc', ht⟩ := hc.shadowed (.at hs) hl hr
  obtain rfl := ht.of_finished
  exact ⟨⟨w, hc'⟩, hu⟩

/-- Where nothing splits and a dispatch is refused, what is left of both processes then compares, and
    whatever is certain of the end of that is true of their ends. -/
theorem Process.Completes.truncated {p p' : Process α} {answers : Answers} {a : α} (h : p.Completes answers limit acts a)
    (hs : p.Shadows False T limit p') (hl : limit ≤ more) (hr : 0 < refusals acts) {R : α → Prop}
    (unsplit : p'.Ensures (fun _ => False) R) :
    ∃ q q', T q q' ∧ (∀ Q, q.Ensures (fun _ => True) Q → Q a) ∧
      ∀ acts' a', p'.Completes answers more acts' a' → ∀ Q, q'.Ensures (fun _ => True) Q → Q a' := by
  obtain ⟨⟨w, hc⟩, hu⟩ := h
  obtain ⟨before, behind, q, next', w₁, w₂, sub, hbefore, hT, hbehind⟩ := hc.truncated (.at hs) hl hr
  refine ⟨q, _, hT, fun Q hQ => hbehind.ensured hQ, fun acts' a' h' Q hQ => ?_⟩
  obtain ⟨⟨w', hc'⟩, hu'⟩ := h'
  have calm : ∀ act ∈ before, act.Undisturbed answers := fun act h => hu act (sub h)
  have alike : ScheduledAlike before acts' :=
    .of_constant (hbefore.turns_unsplit rfl calm unsplit) (hc'.turns_unsplit rfl hu' unsplit)
  -- The other process has not come to an end before it asks for the dispatch.
  obtain longer | shorter := Nat.le_total before.length acts'.length
  · obtain ⟨rest, -, hrest⟩ := hbefore.continues hc' calm hu' alike longer
    exact hrest.ensured hQ
  · obtain ⟨rest, -, hrest⟩ := hc'.continues hbefore hu' calm alike.symm shorter
    cases hrest.finished

end Courses

/-! ## Runs -/

/-- As `Refused`, of runs: the first one ends with a failure by the limit. -/
def Truncates (splits : Prop) (limit : Nat) (p p' : Process Outcome) : Prop :=
  splits ∨ ∃ node t, p.Ensures (fun _ => True) (· = ⟨.error (.failed node (.visitLimit limit)), t⟩) ∧
    p'.Ensures (fun _ => True) fun o => t.Grows o.scope

theorem runFrom_shadows {splits : Prop} (s : Setting) (hs : ∀ n ∈ s.graph.nodes, n.kind = .split → splits) {limit more : Nat}
    (hl : limit ≤ more) (start : String) (c : Context) :
    (runFrom (s.within limit) start c).Shadows splits (Truncates splits limit) limit (runFrom (s.within more) start c) := by
  refine .ask nofun fun _ => ?_
  have segments : Inner.Shadows splits limit limit (segment (s.within limit) limit) (segment (s.within more) more) :=
    segment_shadows s hs limit more le_rfl hl
  have strand := (segments [] start).process { context := c }
  refine Process.Shadows.bind (strand.bind (U := Truncates splits limit) (fun p => .done (⟨p.1, p.2⟩ : Outcome)) ?_)
    (fun o => ?_) ?_
  · rintro q q' (hsplits | ⟨node, t, rfl, hg⟩)
    · exact .inl hsplits
    · exact .inr ⟨node, t, rfl, Process.ensures_bind.mpr hg⟩
  · exact .ask nofun fun _ => .done o
  · rintro q q' (hsplits | ⟨node, t, hq, hg⟩)
    · exact .inl hsplits
    · exact .inr ⟨node, t, Process.ensures_bind.mpr (hq.mono fun _ ho _ => ho),
        Process.ensures_bind.mpr (hg.mono fun _ ho _ => ho)⟩

theorem run_within {s : Setting} (hv : s.graph.validate.isValid = true) {start : Node} (hs : s.graph.start? = some start)
    (limit : Nat) (c : Context) : run (s.within limit) c = .ok (runFrom (s.within limit) start.id c) := by
  simp only [run, within_graph, if_pos hv, hs]

/-- A larger visit limit does not change a run that nobody disturbs and that is refused no dispatch:
    with the same acts it comes to the same end, and however it is answered and scheduled alike, its
    result is the same. Where nothing splits, a run that is refused a dispatch fails by the limit, and
    all steps of it are over. Its path, its steps and its failures to evaluate conditions are the first
    of those that a run with the larger limit has, and there is one if everything is answered. -/
theorem visit_limits_only_truncate {s : Setting} (hv : s.graph.validate.isValid = true) (c : Context) {limit more : Nat}
    (hl : limit ≤ more) :
    ∃ p₁ p₂, run (s.within limit) c = .ok p₁ ∧ run (s.within more) c = .ok p₂ ∧
      ∀ answers acts₁ o₁, p₁.Completes answers limit acts₁ o₁ →
        (refusals acts₁ = 0 → p₂.Completes answers more acts₁ o₁ ∧
          ∀ acts₂ o₂, p₂.Completes answers more acts₂ o₂ → ScheduledAlike acts₁ acts₂ →
            ∀ elapsedMs, o₂.result s.graph elapsedMs = o₁.result s.graph elapsedMs) ∧
        ((∀ n ∈ s.graph.nodes, n.kind ≠ .split) → 0 < refusals acts₁ →
          (∃ node, o₁.ending = .error (.failed node (.visitLimit limit))) ∧
          (∃ es, o₁.scope.context.history = c.history ++ es ∧ ∀ e ∈ es, e.status.isFinished = true) ∧
          ((∀ k l, (answers k l).IsProper l) → ∃ acts₂ o₂, p₂.Completes answers more acts₂ o₂) ∧
          ∀ acts₂ o₂, p₂.Completes answers more acts₂ o₂ → ∀ elapsedMs elapsedMs',
            let r₁ := o₁.result s.graph elapsedMs
            let r₂ := o₂.result s.graph elapsedMs'
            r₁.path <+: r₂.path ∧ r₁.steps <+: r₂.steps ∧ r₁.conditionFailures <+: r₂.conditionFailures) := by
  obtain ⟨start, hs, -⟩ := (Graph.checked_of_isValid hv).starts
  have hrun₁ := run_within hv hs limit c
  refine ⟨_, _, hrun₁, run_within hv hs more c, fun answers acts₁ o₁ h₁ => ⟨fun hr => ?_, fun unsplit hr => ?_⟩⟩
  · have same := h₁.shadowed (runFrom_shadows s (fun _ _ _ => trivial) hl start.id c) hl hr
    exact ⟨same, fun acts₂ o₂ h₂ alike elapsedMs => by rw [same.unique h₂ alike]⟩
  · have single := runFrom_ensures_joining (J := fun _ => False) (s.within more) unsplit start.id c
    obtain ⟨q, q', hT, hq, hq'⟩ := h₁.truncated (runFrom_shadows s unsplit hl start.id c) hl hr single
    obtain ⟨node, t, failed, grows⟩ := hT.resolve_left id
    obtain rfl := hq _ failed
    obtain ⟨⟨w, hc⟩, -⟩ := h₁
    obtain ⟨es, hes, tally⟩ := hc.settledSince hrun₁
    refine ⟨⟨node, rfl⟩, ⟨es, hes, tally.finished⟩, fun hk => single.completes hk, fun acts₂ o₂ h₂ elapsedMs elapsedMs' => ?_⟩
    have grown := (hq' acts₂ o₂ h₂ _ grows).continues
    exact ⟨grown.path, grown.steps, grown.conditionFailures⟩

/-- Where both skills succeed, the circle is cut short by the smaller limit. Where the first one
    fails, neither limit matters. -/
theorem a_circle_is_cut_short : ∃ p₁ p₂, run (circling.within 5) {} = .ok p₁ ∧ run (circling.within 7) {} = .ok p₂ ∧
    (∃ acts₁ o₁ acts₂ o₂, p₁.Completes (fun _ _ => .given (.ok .null)) 5 acts₁ o₁ ∧
      p₂.Completes (fun _ _ => .given (.ok .null)) 7 acts₂ o₂ ∧ 0 < refusals acts₁ ∧
      o₁.scope.trace.path = ["start", "a", "b", "a", "b"] ∧ o₂.scope.trace.path = ["start", "a", "b", "a", "b", "a", "b"] ∧
      o₁.scope.context.history <+: o₂.scope.context.history ∧ ∀ e ∈ o₁.scope.context.history, e.status.isFinished = true) ∧
    ∃ acts o, p₁.Completes (fun _ _ => .given (.error (.other "blank"))) 5 acts o ∧ refusals acts = 0 ∧
      p₂.Completes (fun _ _ => .given (.error (.other "blank"))) 7 acts o ∧ o.scope.trace.path = ["start", "a"] := by
  have valid : circling.graph.validate.isValid = true := by decide +kernel
  obtain ⟨p₁, p₂, h₁, h₂, truncates⟩ := visit_limits_only_truncate valid {} (show 5 ≤ 7 by decide)
  have start : circling.graph.start? = some { id := "start", kind := .start } := rfl
  obtain rfl := Except.ok.inj ((run_within valid start 5 {}).symm.trans h₁)
  obtain rfl := Except.ok.inj ((run_within valid start 7 {}).symm.trans h₂)
  refine ⟨_, _, h₁, h₂, ?_, ?_⟩
  · have five : ((runFrom (circling.within 5) "start" {}).alone (fun _ _ => .given (.ok .null)) 5 0).map
        (fun r => (refusals r.1, r.2.scope.trace.path)) = some (1, ["start", "a", "b", "a", "b"]) := by decide +kernel
    have seven : ((runFrom (circling.within 7) "start" {}).alone (fun _ _ => .given (.ok .null)) 7 0).map
        (fun r => r.2.scope.trace.path) = some ["start", "a", "b", "a", "b", "a", "b"] := by decide +kernel
    obtain ⟨acts₁, o₁, hc₁, seen⟩ := Process.completes_of_seen five
    obtain ⟨acts₂, o₂, hc₂, path₂⟩ := Process.completes_of_seen seven
    obtain ⟨refused, path₁⟩ := Prod.mk.inj seen
    have asked : 0 < refusals acts₁ := refused ▸ Nat.one_pos
    obtain ⟨-, ⟨es, hes, finished⟩, -, begins⟩ := (truncates _ acts₁ o₁ hc₁).2 (by decide +kernel) asked
    obtain ⟨-, steps, -⟩ := begins acts₂ o₂ hc₂ 0 0
    refine ⟨acts₁, o₁, acts₂, o₂, hc₁, hc₂, asked, path₁, path₂, steps, ?_⟩
    rw [hes]
    exact finished
  · have blank : ((runFrom (circling.within 5) "start" {}).alone (fun _ _ => .given (.error (.other "blank"))) 5 0).map
        (fun r => (refusals r.1, r.2.scope.trace.path)) = some (0, ["start", "a"]) := by decide +kernel
    obtain ⟨acts, o, hc, seen⟩ := Process.completes_of_seen blank
    obtain ⟨calm, path⟩ := Prod.mk.inj seen
    exact ⟨acts, o, hc, calm, ((truncates _ acts o hc).1 calm).1, path⟩

end Execution

end Capability
