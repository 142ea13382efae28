/-
  Capability.Proofs.Accounting — what the ledger of a tour says of the run.

  (1) `Tour.tallies`: the steps and the passes in a scope are those in the ledger.
  (2) `Tour.explained`: without a refused dispatch, whatever fails does so by an answer.
  (3) `Tour.overtaken`: with one, the tour fails by the visit limit or by a branch declared before, or
      is cancelled.
  (4) `runs_end_and_account_for_their_dispatches`: what that says of a run.
-/

import Capability.Proofs.Termination
import Capability.Proofs.Tours

namespace Capability.Execution

variable {st : Setting} {R : Replies} {α : Type} {leg : Leg α} {s s' t : Scope} {ℓ ℓ' : Ledger} {r : Except Halt α}

/-- The node of a leg is declared, and its loop is closed by its edge. -/
def Leg.Declared (g : Graph) : {α : Type} → Leg α → Prop
  | _, .segment _ _ => True
  | _, .visit n => ∃ id, g.node? id = some n
  | _, .pass n e _ | _, .passes n e _ _ => g.iterationEdge? n.id = some e

/-! ## Steps and passes -/

/-- The steps and the passes that were added to a scope are those in a ledger. -/
structure Ledger.Tallies (ℓ : Ledger) (s s' : Scope) : Prop where
  steps : s'.context.history.length = s.context.history.length + (ℓ.dispatched + ℓ.closed + ℓ.joined)
  iterations : s'.trace.counters.iterations = s.trace.counters.iterations + ℓ.passes

namespace Ledger.Tallies

theorem none (s : Scope) : (0 : Ledger).Tallies s s := ⟨rfl, rfl⟩

theorem trans (h : ℓ.Tallies s s') (h' : ℓ'.Tallies s' t) : (ℓ + ℓ').Tallies s t := by
  obtain ⟨hs, hi⟩ := h
  obtain ⟨hs', hi'⟩ := h'
  constructor <;> simp only [Ledger.add_def] <;> omega

/-- Steps that are added without a pass. -/
theorem of_adds {added : Nat} (h : s.Adds added s') (hℓ : ℓ.dispatched + ℓ.closed + ℓ.joined = added) (hp : ℓ.passes = 0) :
    ℓ.Tallies s s' :=
  ⟨hℓ ▸ h.steps, hp ▸ h.iterations⟩

/-- What adds nothing does not change the tally. -/
theorem behind (h : ℓ.Tallies s s') (h' : s'.Adds 0 t) : ℓ.Tallies s t :=
  ⟨h'.steps.trans h.steps, h'.iterations.trans h.iterations⟩

/-- The branches of a split tally together. -/
theorem ofBranches {count : Nat} {ledgers : Fin count → Ledger} {outcomes : Fin count → Outcome} {winner : Option Nat}
    (h : ∀ i, (ledgers i).Tallies s.fork (outcomes i).scope) (joining : Joining) :
    (Ledger.ofBranches ledgers outcomes).Tallies s (foldBranches joining ⟨List.ofFn outcomes, winner⟩ s) := by
  constructor
  · rw [steps_foldBranches, List.map_ofFn, List.sum_ofFn]
    simp only [Ledger.ofBranches, ← Finset.sum_add_distrib]
    refine congrArg _ (Finset.sum_congr rfl fun i _ => ?_)
    exact (h i).steps.trans (Nat.zero_add _)
  · rw [iterations_foldBranches, List.map_ofFn, List.sum_ofFn]
    refine congrArg _ (Finset.sum_congr rfl fun i _ => ?_)
    exact (h i).iterations.trans (Nat.zero_add _)

end Ledger.Tallies

theorem passNumbered_tallies (n : Node) (i : Nat) (s : Scope) : ({ passes := 1 } : Ledger).Tallies s (passNumbered st n i s) :=
  ⟨rfl, rfl⟩

theorem loopOpened_adds (n : Node) (e : Edge) (s : Scope) : s.Adds 1 (loopOpened n e s) :=
  (Scope.Adds.beginStep s n.id).trans (.finishStep _ _ _ _)

theorem successor_adds {n : Node} {body : Option String} (h : (successor st n.id).Comes R s 0 (.ok body) s') : s.Adds 0 s' :=
  ((successor_ponders st n.id).records s).comes h |>.2

/-- The steps and the passes that a leg adds to its scope are those in its ledger. -/
theorem Tour.tallies (h : Tour st R leg s ℓ r s') (hd : leg.Declared st.graph) : ℓ.Tallies s s' := by
  induction h with
  | boundary | calledOff | spent | withdrawn => exact .none _
  | refused => exact ⟨rfl, rfl⟩
  | onward _ hn _ _ ih ih' => exact (ih ⟨_, hn⟩).trans (ih' trivial)
  | stop _ hn _ ih | broken _ hn _ ih => exact ih ⟨_, hn⟩
  | plain hl hs hc => exact .of_adds ((visit_records _ hl hs _).comes hc).2 rfl rfl
  | @loop n e s _ _ _ ended _ _ he _ hc ih =>
    have left : (leaveLoop st e ended).Records 0 := by
      unfold leaveLoop
      exact .ite (.pure _) (advance_ponders st e.source).records
    have opened : ({ dispatched := 1 } : Ledger).Tallies s (loopOpened n e s) := .of_adds (loopOpened_adds n e s) rfl rfl
    exact (opened.trans (ih he)).behind ((left _).comes hc).2
  | @loopBroken n e s _ _ _ _ he _ ih =>
    have opened : ({ dispatched := 1 } : Ledger).Tallies s (loopOpened n e s) := .of_adds (loopOpened_adds n e s) rfl rfl
    exact opened.trans (ih he)
  | @split n _ s s₁ s₂ ledgers outcomes winner r _ hopen _ _ hclose ih =>
    have opened : s.Adds 1 s₁ := ((openSplit_records n).comes hopen).2.2
    have folded : (Ledger.ofBranches ledgers outcomes).Tallies s₁ (foldBranches st.joining ⟨List.ofFn outcomes, winner⟩ s₁) :=
      .ofBranches (fun i => ih i trivial) st.joining
    have closed := ((closeSplit_records n _).comes hclose).2.1
    have dispatched : ({ dispatched := 1 } : Ledger).Tallies s s₁ := .of_adds opened rfl rfl
    have joined : ({ joined := if r.isOk ∧ (st.graph.join? n.id).isSome then 1 else 0 } : Ledger).Tallies _ s₂ :=
      .of_adds closed (by simp) rfl
    have total := (dispatched.trans folded).trans joined
    exact ⟨total.steps.trans (by simp only [Ledger.add_def]; omega), total.iterations.trans (by simp only [Ledger.add_def]; omega)⟩
  | again _ _ ih ih' => exact (ih hd).trans (ih' hd)
  | last _ ih | failing _ ih => exact ih hd
  | bodyless hc =>
    have entered := (passNumbered_tallies _ _ _).behind (successor_adds hc)
    exact ⟨entered.steps, entered.iterations⟩
  | @body n e i body s s₁ s₂ s₃ ℓ flow r hc _ hleave ih =>
    obtain ⟨m, hm⟩ := Graph.loopEnd_declared hd
    have entered := (passNumbered_tallies n i s).behind (successor_adds hc)
    have left : ({ closed := if flow = .boundary e.source ∧ r.isOk then 1 else 0 } : Ledger).Tallies s₂ s₃ :=
      .of_adds ((leaveBody_plain hm flow s₂).comes hleave).2.1 (by simp) rfl
    have total := (entered.trans (ih trivial)).trans left
    exact ⟨total.steps.trans (by simp only [Ledger.add_def]; omega), total.iterations.trans (by simp only [Ledger.add_def]; omega)⟩
  | bodyBroken hc _ ih => exact ((passNumbered_tallies _ _ _).behind (successor_adds hc)).trans (ih trivial)

/-! ## Failures -/

/-- The setting with another visit limit. -/
def Setting.within (st : Setting) (limit : Nat) : Setting := { st with config.maxVisits := limit }

theorem tryAlternatives_within (limit : Nat) (n : Node) (room : Nat) (attempted : List String) (queue : List Implementation)
    (retries : Nat) (last : Fault) :
    tryAlternatives (st.within limit) n room attempted queue retries last =
      tryAlternatives st n room attempted queue retries last := by
  induction room generalizing attempted queue retries last with
  | zero => unfold tryAlternatives; rfl
  | succ room ih =>
    unfold tryAlternatives
    simp only [ih]
    rfl

theorem recover_within (limit : Nat) (n : Node) (skill : String) : recover (st.within limit) n skill = recover st n skill := by
  unfold recover
  simp only [tryAlternatives_within]
  rfl

/-- How a node is visited that is neither a loop nor a split depends on no segment and no limit. -/
theorem visit_within {n : Node} (hl : n.kind ≠ .loopStart) (hs : n.kind ≠ .split) (limit : Nat) (inner inner' : Inner) :
    visit (st.within limit) inner' n = visit st inner n := by
  unfold visit
  split
  case h_7 hk => exact absurd hk hl
  case h_8 hk => exact absurd hk hs
  case h_9 =>
    unfold visitSkill
    simp only [recover_within]
    rfl
  all_goals rfl

/-- Such a node fails by an answer. -/
theorem visit_explained (hg : st.graph.Checked) {id : String} {n : Node} (hn : st.graph.node? id = some n)
    (hl : n.kind ≠ .loopStart) (hs : n.kind ≠ .split) {inner : Inner} {r : Except Halt Next}
    (h : (visit st inner n).Comes R s 0 r s') {node : String} {fault : Fault} (hr : r = .error (.failed node fault)) :
    Explained R node fault := by
  have explained (limit : Nat) : fault = .visitLimit limit ∨ Explained R node fault := by
    have nowhere : Inner.Accounted (st.within limit) R fun _ _ => pure .ended := fun _ _ _ _ => .stay trivial rfl
    have accounted : (visit (st.within limit) (fun _ _ => pure .ended) n).Accounted (st.within limit) R
        (Next.Known (st.within limit).graph) := visit_accounted hg nowhere hn
    rw [← visit_within hl hs limit inner fun _ _ => pure .ended] at h
    obtain ⟨es, -, accounts, -⟩ := h.secured (accounted s)
    exact (accounts.failed node fault hr).imp_right And.left
  -- The limit does not matter, so it is not what the node fails by.
  obtain rfl | hx := explained 0
  · exact (explained 1).resolve_left (by simp)
  · exact hx

/-- Behind its passes a loop does not fail. -/
theorem leaveLoop_comes {e : Edge} {ended : Bool} {t : Toll} {r : Except Halt Next} (h : (leaveLoop st e ended).Comes R s t r s') :
    ∃ next, r = .ok next := by
  unfold leaveLoop at h
  split at h
  · exact ⟨_, h.of_pure.1⟩
  · exact (advance_ponders st e.source).comes h

/-- A verdict of failure is that of a branch, and no branch before it failed and none was cancelled. -/
theorem failing_branch {count : Nat} {outcomes : Fin count → Outcome} {winner : Option Nat} {node : String} {fault : Fault}
    (h : verdict ⟨List.ofFn outcomes, winner⟩ = .failed node fault) :
    ∃ i, (outcomes i).ending = .error (.failed node fault) ∧ (∀ j < i, (outcomes j).failure? = none) ∧
      ∀ j, (outcomes j).ending ≠ .error .cancelled := by
  obtain ⟨before, o, behind, hsplit, hfail, hbefore, calm⟩ := failed_of_verdict h
  have at? (k : Fin count) : (before ++ o :: behind)[k.val]? = some (outcomes k) := by
    rw [← hsplit, List.getElem?_ofFn, dif_pos k.isLt]
  have hlt : before.length < count := by
    have lengths := congrArg List.length hsplit
    simp only [List.length_ofFn, List.length_append, List.length_cons] at lengths
    omega
  refine ⟨⟨before.length, hlt⟩, ?_, fun j hj => ?_, fun j => calm _ (List.mem_ofFn.mpr ⟨j, rfl⟩)⟩
  · have found := at? ⟨before.length, hlt⟩
    rw [List.getElem?_append_right le_rfl, Nat.sub_self, List.getElem?_cons_zero] at found
    rw [← Option.some.inj found]
    exact hfail
  · have found := at? j
    rw [List.getElem?_append_left hj] at found
    exact hbefore _ (List.mem_of_getElem? found)

/-- Where no dispatch was refused on a whole split, none was refused in one of its branches. -/
theorem quiet_of_branches {count : Nat} {ledgers : Fin count → Ledger} {outcomes : Fin count → Outcome}
    (hℓ : (ℓ + Ledger.ofBranches ledgers outcomes).refused = 0) (i : Fin count) : (ledgers i).refused = 0 := by
  have sum : ∑ i, (ledgers i).refused = 0 := Nat.eq_zero_of_add_eq_zero_left hℓ
  exact Finset.sum_eq_zero_iff.mp sum i (Finset.mem_univ i)

/-- Without a refused dispatch, whatever fails does so by an answer. -/
theorem Tour.explained (hg : st.graph.Checked) (h : Tour st R leg s ℓ r s') (hd : leg.Declared st.graph) (hℓ : ℓ.refused = 0)
    {node : String} {fault : Fault} (hr : r = .error (.failed node fault)) : Explained R node fault := by
  induction h with
  | boundary | calledOff | stop | spent | last | withdrawn | bodyless => cases hr
  | refused => cases hℓ
  | onward _ _ _ _ _ ih => exact ih trivial (Nat.eq_zero_of_add_eq_zero_left hℓ) hr
  | broken _ hn _ ih =>
    cases hr
    exact ih ⟨_, hn⟩ hℓ rfl
  | plain hl hs hc =>
    obtain ⟨_, hn⟩ := hd
    exact visit_explained hg hn hl hs hc hr
  | loop _ _ _ hc =>
    obtain ⟨_, rfl⟩ := leaveLoop_comes hc
    cases hr
  | loopBroken _ he _ ih =>
    cases hr
    exact ih he (Nat.eq_zero_of_add_eq_zero_left hℓ) rfl
  | split _ _ _ _ hclose ih =>
    subst hr
    obtain ⟨i, hi, -⟩ := failing_branch ((closeSplit_records _ _).comes hclose).2.2
    exact ih i trivial (quiet_of_branches hℓ i) hi
  | again _ _ _ ih' => exact ih' hd (Nat.eq_zero_of_add_eq_zero_left hℓ) hr
  | failing _ ih =>
    cases hr
    exact ih hd hℓ rfl
  | body _ _ hleave =>
    obtain ⟨_, hm⟩ := Graph.loopEnd_declared hd
    obtain ⟨-, hc⟩ := ((leaveBody_plain hm _ _).comes hleave).2
    cases hc _ hr
  | bodyBroken _ _ ih =>
    cases hr
    exact ih trivial (Nat.eq_zero_of_add_eq_zero_left hℓ) rfl

/-! ## Refusals -/

/-- Where a dispatch was refused on a split, it was in one of its branches. -/
theorem Ledger.refused_branch {count : Nat} {ledgers : Fin count → Ledger} {outcomes : Fin count → Outcome}
    (hℓ : 0 < (ofBranches ledgers outcomes).refused) : ∃ i, 0 < (ledgers i).refused := by
  have sum : ∑ i, (ledgers i).refused ≠ 0 := hℓ.ne'
  obtain ⟨i, -, hi⟩ := Finset.exists_ne_zero_of_sum_ne_zero sum
  exact ⟨i, Nat.pos_of_ne_zero hi⟩

/-- A cancellation, or a failure by the visit limit or of a branch that stands before a refused one. -/
def Overtaken (st : Setting) (ℓ : Ledger) (r : Except Halt α) : Prop :=
  ∃ halt, r = .error halt ∧ ∀ node fault, halt = .failed node fault →
    fault = .visitLimit st.config.maxVisits ∨ (node, fault) ∈ ℓ.overtaking

namespace Overtaken

theorem not_ok {a : α} : ¬Overtaken st ℓ (.ok a : Except Halt α) := fun ⟨_, h, _⟩ => nomatch h

/-- What was counted before does not matter. -/
theorem behind {r : Except Halt α} (h : Overtaken st ℓ' r) (ℓ : Ledger) : Overtaken st (ℓ + ℓ') r := by
  obtain ⟨halt, rfl, hf⟩ := h
  exact ⟨halt, rfl, fun node fault hh => (hf node fault hh).imp_right (.inr ·)⟩

/-- What breaks a part off breaks off the whole. -/
theorem halt {halt : Halt} (h : Overtaken st ℓ (.error halt : Except Halt α)) {β : Type} :
    Overtaken st ℓ (.error halt : Except Halt β) := by
  obtain ⟨_, hh, hf⟩ := h
  cases hh
  exact ⟨halt, rfl, hf⟩

/-- A split of which some branch had a dispatch refused does not get past its branches, and a branch
    that fails otherwise stands before that one. -/
theorem ofBranches {count : Nat} {ledgers : Fin count → Ledger} {outcomes : Fin count → Outcome}
    (h : ∀ i, 0 < (ledgers i).refused → Overtaken st (ledgers i) (outcomes i).ending)
    (hℓ : 0 < (Ledger.ofBranches ledgers outcomes).refused) {node : String} {fault : Fault}
    (hv : verdict ⟨List.ofFn outcomes, winner⟩ = .failed node fault) :
    fault = .visitLimit st.config.maxVisits ∨ (node, fault) ∈ (Ledger.ofBranches ledgers outcomes).overtaking := by
  obtain ⟨i, hi, first, calm⟩ := failing_branch hv
  obtain ⟨j, hj⟩ := Ledger.refused_branch hℓ
  obtain hr | hr := Nat.eq_zero_or_pos (ledgers i).refused
  · -- The branch failed without a refusal, so the refused one stands behind it.
    obtain ⟨halt, hh, -⟩ := h j hj
    obtain lt | rfl | gt := lt_trichotomy i j
    · exact .inr (.inr ⟨i, j, lt, Outcome.failure?_eq_some.mpr hi, hj⟩)
    · exact absurd hr hj.ne'
    · cases halt with
      | cancelled => exact absurd hh (calm j)
      | failed node' fault' => exact absurd ((first j gt).symm.trans (Outcome.failure?_eq_some.mpr hh)) nofun
  · obtain ⟨halt, hh, hf⟩ := h i hr
    rw [hi] at hh
    cases hh
    exact (hf node fault rfl).imp_right fun hin => .inl (Set.mem_iUnion.mpr ⟨i, hin⟩)

end Overtaken

/-- With a refused dispatch a tour where all branches are waited for is cancelled, or it fails by the
    visit limit or as a branch did that stands before a refused one. -/
theorem Tour.overtaken (hj : st.joining = .all) (h : Tour st R leg s ℓ r s') (hℓ : 0 < ℓ.refused) : Overtaken st ℓ r := by
  induction h with
  | boundary | calledOff | plain | spent | withdrawn | bodyless => cases hℓ
  | refused => exact ⟨_, rfl, fun _ _ h => by cases h; exact .inl rfl⟩
  | onward _ _ _ _ ih ih' =>
    obtain h | h := Nat.add_pos_iff_pos_or_pos.mp hℓ
    · exact absurd (ih h) Overtaken.not_ok
    · exact (ih' h).behind _
  | again _ _ ih ih' =>
    obtain h | h := Nat.add_pos_iff_pos_or_pos.mp hℓ
    · exact absurd (ih h) Overtaken.not_ok
    · exact (ih' h).behind _
  | stop _ _ _ ih | last _ ih => exact absurd (ih hℓ) Overtaken.not_ok
  | broken _ _ _ ih | failing _ ih => exact (ih hℓ).halt
  | loop _ _ _ _ ih | body _ _ _ ih => exact absurd (ih (by simpa [Ledger.add_def] using hℓ)) Overtaken.not_ok
  | loopBroken _ _ _ ih | bodyBroken _ _ ih => exact ((ih (by simpa [Ledger.add_def] using hℓ)).behind _).halt
  | @split _ _ _ _ _ ledgers outcomes winner r _ _ _ hw hclose ih =>
    have refused : 0 < (Ledger.ofBranches ledgers outcomes).refused := by simpa [Ledger.add_def] using hℓ
    have closed := ((closeSplit_records _ _).comes hclose).2.2
    match r with
    | .error .cancelled => exact ⟨_, rfl, nofun⟩
    | .error (.failed node fault) =>
      refine Overtaken.behind ⟨_, rfl, fun _ _ h => ?_⟩ _
      cases h
      exact Overtaken.ofBranches ih refused closed
    | .ok _ =>
      obtain ⟨ended, hv⟩ := closed
      obtain ⟨j, hr⟩ := Ledger.refused_branch refused
      obtain ⟨flow, hf⟩ := passed_of_verdict hv (hw hj) (outcomes j) (List.mem_ofFn.mpr ⟨j, rfl⟩)
      exact absurd (hf ▸ ih j hr) Overtaken.not_ok

/-! ## Runs -/

/-- A visit limit by which a node fails without a refused dispatch was its answer. -/
theorem Explained.of_answer {acts : List Act} {node : String} {limit : Nat} (h : Explained (given acts) node (.visitLimit limit)) :
    ∃ k l, given acts k l (.given (.error (.visitLimit limit))) := by
  obtain ⟨k, l, a, hk, -, rfl | ⟨-, hf⟩⟩ := h
  · exact ⟨k, l, hk⟩
  · cases hf

/-- A run of a valid graph does not move for ever, whatever is answered: as long as it is not over
    somebody can move, and nothing can move without end. That is due to the visit limit alone, since
    every larger budget leads to the same ends. Of a run that is over the steps are the dispatches,
    of which there are no more than the limit, the passes that came to the end of their loop, and
    the splits that got past a join. Unless branches raced, a run that asked for one dispatch more
    is cancelled, or it fails by the visit limit or as a branch did that stands before one in which
    a dispatch was refused. Without that, only an answer can make it fail by a visit limit. -/
theorem runs_end_and_account_for_their_dispatches {s : Setting} (hv : s.graph.validate.isValid = true) (c : Context) :
    ∃ start p, s.graph.start? = some start ∧ run s c = .ok p ∧
      (∀ f : Nat → Standing Outcome, f 0 = .at p → ¬∀ i, (f (i + 1)).Follows s.config.maxVisits (f i)) ∧
      (∀ acts t w, Course s.config.maxVisits false (.at p) {} acts t w →
        (∃ o, t = .finished o) ∨ ∃ act t' w', Move s.config.maxVisits false t w act t' w') ∧
      (∀ budget, s.config.maxVisits ≤ budget → ∀ acts o w,
        Course s.config.maxVisits false (.at p) {} acts (.finished o) w ↔
          Course s.config.maxVisits false (.at (runWithin s budget start.id c)) {} acts (.finished o) w) ∧
      ∀ acts o w elapsedMs, Course s.config.maxVisits false (.at p) {} acts (.finished o) w →
        let r := o.result s.graph elapsedMs
        dispatches acts ≤ s.config.maxVisits ∧
        ∃ ℓ, Tour s (given acts) (.segment [] start.id) { context := c } ℓ o.ending o.scope ∧
          ℓ.dispatched = dispatches acts ∧ ℓ.refused = refusals acts ∧
          r.steps.length = c.history.length + (dispatches acts + ℓ.closed + ℓ.joined) ∧
          (s.graph.strategy ≠ .firstSuccess → r.status ≠ .cancelled → s.config.maxVisits < dispatches acts + refusals acts →
            r.status = .failed ∧ ∃ node fault, o.ending = .error (.failed node fault) ∧
              (fault = .visitLimit s.config.maxVisits ∨ (node, fault) ∈ ℓ.overtaking)) ∧
          ((∀ k l limit, ¬given acts k l (.given (.error (.visitLimit limit)))) → Alone acts →
            dispatches acts + refusals acts ≤ s.config.maxVisits →
            ∀ node limit, o.ending ≠ .error (.failed node (.visitLimit limit))) := by
  have hg := Graph.checked_of_isValid hv
  obtain ⟨start, hs, declared⟩ := hg.starts
  have hrun : run s c = .ok (runFrom s start.id c) := by simp only [run, if_pos hv, hs]
  refine ⟨start, _, hs, hrun, fun f _ => Standing.not_for_ever f, fun _ t w _ => t.moves_on false w,
    fun budget hb acts o w => budgets_do_not_matter s start.id c hb, fun acts o w elapsedMs h => ?_⟩
  obtain ⟨ℓ, tour, toll⟩ := h.tour hg declared
  obtain ⟨hd, hr⟩ : ℓ.dispatched = dispatches acts ∧ ℓ.refused = refusals acts := Prod.mk.inj toll
  refine ⟨h.dispatches_le, ℓ, tour, hd, hr, hd ▸ (tour.tallies trivial).steps, fun hstrategy hcancelled hmore => ?_,
    fun hanswers halone hless node limit he => ?_⟩
  · have refused : 0 < ℓ.refused := by
      have made : dispatches acts ≤ s.config.maxVisits := h.dispatches_le
      omega
    obtain ⟨halt, he, hf⟩ := tour.overtaken (if_neg hstrategy) refused
    cases halt with
    | cancelled => exact absurd (by simp [Outcome.result, RunResult.ofScope, he, statusOf]) hcancelled
    | failed node fault =>
      exact ⟨by simp [Outcome.result, RunResult.ofScope, he, statusOf], node, fault, he, hf node fault rfl⟩
  · have quiet : ℓ.refused = 0 := by
      by_contra asked
      have made : s.config.maxVisits ≤ 0 + dispatches acts := h.refused_at_limit halone (by omega)
      omega
    obtain ⟨k, l, hk⟩ := (tour.explained hg trivial quiet he).of_answer
    exact hanswers k l limit hk

/-- Two nodes that lead to one another for ever, and to an end that is never reached. -/
def circling : Setting where
  config := { maxVisits := 5 }
  graph :=
    { id := "circling"
      version := "1.0"
      name := ""
      description := ""
      metadata := none
      strategy := .abort
      maxRetries := 0
      retryDelay := none
      nodes := [{ id := "start", kind := .start }, .skill "a" "draw", .skill "b" "erase", { id := "end", kind := .finish }]
      edges := [{ source := "start", target := "a" }, { source := "a", target := "b" }, { source := "b", target := "a" },
        { source := "b", target := "end", kind := .conditional, condition := some "false" }] }

/-- The circle is run until the limit is reached. -/
theorem a_circle_is_run_to_the_limit : circling.graph.validate.isValid = true ∧ ∃ p acts o w' ℓ,
    run circling {} = .ok p ∧ Course 5 false (.at p) {} acts (.finished o) w' ∧
      (o.result circling.graph 0).status = .failed ∧
      (o.result circling.graph 0).steps.map (·.node) = ["start", "a", "b", "a", "b"] ∧
      Tour circling (given acts) (.segment [] "start") {} ℓ o.ending o.scope ∧ ℓ.dispatched ≤ 5 ∧
      ℓ.dispatched + ℓ.closed + ℓ.joined = 5 := by
  have valid : circling.graph.validate.isValid = true := by decide +kernel
  have shown : (Rehearsal.rehearse circling {} .simulated none).toOption.map
      (fun r => (r.result.status, r.result.steps.map (·.node))) = some (.failed, ["start", "a", "b", "a", "b"]) := by
    decide +kernel
  obtain ⟨r, hr, hshown⟩ := Option.map_eq_some_iff.mp shown
  obtain ⟨q, acts, o, w', elapsedMs, hq, hc, he⟩ := rehearse_course (ok_of_toOption hr)
  rw [he] at hshown
  obtain ⟨status, steps⟩ := Prod.mk.inj hshown
  obtain ⟨start, p, hs, hp, -, -, -, accounts⟩ := runs_end_and_account_for_their_dispatches valid {}
  obtain rfl : q = p := Except.ok.inj (hq.symm.trans hp)
  obtain ⟨within, ℓ, tour, hd, -, hsteps, -⟩ := accounts acts o w' 0 hc
  cases hs
  refine ⟨valid, q, acts, o, w', ℓ, hq, hc, status, steps, tour, hd ▸ within, ?_⟩
  have five : (o.result circling.graph 0).steps.length = 5 := by
    rw [← List.length_map]
    exact congrArg List.length steps
  rw [five] at hsteps
  rw [hd]
  simpa using hsteps.symm

end Capability.Execution
