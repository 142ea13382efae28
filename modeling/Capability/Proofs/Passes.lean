/-
  Capability.Proofs.Passes — how many passes the loops of a run make.

  A pass is counted by its loop, a dispatch by the run, and a segment that begins at a boundary
  dispatches nothing. So the visit limit bounds the passes as far as each of them enters its body.

  (1) `Tour.balanced`: every pass pays with a dispatch unless it is idle.
  (2) `Tour.passes_le`: every dispatch opens no more passes than a loop may make.
  (3) `Tour.busy`: no pass is idle where every loop enters its body.
  (4) `passes_are_bounded_by_dispatches`: what that says of a run.
-/

import Capability.Proofs.Accounting

namespace Capability

/-- Every loop has an edge into its body that is always open, and none that leads to its own end or
    back to its start. -/
def Graph.LoopsEnter (g : Graph) : Prop :=
  ∀ n ∈ g.nodes, ∀ e ∈ g.iterationEdge? n.id,
    (∀ f ∈ g.flow n.id, f.target ≠ e.source ∧ f.target ≠ n.id) ∧ ∃ f ∈ g.flow n.id, f.guard? = none

instance (g : Graph) : Decidable g.LoopsEnter :=
  inferInstanceAs (Decidable (∀ n ∈ g.nodes, ∀ e ∈ g.iterationEdge? n.id,
    (∀ f ∈ g.flow n.id, f.target ≠ e.source ∧ f.target ≠ n.id) ∧ ∃ f ∈ g.flow n.id, f.guard? = none))

namespace Execution

variable {st : Setting} {R : Replies} {α : Type} {leg : Leg α} {s s' : Scope} {ℓ : Ledger} {r : Except Halt α}

/-! ## Passes and dispatches -/

/-- What comes to its end has a dispatch to spare. -/
def spare {ε α : Type} : Except ε α → Nat
  | .ok _ => 1
  | .error _ => 0

@[simp] theorem spare_ok {ε α : Type} (a : α) : spare (.ok a : Except ε α) = 1 := rfl

@[simp] theorem spare_error {ε α : Type} (e : ε) : spare (.error e : Except ε α) = 0 := rfl

theorem spare_le_one {ε α : Type} (r : Except ε α) : spare r ≤ 1 := by cases r <;> simp

/-- Every pass is paid for by a dispatch or is idle, but for the one that is under way. The dispatch
    to spare pays for the pass around it. -/
def Leg.Balanced : {α : Type} → Leg α → Ledger → Except Halt α → Prop
  | _, .segment own id, ℓ, r => ℓ.passes + (if id ∈ own then 0 else spare r) ≤ ℓ.dispatched + ℓ.idle
  | _, .visit _, ℓ, r => ℓ.passes + spare r ≤ ℓ.dispatched + ℓ.idle
  | _, .pass _ _ _, ℓ, r | _, .passes _ _ _ _, ℓ, r => ℓ.passes + spare r ≤ ℓ.dispatched + ℓ.idle + 1

/-- The branches of a split pay for their passes, so the dispatch of the split is to spare. -/
theorem Ledger.balanced_branches {count : Nat} {ledgers : Fin count → Ledger} (outcomes : Fin count → Outcome)
    (h : ∀ i, (ledgers i).passes ≤ (ledgers i).dispatched + (ledgers i).idle) :
    (ofBranches ledgers outcomes).passes ≤ (ofBranches ledgers outcomes).dispatched + (ofBranches ledgers outcomes).idle := by
  have summed := Finset.sum_le_sum (s := Finset.univ) fun i _ => h i
  rwa [Finset.sum_add_distrib] at summed

theorem Tour.balanced (h : Tour st R leg s ℓ r s') : leg.Balanced ℓ r := by
  induction h with
  | boundary ho => simp [Leg.Balanced, ho, Ledger.zero_def]
  | calledOff | refused | spent | withdrawn | bodyless => simp [Leg.Balanced, Ledger.zero_def]
  | @onward own id next n s s₁ s₂ ℓ ℓ' r ho hn _ _ ih ih' =>
    -- The dispatch that the visit has to spare is left over even if the rest has none.
    have := spare_le_one r
    simp only [Leg.Balanced, Ledger.add_def, if_neg ho, spare_ok] at *
    split at ih' <;> omega
  | stop ho _ _ ih | broken ho _ _ ih => simpa [Leg.Balanced, ho] using ih
  | @plain _ _ _ _ r =>
    have := spare_le_one r
    simp only [Leg.Balanced]
    omega
  | @loop _ _ _ _ _ _ _ r _ _ _ _ ih =>
    -- The dispatch of the loop makes up for the pass that the passes may be ahead.
    have := spare_le_one r
    simp only [Leg.Balanced, Ledger.add_def, spare_ok] at *
    omega
  | loopBroken _ _ _ ih =>
    simp only [Leg.Balanced, Ledger.add_def, spare_error] at *
    omega
  | @split _ _ _ _ _ ledgers outcomes _ r _ _ _ _ _ ih =>
    have := spare_le_one r
    have branches := Ledger.balanced_branches outcomes fun i => Nat.le_of_add_right_le (ih i)
    simp only [Leg.Balanced, Ledger.add_def] at *
    omega
  | again _ _ ih ih' =>
    simp only [Leg.Balanced, Ledger.add_def, spare_ok] at *
    omega
  | last _ ih | failing _ ih => exact ih
  | @body _ _ _ _ _ _ _ _ _ _ r _ _ _ ih =>
    have := spare_le_one r
    simp only [Leg.Balanced, Ledger.add_def, spare_ok] at *
    split at ih <;> simp only [*, if_true, if_false] <;> omega
  | bodyBroken _ _ ih =>
    simp only [Leg.Balanced, Ledger.add_def, spare_error] at *
    split at ih <;> omega

/-! ## The bound of a loop -/

/-- A loop may make as many passes as it allows, or 10 if it does not say, and as its edge allows. -/
theorem passBound_eq_min (n : Node) (e : Edge) :
    passBound n e = min (n.maxIterations.getD 10) (e.maxCount.getD (n.maxIterations.getD 10)) := by
  cases h : e.maxCount with
  | none => rw [passBound, h, Option.getD_none, Nat.min_self]; rfl
  | some cap => rw [passBound, h, Option.getD_some, Nat.min_comm]; rfl

/-- How many passes a leg of a loop makes itself. -/
def Leg.allowance : {α : Type} → Leg α → Nat
  | _, .segment _ _ | _, .visit _ => 0
  | _, .pass _ _ _ => 1
  | _, .passes _ _ left _ => left

/-- Where no loop may make more than `most` passes, no dispatch opens more. -/
theorem Tour.passes_le {most : Nat} (hm : ∀ n ∈ st.graph.nodes, ∀ e ∈ st.graph.iterationEdge? n.id, passBound n e ≤ most)
    (h : Tour st R leg s ℓ r s') (hd : leg.Declared st.graph) : ℓ.passes ≤ leg.allowance + most * ℓ.dispatched := by
  induction h with
  | boundary | calledOff | refused | plain | spent | withdrawn | bodyless => simp [Leg.allowance, Ledger.zero_def]
  | onward _ hn _ _ ih ih' =>
    have visited := ih ⟨_, hn⟩
    have rest := ih' trivial
    simp only [Leg.allowance, Ledger.add_def, Nat.mul_add] at *
    omega
  | stop _ hn _ ih | broken _ hn _ ih => exact ih ⟨_, hn⟩
  | loop _ he _ _ ih | loopBroken _ he _ ih =>
    obtain ⟨_, hn⟩ := hd
    have opened := hm _ (List.mem_of_find?_eq_some hn) _ he
    have made := ih he
    simp only [Leg.allowance, Ledger.add_def, Nat.mul_add, Nat.mul_one] at *
    omega
  | @split _ _ _ _ _ ledgers outcomes _ _ _ _ _ _ _ ih =>
    have summed := Finset.sum_le_sum (s := Finset.univ) fun i _ => ih i trivial
    simp only [Leg.allowance, Nat.zero_add, ← Finset.mul_sum] at summed ⊢
    simp only [Ledger.add_def, Ledger.ofBranches, Nat.mul_add]
    omega
  | again _ _ ih ih' =>
    have first := ih hd
    have rest := ih' hd
    simp only [Leg.allowance, Ledger.add_def, Nat.mul_add] at *
    omega
  | last _ ih | failing _ ih =>
    have made := ih hd
    simp only [Leg.allowance] at *
    omega
  | body _ _ _ ih | bodyBroken _ _ ih =>
    have made := ih trivial
    simp only [Leg.allowance, Ledger.add_def, Nat.mul_add] at *
    omega

/-! ## Bodies -/

theorem edgeTaken_mem {vars : Keyed Json} {es : List Edge} {e : Edge} (h : edgeTaken vars es = some e) : e ∈ es := by
  obtain h | ⟨-, h⟩ := Option.or_eq_some_iff.mp h
  · exact List.mem_of_find?_eq_some h
  · exact List.mem_of_find?_eq_some h

theorem edgeTaken_of_open (vars : Keyed Json) {es : List Edge} (h : ∃ e ∈ es, e.guard? = none) :
    ∃ e, edgeTaken vars es = some e := by
  obtain ⟨e, he, hguard⟩ := h
  have found : (es.find? fun e => e.guard?.isNone).isSome := List.find?_isSome.mpr ⟨e, he, by simp [hguard]⟩
  refine Option.isSome_iff_exists.mp ?_
  rw [edgeTaken, Option.isSome_or, found, Bool.or_true]

/-- Where every loop enters its body, the one that is closed by an edge finds a body. -/
theorem successor_enters (hb : st.graph.LoopsEnter) {id : String} {e : Edge} (he : st.graph.iterationEdge? id = some e)
    {next : Option String} (h : (successor st id).Comes R s 0 (.ok next) s') : ∃ body, next = some body ∧ body ∉ [e.source, id] := by
  obtain ⟨n, hn, rfl⟩ := Graph.loopStart_declared he
  obtain ⟨beyond, opened⟩ := hb n hn e he
  have decided : (successor st n.id).Secures R (fun _ => True) s fun r _ =>
      r = .ok ((edgeTaken s.context.vars (st.graph.flow n.id)).map (·.target)) :=
    ((successor_decides st n.id).ensures fun _ => rfl).secures
  obtain ⟨f, hf⟩ := edgeTaken_of_open s.context.vars opened
  cases h.secured decided
  refine ⟨f.target, by rw [hf]; rfl, ?_⟩
  simpa using beyond f (edgeTaken_mem hf)

/-- No pass is idle where every loop enters its body. -/
theorem Tour.busy (hb : st.graph.LoopsEnter) (h : Tour st R leg s ℓ r s') (hd : leg.Declared st.graph) : ℓ.idle = 0 := by
  induction h with
  | boundary | calledOff | refused | plain | spent | withdrawn => rfl
  | onward _ hn _ _ ih ih' => exact Nat.add_eq_zero_iff.mpr ⟨ih ⟨_, hn⟩, ih' trivial⟩
  | stop _ hn _ ih | broken _ hn _ ih => exact ih ⟨_, hn⟩
  | loop _ he _ _ ih | loopBroken _ he _ ih => exact Nat.add_eq_zero_iff.mpr ⟨rfl, ih he⟩
  | @split _ _ _ _ _ ledgers _ _ _ _ _ _ _ _ ih =>
    have branches : ∑ i, (ledgers i).idle = 0 := Finset.sum_eq_zero fun i _ => ih i trivial
    exact Nat.add_eq_zero_iff.mpr ⟨rfl, branches⟩
  | again _ _ ih ih' => exact Nat.add_eq_zero_iff.mpr ⟨ih hd, ih' hd⟩
  | last _ ih | failing _ ih => exact ih hd
  | bodyless hc =>
    obtain ⟨_, hnone, -⟩ := successor_enters hb hd hc
    cases hnone
  | body hc _ _ ih =>
    obtain ⟨_, hbody, hbeyond⟩ := successor_enters hb hd hc
    cases hbody
    exact Nat.add_eq_zero_iff.mpr ⟨if_neg hbeyond, ih trivial⟩
  | bodyBroken _ _ ih => exact Nat.add_eq_zero_iff.mpr ⟨rfl, ih trivial⟩

/-! ## Runs -/

/-- The passes of a run that is over are those on its tour. Each of them pays with a dispatch, of which
    there are no more than the visit limit, unless it is idle: no edge led into a body, or the body
    was the start or the end of its loop. With the idle ones there are no more than the largest bound
    of a loop for every dispatch. If every loop enters its body, no pass is idle. -/
theorem passes_are_bounded_by_dispatches {s : Setting} {c : Context} {p : Process Outcome} (hr : run s c = .ok p)
    {acts : List Act} {o : Outcome} {w : Shared} (h : Course s.config.maxVisits false (.at p) {} acts (.finished o) w)
    (elapsedMs : Nat) :
    let r := o.result s.graph elapsedMs
    ∃ start ℓ, s.graph.start? = some start ∧
      Tour s (given acts) (.segment [] start.id) { context := c } ℓ o.ending o.scope ∧
      r.counters.iterations = ℓ.passes ∧ ℓ.dispatched = dispatches acts ∧ dispatches acts ≤ s.config.maxVisits ∧
      r.counters.iterations ≤ dispatches acts + ℓ.idle ∧
      (∀ most, (∀ n ∈ s.graph.nodes, ∀ e ∈ s.graph.iterationEdge? n.id,
          min (n.maxIterations.getD 10) (e.maxCount.getD (n.maxIterations.getD 10)) ≤ most) →
        r.counters.iterations ≤ most * dispatches acts) ∧
      (s.graph.LoopsEnter → r.counters.iterations ≤ s.config.maxVisits) := by
  have hg := Graph.checked_of_isValid (isValid_of_run hr)
  obtain ⟨start, hs, declared⟩ := hg.starts
  obtain rfl : runFrom s start.id c = p := by
    simpa only [run, if_pos (isValid_of_run hr), hs, Except.ok.injEq] using hr
  obtain ⟨ℓ, tour, toll⟩ := h.tour hg declared
  obtain ⟨hd, -⟩ : ℓ.dispatched = dispatches acts ∧ ℓ.refused = refusals acts := Prod.mk.inj toll
  have counted : o.scope.trace.counters.iterations = ℓ.passes := (tour.tallies trivial).iterations.trans (Nat.zero_add _)
  have within : dispatches acts ≤ s.config.maxVisits := h.dispatches_le
  have paid : o.scope.trace.counters.iterations ≤ dispatches acts + ℓ.idle := by
    rw [counted, ← hd]
    exact Nat.le_of_add_right_le tour.balanced
  refine ⟨start, ℓ, hs, tour, counted, hd, within, paid, fun most hm => ?_, fun hb => ?_⟩
  · simp only [← passBound_eq_min] at hm
    have made : ℓ.passes ≤ 0 + most * ℓ.dispatched := tour.passes_le hm trivial
    rw [Nat.zero_add, hd, ← counted] at made
    exact made
  · have quiet : ℓ.idle = 0 := tour.busy hb trivial
    rw [quiet] at paid
    exact paid.trans within

/-- A loop that may make five passes in a run of three dispatches, and its body. -/
def looping (body : List Node) (wiring : List Edge) : Setting where
  config := { maxVisits := 3 }
  graph :=
    { id := "looping"
      version := "1.0"
      name := ""
      description := ""
      metadata := none
      strategy := .abort
      maxRetries := 0
      retryDelay := none
      nodes := [{ id := "start", kind := .start }, { id := "loop", kind := .loopStart, maxIterations := some 5 },
        { id := "loop_end", kind := .loopEnd }, { id := "end", kind := .finish }] ++ body
      edges := [{ source := "start", target := "loop" },
        { source := "loop_end", target := "loop", kind := .iteration, exitCondition := some "false" },
        { source := "loop_end", target := "end" }] ++ wiring }

/-- With a body that is entered, the limit ends the loop in its second pass. -/
theorem a_busy_loop_is_stopped :
    let s := looping [.skill "a" "sa"] [{ source := "loop", target := "a" }, { source := "a", target := "loop_end" }]
    s.graph.LoopsEnter ∧ ∃ p acts o w', run s {} = .ok p ∧ Course 3 false (.at p) {} acts (.finished o) w' ∧
      (o.result s.graph 0).status = .failed ∧ (o.result s.graph 0).counters.iterations = 2 ∧
      (o.result s.graph 0).counters.iterations ≤ 3 := by
  intro s
  have enter : s.graph.LoopsEnter := by decide +kernel
  have shown : (Rehearsal.rehearse s {} .simulated none).toOption.map
      (fun r => (r.result.status, r.result.counters.iterations)) = some (.failed, 2) := by
    decide +kernel
  obtain ⟨r, hr, hshown⟩ := Option.map_eq_some_iff.mp shown
  obtain ⟨p, acts, o, w', elapsedMs, hp, hc, he⟩ := rehearse_course (ok_of_toOption hr)
  rw [he] at hshown
  obtain ⟨status, iterations⟩ := Prod.mk.inj hshown
  obtain ⟨-, -, -, -, -, -, -, -, -, within⟩ := passes_are_bounded_by_dispatches hp hc 0
  exact ⟨enter, p, acts, o, w', hp, hc, status, iterations, within enter⟩

/-- With a body that is the end of the loop, it makes its five passes. -/
theorem an_idle_loop_outruns_the_limit :
    let s := looping [] [{ source := "loop", target := "loop_end" }]
    s.graph.validate.isValid = true ∧ ∃ p acts o w', run s {} = .ok p ∧
      Course s.config.maxVisits false (.at p) {} acts (.finished o) w' ∧ (o.result s.graph 0).status = .completed ∧
      s.config.maxVisits < (o.result s.graph 0).counters.iterations := by
  intro s
  have valid : s.graph.validate.isValid = true := by decide +kernel
  have shown : (Rehearsal.rehearse s {} .simulated none).toOption.map
      (fun r => (r.result.status, r.result.counters.iterations)) = some (.completed, 5) := by
    decide +kernel
  obtain ⟨r, hr, hshown⟩ := Option.map_eq_some_iff.mp shown
  obtain ⟨p, acts, o, w', elapsedMs, hp, hc, he⟩ := rehearse_course (ok_of_toOption hr)
  rw [he] at hshown
  obtain ⟨status, iterations⟩ := Prod.mk.inj hshown
  have five : (o.result s.graph 0).counters.iterations = 5 := iterations
  refine ⟨valid, p, acts, o, w', hp, hc, status, ?_⟩
  rw [five]
  decide

end Execution

end Capability
