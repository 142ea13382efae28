/-
  Capability.Proofs.Splits — what a split does to its scope, before its branches walk and after
  it.

  Opening a split records its step and decides which branches there are. All of these add to
  the records, in the order of their declaration. The writes of some are kept: of all of them
  if all were waited for, otherwise of the winner alone. In the end the step of the join is
  recorded.

  (1) `openSplit_ensures`: which branches there are depends on the variables alone.
  (2) `Grows.bound`: what a strand wrote since it was forked has values.
  (3) `lookup_foldBranches`: a variable has the value of the last branch kept that wrote it.
  (4) `history_foldBranches`, `trace_foldBranches`: the records stand behind one another.
  (5) `passJoin_ensures`: the join is recorded, and its edges decide where to go on.
-/

import Capability.Proofs.Growth

namespace Capability

/-! ## Contexts -/

namespace Context

/-- What was written has a value. -/
def Bound (c : Context) : Prop := ∀ key ∈ c.written, (c.get? key).isSome = true

theorem lookup_carry (branch c : Context) (key key' : String) :
    (branch.carry c key).get? key' =
      if key' = key then (branch.get? key).or (c.get? key') else c.get? key' := by
  unfold carry
  cases branch.get? key with
  | none => by_cases e : key' = key <;> simp [e]
  | some v => simp [lookup_set]

theorem mem_written_set {c : Context} {key key' : String} {value : Json} :
    key' ∈ (c.set key value).written ↔ key' = key ∨ key' ∈ c.written := List.mem_insert_iff

theorem Bound.set {c : Context} (h : c.Bound) (key : String) (value : Json) : (c.set key value).Bound := by
  intro key' hk
  rw [lookup_set]
  by_cases e : key' = key
  · simp [e]
  · rw [if_neg e]
    exact h key' ((mem_written_set.mp hk).resolve_left e)

theorem Bound.carry {branch c : Context} (h : c.Bound) (key : String) : (branch.carry c key).Bound := by
  unfold Context.carry
  split
  · exact h.set key _
  · exact h

/-- Merging a branch sets what it wrote to what it left there. -/
theorem lookup_merge {branch : Context} (hb : branch.Bound) (c : Context) (key : String) :
    (c.merge branch).get? key = if key ∈ branch.written then branch.get? key else c.get? key := by
  have fold : ∀ keys : List String, (∀ k ∈ keys, (branch.get? k).isSome = true) → ∀ c : Context,
      (keys.foldl branch.carry c).get? key = if key ∈ keys then branch.get? key else c.get? key := by
    intro keys
    induction keys with
    | nil => intro _ c; simp
    | cons k keys ih =>
      intro hk c
      obtain ⟨v, hv⟩ := Option.isSome_iff_exists.mp (hk k List.mem_cons_self)
      rw [List.foldl_cons, ih fun k' h => hk k' (List.mem_cons_of_mem _ h), lookup_carry]
      by_cases e : key = k
      · subst e; simp [hv]
      · simp [e]
  exact fold _ hb c

theorem Bound.merge {c branch : Context} (h : c.Bound) : (c.merge branch).Bound := by
  have fold : ∀ keys : List String, ∀ c : Context, c.Bound → (keys.foldl branch.carry c).Bound := by
    intro keys
    induction keys with
    | nil => exact fun _ h => h
    | cons k keys ih => exact fun c h => ih _ (h.carry k)
  exact fold branch.written c h

end Context

/-! ## Scopes -/

/-- The step is that of a node that did what it had to at the first attempt. -/
structure Step.Passes (e : Step) (node : String) : Prop where
  node : e.node = node
  status : e.status = .completed
  retryCount : e.retryCount = 0

namespace Scope

theorem During.bound {step : OpenStep} {s t : Scope} (h : During step s t) (hs : s.context.Bound) :
    t.context.Bound := by
  induction h with
  | refl => exact hs
  | noting fs _ ih => exact ih
  | awaitStep _ ih => exact ih
  | set key value _ ih => exact ih.set key value

/-- Records a step that is over, and conditions that could not be evaluated. -/
def record (s : Scope) (e : Step) (fs : List ConditionFailure) : Scope where
  context := s.context.push e
  trace.path := s.trace.path ++ [e.node]
  trace.counters := s.trace.counters + .ofStep e.status e.retryCount
  trace.conditionFailures := s.trace.conditionFailures ++ fs

/-- A step during which conditions were looked at. -/
theorem finishStep_noting (s : Scope) (node : String) (status : StepStatus) (report : StepReport)
    (fs : List ConditionFailure) :
    ((s.beginStep node).noting fs).finishStep (s.nextStep node) status report =
      s.record { node, status, result := report.result, error := report.error,
                 fallbackUsed := report.fallbackUsed, retryCount := report.retryCount } fs := by
  simp only [finishStep, closeStep, beginStep, noting, nextStep, Context.modifyStep, Context.push, Context.modify_last,
    record]

theorem record_noting (s : Scope) (e : Step) (fs gs : List ConditionFailure) :
    (s.record e fs).noting gs = s.record e (fs ++ gs) := by
  simp [record, noting]

/-- What a strand wrote since it was forked has values. -/
theorem Grows.bound {s t : Scope} (h : s.Grows t) (hs : s.context.Bound) : t.context.Bound := by
  induction h with
  | refl => exact hs
  | noting fs _ ih => exact ih hs
  | set key value _ ih => exact (ih hs).set key value
  | countPass _ ih => exact ih hs
  | finish report _ hd _ ih => exact hd.bound (ih hs)
  | cancel _ hd ih => exact hd.bound (ih hs)
  | merge _ _ ih _ => exact (ih hs).merge
  | absorb _ _ ih _ => exact ih hs

/-- A fork has written nothing yet. -/
theorem fork_bound (s : Scope) : s.fork.context.Bound := fun _ h => absurd h List.not_mem_nil

end Scope

namespace Execution

variable {J : Joining → Prop} {α : Type}

/-! ## Decisions -/

/-- Whether a condition holds under some variables; one that cannot be evaluated does not. -/
def isTrue (vars : Keyed Json) (expression : String) : Bool :=
  match Condition.holds expression vars with
  | .ok b => b
  | .error _ => false

/-- The walk gives a function of the variables and does nothing but note conditions. -/
def Walk.Decides (w : Walk α) (v : Keyed Json → α) : Prop :=
  ∀ J s, w.Ensures J s fun r s' => r = .ok (v s.context.vars) ∧ ∃ fs, s' = s.noting fs

namespace Walk

theorem Decides.pure (a : α) : (pure a : Walk α).Decides fun _ => a := fun _ s => ⟨rfl, [], by simp⟩

theorem Decides.ensures {w : Walk α} {v : Keyed Json → α} (h : w.Decides v) {s : Scope}
    {Q : Except Halt α → Scope → Prop} (hQ : ∀ fs, Q (.ok (v s.context.vars)) (s.noting fs)) : w.Ensures J s Q := by
  refine (h J s).mono fun r s' hr => ?_
  obtain ⟨rfl, fs, rfl⟩ := hr
  exact hQ fs

theorem Decides.bind {β : Type} {w : Walk α} {v : Keyed Json → α} (h : w.Decides v) {f : α → Walk β}
    {u : α → Keyed Json → β} (hf : ∀ a, (f a).Decides (u a)) : (w >>= f).Decides fun vars => u (v vars) vars := by
  intro J s
  refine Walk.ensures_bind.mpr (h.ensures fun fs => (hf _).ensures fun gs => ⟨rfl, fs ++ gs, by simp⟩)

theorem Decides.congr {w : Walk α} {v u : Keyed Json → α} (h : w.Decides v) (hv : ∀ vars, v vars = u vars) :
    w.Decides u := by
  rwa [← funext hv]

theorem Decides.ite {w w' : Walk α} {v v' : Keyed Json → α} (h : w.Decides v) (c : Prop) [Decidable c]
    (h' : w'.Decides v') : (if c then w else w').Decides fun vars => if c then v vars else v' vars := by
  split
  · exact h
  · exact h'

theorem holdsUnder_decides (vars : Keyed Json) (node expression : String) :
    (holdsUnder vars node expression).Decides fun _ => isTrue vars expression := by
  intro J s
  unfold holdsUnder
  cases he : Condition.holds expression vars with
  | ok b => exact ⟨by simp [isTrue, he], [], by simp⟩
  | error e =>
    simp only [noteFailure, Walk.ensures_bind, Walk.ensures_emit, Walk.ensures_modify, Walk.ensures_pure]
    exact ⟨by simp [isTrue, he], _, rfl⟩

theorem holds_decides (node expression : String) : (holds node expression).Decides fun vars => isTrue vars expression := by
  intro J s
  simp only [holds, Walk.ensures_bind, Walk.ensures_get]
  exact holdsUnder_decides s.context.vars node expression J s

theorem firstWhere_decides {test : α → Walk Bool} {v : α → Keyed Json → Bool} (h : ∀ a, (test a).Decides (v a))
    (as : List α) : (firstWhere test as).Decides fun vars => as.find? fun a => v a vars := by
  induction as with
  | nil => exact .pure none
  | cons a as ih =>
    refine ((h a).bind fun found => (Decides.pure (some a)).ite (found = true) ih).congr fun vars => ?_
    cases hv : v a vars <;> simp [hv]

theorem allHold_decides {test : String → Walk Bool} {v : String → Keyed Json → Bool} (h : ∀ c, (test c).Decides (v c))
    (cs : List String) : (allHold test cs).Decides fun vars => cs.all fun c => v c vars := by
  induction cs with
  | nil => exact .pure true
  | cons c cs ih =>
    have hw := (h c).bind fun held => ih.ite (held = true) (Decides.pure false)
    unfold allHold
    refine hw.congr fun vars => ?_
    rw [List.all_cons]
    cases v c vars <;> rfl

theorem keepWhere_decides {test : α → Walk Bool} {v : α → Keyed Json → Bool} (h : ∀ a, (test a).Decides (v a))
    (as : List α) : (keepWhere test as).Decides fun vars => as.filter fun a => v a vars := by
  induction as with
  | nil => exact .pure _
  | cons a as ih =>
    have hw := (h a).bind fun kept => ih.bind fun others => Decides.pure (if kept then a :: others else others)
    unfold keepWhere
    simpa only [List.filter_cons] using hw

end Walk

/-- Whether a branch is opened along an edge under some variables. -/
def isOpen (vars : Keyed Json) (e : Edge) : Bool :=
  match e.guard? with
  | some c => isTrue vars c
  | none => true

theorem opensBranch_decides (n : Node) (e : Edge) : (opensBranch n e).Decides fun vars => isOpen vars e := by
  unfold opensBranch isOpen
  cases e.guard? with
  | some c => exact Walk.holds_decides _ _
  | none => exact .pure true

/-! ## Opening and closing -/

/-- Where the branches of a split start under some variables, in the order of their
    declaration. -/
def branchStarts (s : Setting) (n : Node) (vars : Keyed Json) : List String :=
  ((s.graph.flow n.id).filter (isOpen vars)).map (·.target)

/-- A split that is opened has its step recorded and has written nothing. -/
theorem openSplit_ensures (st : Setting) (n : Node) (s : Scope) :
    (openSplit st n).Ensures J s fun r t => r = .ok (branchStarts st n s.context.vars) ∧
      ∃ e fs, Step.Passes e n.id ∧ t = s.record e fs := by
  unfold openSplit
  simp only [Walk.ensures_bind, Walk.ensures_beginStep]
  refine (Walk.keepWhere_decides (opensBranch_decides n) _).ensures fun fs => ?_
  simp only [Walk.ensures_finishStep, Walk.ensures_pure]
  exact ⟨rfl, _, fs, ⟨rfl, rfl, rfl⟩, Scope.finishStep_noting ..⟩

/-- The edge taken out of a node under some variables. -/
def edgeTaken (vars : Keyed Json) (es : List Edge) : Option Edge :=
  (es.find? fun e => e.guard?.any (isTrue vars)).or (es.find? fun e => e.guard?.isNone)

theorem chooseEdge_decides (node : String) (es : List Edge) (e? : Option Edge) :
    (chooseEdge node es e?).Decides fun vars =>
      (es.find? fun e => e.guard?.any (isTrue vars)).or (e?.or (es.find? fun e => e.guard?.isNone)) := by
  induction es generalizing e? with
  | nil =>
    have hw : (chooseEdge node [] e?).Decides fun _ => e? := .pure _
    simpa using hw
  | cons e es ih =>
    unfold chooseEdge
    cases hg : e.guard? with
    | none => simpa [List.find?_cons, hg, Option.or_assoc] using ih (e?.or (some e))
    | some c =>
      refine ((Walk.holds_decides node c).bind fun b => (Walk.Decides.pure (some e)).ite (b = true) (ih e?)).congr
        fun vars => ?_
      cases hc : isTrue vars c <;> simp [hg, hc]

/-- Where a strand goes on from a node under some variables. -/
def goesOn (s : Setting) (id : String) (vars : Keyed Json) : Next :=
  match edgeTaken vars (s.graph.flow id) with
  | some e => .node e.target
  | none => .stop .deadEnd

theorem successor_decides (st : Setting) (id : String) :
    (successor st id).Decides fun vars => (edgeTaken vars (st.graph.flow id)).map (·.target) := by
  have hw := (chooseEdge_decides id (st.graph.flow id) none).bind fun e? => Walk.Decides.pure (e?.map (·.target))
  exact Walk.Decides.congr hw fun vars => by simp [edgeTaken]

theorem advance_decides (st : Setting) (id : String) : (advance st id).Decides (goesOn st id) := by
  intro J s
  unfold advance
  refine Walk.ensures_bind.mpr ((successor_decides st id).ensures fun fs => ?_)
  unfold goesOn
  cases edgeTaken s.context.vars (st.graph.flow id) <;> exact ⟨rfl, fs, rfl⟩

/-- Where a split goes on that has got past its branches. -/
def behindJoin (s : Setting) (join : Option String) (ended : Bool) (vars : Keyed Json) : Next :=
  match join with
  | some id => goesOn s id vars
  | none => .stop (if ended then .ended else .deadEnd)

/-- The join of a split is recorded, if there is one, and its edges decide where to go on. -/
theorem passJoin_ensures (st : Setting) (join : Option String) (ended : Bool) (s : Scope) :
    (passJoin st join ended).Ensures J s fun r t => r = .ok (behindJoin st join ended s.context.vars) ∧
      match join.bind st.graph.node? with
      | some n => ∃ e fs, Step.Passes e n.id ∧ t = s.record e fs
      | none => ∃ fs, t = s.noting fs := by
  cases join with
  | none => exact ⟨rfl, [], by simp⟩
  | some id =>
    unfold passJoin passNode
    simp only [Option.bind_some]
    cases hn : st.graph.node? id with
    | none =>
      simp only [Walk.ensures_bind, Walk.ensures_pure]
      exact (advance_decides st id).ensures fun fs => ⟨rfl, fs, rfl⟩
    | some n =>
      have passed := Scope.finishStep_noting s n.id .completed {} []
      rw [Scope.noting_nil] at passed
      simp only [Walk.ensures_bind, Walk.ensures_passThrough, passed]
      exact (advance_decides st id).ensures fun fs => ⟨rfl, _, [] ++ fs, ⟨rfl, rfl, rfl⟩, Scope.record_noting ..⟩

/-- What closing a split comes down to: the verdict on the branches, once more a look at the
    cancellation, and the join. -/
theorem closeSplit_process (st : Setting) (n : Node) (g : Gathered) (s : Scope) :
    (closeSplit st n g).process s =
      match verdict g with
      | .cancelled => .done (.error .cancelled, foldBranches st.joining g s)
      | .failed node fault => .ask .stopped fun (stopped : Bool) =>
        .done (.error (if stopped then .cancelled else .failed node fault), foldBranches st.joining g s)
      | .passed ended => .ask .stopped fun (stopped : Bool) =>
        if stopped then .done (.error .cancelled, foldBranches st.joining g s)
        else (passJoin st (st.graph.join? n.id) ended).process (foldBranches st.joining g s) := by
  unfold closeSplit
  rw [Walk.process_bind]
  cases verdict g with
  | cancelled => rfl
  | failed node fault =>
    refine congrArg (Process.ask Request.stopped) (funext fun stopped => ?_)
    cases stopped <;> rfl
  | passed ended =>
    refine congrArg (Process.ask Request.stopped) (funext fun stopped => ?_)
    cases stopped <;> rfl

/-- Behind its branches a split writes nothing any more. -/
theorem closeSplit_vars (st : Setting) (n : Node) (g : Gathered) (s : Scope) :
    (closeSplit st n g).Ensures J s fun _ t => t.context.vars = (foldBranches st.joining g s).context.vars := by
  unfold Walk.Ensures
  rw [closeSplit_process]
  cases verdict g with
  | cancelled => rfl
  | failed node fault => exact fun _ => rfl
  | passed ended =>
    intro stopped
    cases stopped with
    | true => rfl
    | false =>
      show Walk.Ensures J (passJoin st (st.graph.join? n.id) ended) (foldBranches st.joining g s)
        fun _ t => t.context.vars = (foldBranches st.joining g s).context.vars
      refine (passJoin_ensures st _ ended _).mono fun r t hr => ?_
      obtain ⟨-, ht⟩ := hr
      split at ht
      · obtain ⟨e, fs, -, rfl⟩ := ht
        rfl
      · obtain ⟨fs, rfl⟩ := ht
        rfl

/-! ## Branches -/

/-- Whether the writes of the branch at a place are kept. -/
def keeps (joining : Joining) (winner : Option Nat) (i : Nat) : Bool := decide (joining = .all ∨ winner = some i)

/-- The branches whose writes are kept. -/
def Gathered.kept (joining : Joining) (g : Gathered) : List Outcome :=
  (g.outcomes.zipIdx.filter fun p => keeps joining g.winner p.2).map (·.1)

/-- The last of some branches that wrote a variable. -/
def lastWriter (key : String) (os : List Outcome) : Option Outcome :=
  os.reverse.find? fun o => decide (key ∈ o.scope.context.written)

/-- What a variable is when some branches have been merged one after another. -/
def valueAfter (key : String) (os : List Outcome) (before : Option Json) : Option Json :=
  match lastWriter key os with
  | some o => o.scope.context.get? key
  | none => before

theorem valueAfter_cons (key : String) (o : Outcome) (os : List Outcome) (before : Option Json) :
    valueAfter key (o :: os) before = valueAfter key os
      (if key ∈ o.scope.context.written then o.scope.context.get? key else before) := by
  unfold valueAfter lastWriter
  rw [List.reverse_cons, List.find?_append]
  cases List.find? (fun o => decide (key ∈ o.scope.context.written)) os.reverse with
  | some o' => rfl
  | none => by_cases e : key ∈ o.scope.context.written <;> simp [e]

theorem kept_all (g : Gathered) : g.kept .all = g.outcomes := by
  have he : g.outcomes.zipIdx.filter (fun p => keeps .all g.winner p.2) = g.outcomes.zipIdx :=
    List.filter_eq_self.mpr fun p _ => by simp [keeps]
  rw [Gathered.kept, he, List.zipIdx_map_fst]

theorem kept_winner {g : Gathered} {i : Nat} (hi : g.winner = some i) : g.kept .first = g.outcomes[i]?.toList := by
  have at_i : ∀ (os : List Outcome) (k i : Nat),
      ((os.zipIdx k).filter fun p => keeps .first (some (k + i)) p.2).map (·.1) = os[i]?.toList := by
    intro os
    induction os with
    | nil => intro k i; simp
    | cons o os ih =>
      intro k i
      rw [List.zipIdx_cons]
      cases i with
      | zero =>
        have none_behind : (os.zipIdx (k + 1)).filter (fun p => keeps .first (some (k + 0)) p.2) = [] := by
          refine List.filter_eq_nil_iff.mpr fun p hp => ?_
          have := List.le_snd_of_mem_zipIdx hp
          simp only [keeps, reduceCtorEq, false_or, Option.some.injEq, decide_eq_true_eq]
          omega
        rw [List.filter_cons_of_pos (by simp [keeps]), none_behind]
        rfl
      | succ i =>
        rw [List.filter_cons_of_neg (by simp [keeps]), show k + (i + 1) = k + 1 + i by omega, ih]
        rfl
  rw [Gathered.kept, hi]
  simpa only [Nat.zero_add] using at_i g.outcomes 0 i

theorem kept_nobody {g : Gathered} (hw : g.winner = none) : g.kept .first = [] := by
  simp [Gathered.kept, keeps, hw]

/-- A variable has the value of the last branch that wrote it, of those whose writes are
    kept. -/
theorem lookup_foldBranches (joining : Joining) (g : Gathered) (h : ∀ o ∈ g.outcomes, o.scope.context.Bound)
    (s : Scope) (key : String) :
    (foldBranches joining g s).context.get? key = valueAfter key (g.kept joining) (s.context.get? key) := by
  have fold : ∀ (ps : List (Outcome × Nat)), (∀ p ∈ ps, p.1.scope.context.Bound) → ∀ s : Scope,
      (ps.foldl (fun s p => foldBranch joining g.winner s p.1 p.2) s).context.get? key =
        valueAfter key ((ps.filter fun p => keeps joining g.winner p.2).map (·.1)) (s.context.get? key) := by
    intro ps
    induction ps with
    | nil => exact fun _ _ => rfl
    | cons p ps ih =>
      intro hp s
      rw [List.foldl_cons, ih fun q hq => hp q (List.mem_cons_of_mem _ hq)]
      by_cases e : joining = .all ∨ g.winner = some p.2
      · have hm : (foldBranch joining g.winner s p.1 p.2).context.get? key =
            if key ∈ p.1.scope.context.written then p.1.scope.context.get? key else s.context.get? key := by
          rw [foldBranch, if_pos e]
          exact Context.lookup_merge (hp p List.mem_cons_self) _ _
        rw [hm, ← valueAfter_cons, List.filter_cons_of_pos (by simpa [keeps] using e), List.map_cons]
      · have hm : (foldBranch joining g.winner s p.1 p.2).context.get? key = s.context.get? key := by
          rw [foldBranch, if_neg e]
          rfl
        rw [hm, List.filter_cons_of_neg (by simpa [keeps] using e)]
  exact fold _ (fun p hp => h _ (List.fst_mem_of_mem_zipIdx hp)) s

/-- The steps of all branches stand behind one another. -/
theorem history_foldBranches (joining : Joining) (g : Gathered) (s : Scope) :
    (foldBranches joining g s).context.history =
      s.context.history ++ g.outcomes.flatMap fun o => o.scope.context.history := by
  have fold : ∀ (os : List Outcome) (k : Nat) (s : Scope),
      ((os.zipIdx k).foldl (fun s p => foldBranch joining g.winner s p.1 p.2) s).context.history =
        s.context.history ++ os.flatMap fun o => o.scope.context.history := by
    intro os
    induction os with
    | nil => intro k s; simp
    | cons o os ih =>
      intro k s
      have hm : (foldBranch joining g.winner s o k).context.history =
          s.context.history ++ o.scope.context.history := by
        unfold foldBranch
        split
        · exact Context.history_merge _ _
        · rfl
      rw [List.zipIdx_cons, List.foldl_cons, ih, hm, List.flatMap_cons, List.append_assoc]
  exact fold _ 0 s

/-- So does all else that they recorded. -/
theorem trace_foldBranches (joining : Joining) (g : Gathered) (s : Scope) :
    (foldBranches joining g s).trace = g.outcomes.foldl (fun t o => t.absorb o.scope.trace) s.trace := by
  have fold : ∀ (os : List Outcome) (k : Nat) (s : Scope),
      ((os.zipIdx k).foldl (fun s p => foldBranch joining g.winner s p.1 p.2) s).trace =
        os.foldl (fun t o => t.absorb o.scope.trace) s.trace := by
    intro os
    induction os with
    | nil => exact fun _ _ => rfl
    | cons o os ih =>
      intro k s
      rw [List.zipIdx_cons, List.foldl_cons, ih, List.foldl_cons]
      congr 1
      unfold foldBranch
      split <;> rfl
  exact fold _ 0 s

theorem path_absorbed (os : List Outcome) (t : Trace) :
    (os.foldl (fun t o => t.absorb o.scope.trace) t).path = t.path ++ os.flatMap fun o => o.scope.trace.path := by
  induction os generalizing t with
  | nil => simp
  | cons o os ih => rw [List.foldl_cons, ih, List.flatMap_cons, ← List.append_assoc]; rfl

theorem conditionFailures_absorbed (os : List Outcome) (t : Trace) :
    (os.foldl (fun t o => t.absorb o.scope.trace) t).conditionFailures =
      t.conditionFailures ++ os.flatMap fun o => o.scope.trace.conditionFailures := by
  induction os generalizing t with
  | nil => simp
  | cons o os ih => rw [List.foldl_cons, ih, List.flatMap_cons, ← List.append_assoc]; rfl

theorem counters_absorbed (os : List Outcome) (t : Trace) :
    (os.foldl (fun t o => t.absorb o.scope.trace) t).counters =
      os.foldl (fun c o => c + o.scope.trace.counters) t.counters := by
  induction os generalizing t with
  | nil => rfl
  | cons o os ih => exact ih _

/-- All that a split leaves in the records: its step, what its branches recorded in the order of
    their declaration, and the step of the join if there is one. -/
structure SplitRecords (node : String) (before : Scope) (outcomes : List Outcome) (join : Option Step) (after : Scope) :
    Prop where
  steps : ∃ opening : Step, opening.Passes node ∧ after.context.history =
    before.context.history ++ opening :: ((outcomes.flatMap fun o => o.scope.context.history) ++ join.toList)
  path : after.trace.path =
    before.trace.path ++ node :: ((outcomes.flatMap fun o => o.scope.trace.path) ++ join.toList.map (·.node))
  counters : after.trace.counters =
    join.toList.foldl (fun c _ => c + .ofStep .completed 0)
      (outcomes.foldl (fun c o => c + o.scope.trace.counters) (before.trace.counters + .ofStep .completed 0))
  conditionFailures : ∃ opening closing, after.trace.conditionFailures = before.trace.conditionFailures ++ opening ++
    (outcomes.flatMap fun o => o.scope.trace.conditionFailures) ++ closing

variable {node : String} {before : Scope} {joining : Joining} {g : Gathered} {opening : Step}

/-- A split that goes on without passing a join. -/
theorem SplitRecords.folded (ho : opening.Passes node) (fs gs : List ConditionFailure) :
    SplitRecords node before g.outcomes none ((foldBranches joining g (before.record opening fs)).noting gs) where
  steps := ⟨opening, ho, by simp [history_foldBranches, Scope.record, Context.push]⟩
  path := by simp [Scope.noting, trace_foldBranches, path_absorbed, Scope.record, ho.node]
  counters := by simp [Scope.noting, trace_foldBranches, counters_absorbed, Scope.record, ho.status, ho.retryCount]
  conditionFailures := ⟨fs, gs, by
    simp [Scope.noting, trace_foldBranches, conditionFailures_absorbed, Scope.record]⟩

/-- A split that passes its join. -/
theorem SplitRecords.joined {id : String} {closing : Step} (ho : opening.Passes node) (hc : closing.Passes id)
    (fs gs : List ConditionFailure) :
    SplitRecords node before g.outcomes (some closing)
      ((foldBranches joining g (before.record opening fs)).record closing gs) where
  steps := ⟨opening, ho, by simp [history_foldBranches, Scope.record, Context.push]⟩
  path := by simp [trace_foldBranches, path_absorbed, Scope.record, ho.node]
  counters := by
    simp [trace_foldBranches, counters_absorbed, Scope.record, ho.status, ho.retryCount, hc.status, hc.retryCount]
  conditionFailures := ⟨fs, gs, by
    simp [trace_foldBranches, conditionFailures_absorbed, Scope.record]⟩

end Execution

end Capability
