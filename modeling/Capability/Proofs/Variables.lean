/-
  Capability.Proofs.Variables — which variables a run can write, and what it writes into them.

  Answers are bound to the results and the outputs that the graph declares, and loops number their
  passes. All other variables are what they were at the beginning, in every scope that a strand
  leaves behind, whether its branch is merged, absorbed or broken off; what a trigger was looked at
  under is bound to nothing.

  (1) `Written`: what can be written into a variable, and where it comes from.
  (2) `Carries.merge`: a branch that wrote nothing else does not add anything else.
  (3) `segment_carries`: a segment writes nothing else, and neither do the branches inside it.
  (4) `runs_write_declared_variables`: so it is with every run of a valid graph.
-/

import Capability.Proofs.Bindings

namespace Capability.Execution

/-! ## Variables of a graph -/

/-- The variables that the visit of a node writes. -/
def Setting.variablesOf (s : Setting) (n : Node) : List String :=
  match n.kind with
  | .skill | .confirm | .select | .input => resultVariable n :: outputVariables n
  | .loopStart => [s.config.iterationVariable, n.id ++ "_iteration"]
  | .start | .finish | .branch | .merge | .loopEnd | .split | .join => []

/-- The variables that a graph declares. -/
def Setting.variables (s : Setting) : List String := s.graph.nodes.flatMap s.variablesOf

/-- A value can be written into a variable: it is what an answer to a node is bound to, or the
    number of a pass that a loop may make. -/
inductive Written (s : Setting) (R : Replies) (key : String) (value : Json) : Prop
  | answer {n : Node} {v : Json} : n ∈ s.graph.nodes → Gave R n v → (key, value) ∈ bindings n v → Written s R key value
  | pass {n : Node} {i : Nat} : n ∈ s.graph.nodes → n.kind = .loopStart → i < n.iterationBound →
      key = s.config.iterationVariable ∨ key = n.id ++ "_iteration" → value = .ofNat i → Written s R key value

/-- Every variable of a context is as it was in another one, or what it holds was written. -/
def Carries (s : Setting) (R : Replies) (c d : Context) : Prop :=
  ∀ key, d.get? key = c.get? key ∨ ∃ value, d.get? key = some value ∧ Written s R key value

section Contexts

variable {s : Setting} {R : Replies} {c d branch : Context} {n : Node} {key : String} {value : Json}

theorem Gave.variablesOf (h : Gave R n value) : s.variablesOf n = resultVariable n :: outputVariables n := by
  obtain ⟨k, l, -, ⟨i, hk, -⟩ | ⟨kind, vars, hk, -⟩⟩ := h
  · simp only [Setting.variablesOf, hk]
  · unfold InteractionKind.ofNode? at hk
    split at hk
    · next h => simp only [Setting.variablesOf, h]
    · next h => simp only [Setting.variablesOf, h]
    · next h => simp only [Setting.variablesOf, h]
    · cases hk

/-- Nothing but the declared variables can be written. -/
theorem Written.declared (h : Written s R key value) : key ∈ s.variables := by
  refine List.mem_flatMap.mpr ?_
  cases h with
  | answer hn gave hb =>
    refine ⟨_, hn, ?_⟩
    rw [gave.variablesOf, ← keys_bindings]
    exact List.mem_map.mpr ⟨_, hb, rfl⟩
  | pass hn hk _ hkey _ =>
    refine ⟨_, hn, ?_⟩
    simp only [Setting.variablesOf, hk]
    rcases hkey with rfl | rfl
    · exact .head _
    · exact .tail _ (.head _)

theorem Carries.refl (s : Setting) (R : Replies) (c : Context) : Carries s R c c := fun _ => .inl rfl

/-- Only the variables matter. -/
theorem Carries.congr {d' : Context} (h : Carries s R c d) (hv : d'.vars = d.vars) : Carries s R c d' := by
  intro key
  have same : d'.get? key = d.get? key := congrArg (Keyed.lookup key) hv
  rw [same]
  exact h key

theorem Carries.set (h : Carries s R c d) (hw : Written s R key value) : Carries s R c (d.set key value) := by
  intro key'
  rw [Context.lookup_set]
  by_cases e : key' = key
  · subst e
    exact .inr ⟨value, if_pos rfl, hw⟩
  · rw [if_neg e]
    exact h key'

theorem Carries.apply (h : Carries s R c d) {updates : Keyed Json} (hw : ∀ p ∈ updates, Written s R p.1 p.2) :
    Carries s R c (d.apply updates) := by
  induction updates generalizing d with
  | nil => exact h
  | cons p updates ih => exact ih (h.set (hw p (.head _))) fun q hq => hw q (.tail _ hq)

theorem Carries.carry (h : Carries s R c d) (hb : Carries s R c branch) (key : String) :
    Carries s R c (branch.carry d key) := by
  intro key'
  rw [Context.lookup_carry]
  by_cases e : key' = key
  · subst e
    rw [if_pos rfl]
    cases hv : branch.get? key' with
    | none => exact h key'
    | some value =>
      rcases hb key' with same | ⟨value', hv', hw⟩
      · exact .inl (hv.symm.trans same)
      · rw [hv] at hv'
        cases hv'
        exact .inr ⟨value, rfl, hw⟩
  · rw [if_neg e]
    exact h key'

/-- Merging a branch adds nothing that was not written. -/
theorem Carries.merge (h : Carries s R c d) (hb : Carries s R c branch) : Carries s R c (d.merge branch) := by
  have fold : ∀ (keys : List String) (d : Context), Carries s R c d → Carries s R c (keys.foldl branch.carry d) := by
    intro keys
    induction keys with
    | nil => exact fun _ h => h
    | cons key keys ih => exact fun d h => ih _ (h.carry hb key)
  exact fold branch.written d h

end Contexts

/-! ## Walks -/

/-- What a branch ended with carries nothing but what was written. -/
def Outcome.Carries (s : Setting) (R : Replies) (c : Context) (o : Outcome) : Prop :=
  Execution.Carries s R c o.scope.context

/-- From a scope that carries nothing else, the walk writes nothing else. -/
def Walk.Carries (s : Setting) (R : Replies) (c : Context) {α : Type} (w : Walk α) : Prop :=
  ∀ u : Scope, Execution.Carries s R c u.context →
    w.Secures R (Outcome.Carries s R c) u fun _ u' => Execution.Carries s R c u'.context

section Walks

variable {α β : Type} {s : Setting} {R : Replies} {c : Context} {n : Node}

namespace Walk

theorem Finds.carries {w : Walk α} {P : α → Prop} (h : w.Finds R P) : w.Carries s R c :=
  fun _ hu => h.secures fun _ _ _ => hu

theorem Notes.carries {w : Walk α} (h : w.Notes) : w.Carries s R c := h.finds.carries

theorem Carries.bind {w : Walk α} (h : w.Carries s R c) {f : α → Walk β} (hf : ∀ a, (f a).Carries s R c) :
    (w >>= f).Carries s R c := by
  intro u hu
  refine secures_bind.mpr ((h u hu).mono fun r u' hu' => ?_)
  cases r with
  | error => exact hu'
  | ok a => exact hf a u' hu'

theorem Carries.throw (h : Halt) : (throw h : Walk α).Carries s R c := fun _ hu => hu

theorem Carries.ite {p : Prop} [Decidable p] {w w' : Walk α} (h : w.Carries s R c) (h' : w'.Carries s R c) :
    (if p then w else w').Carries s R c := by
  split
  · exact h
  · exact h'

theorem checkpoint_carries : checkpoint.Carries s R c := fun _ hu => checkpoint_secures hu hu

theorem beginStep_carries (n : Node) : (beginStep n).Carries s R c := fun _ hu => secures_beginStep.mpr hu

theorem finishStep_carries (n : Node) (step : OpenStep) (status : StepStatus) (report : StepReport) :
    (finishStep n step status report).Carries s R c := fun _ hu => secures_finishStep.mpr hu

theorem failStep_carries (n : Node) (step : OpenStep) (report : StepReport) (fault : Fault) :
    (failStep n step report fault : Walk α).Carries s R c := fun _ hu => secures_failStep.mpr hu

theorem passThrough_carries (n : Node) : (passThrough n).Carries s R c :=
  (beginStep_carries n).bind fun _ => finishStep_carries _ _ _ _

end Walk

/-! ## Visits -/

/-- What a visit of a skill or a question binds was written. -/
theorem Binds.carries {u u' : Scope} (h : Binds R u n u') (hn : n ∈ s.graph.nodes) (hu : Carries s R c u.context) :
    Carries s R c u'.context := by
  rcases h with kept | ⟨value, gave, completed⟩
  · exact hu.congr kept.vars
  · have bound : Carries s R c (u.context.apply (bindings n value)) := hu.apply fun p hp => .answer hn gave hp
    exact bound.congr completed.vars

theorem visitMarker_carries (n : Node) : (visitMarker s n).Carries s R c :=
  (Walk.passThrough_carries n).bind fun _ => (advance_notes s n.id).carries

theorem visitBranch_carries (n : Node) : (visitBranch n).Carries s R c := by
  refine (Walk.beginStep_carries n).bind fun step => ?_
  split
  · exact Walk.failStep_carries _ _ _ _
  · exact (Walk.firstWhere_notes (fun _ => Walk.holds_notes _ _) _).carries.bind fun _ =>
      (Walk.finishStep_carries _ _ _ _).bind fun _ => (Walk.Notes.pure _).carries

/-- How the segments inside a node walk does not matter as long as they write nothing else. -/
def Inner.Carries (s : Setting) (R : Replies) (c : Context) (inner : Inner) : Prop :=
  ∀ boundaries start, (inner boundaries start).Carries s R c

theorem passNode_carries (id : String) : (passNode s id).Carries s R c := by
  unfold passNode
  split
  · exact Walk.passThrough_carries _
  · exact (Walk.Notes.pure _).carries

theorem closePass_carries (e : Edge) : (closePass s e).Carries s R c :=
  Walk.checkpoint_carries.bind fun _ => (passNode_carries _).bind fun _ => (exits_notes _ e).carries

/-- The number of a pass is written by a loop that may make it. -/
theorem numberPass_carries (hn : n ∈ s.graph.nodes) (hk : n.kind = .loopStart) {i : Nat} (hi : i < n.iterationBound) :
    (numberPass s n i).Carries s R c :=
  fun _ hu => (hu.set (.pass hn hk hi (.inl rfl) rfl)).set (.pass hn hk hi (.inr rfl) rfl)

theorem passBound_le (n : Node) (e : Edge) : passBound n e ≤ n.iterationBound := by
  unfold passBound
  split
  · exact Nat.min_le_right _ _
  · exact Nat.le_refl _

section Nested

variable {inner : Inner}

theorem passes_carries (hi : inner.Carries s R c) (hn : n ∈ s.graph.nodes) (hk : n.kind = .loopStart) (e : Edge)
    {left i : Nat} (hle : i + left ≤ n.iterationBound) : (passes s inner n e left i).Carries s R c := by
  induction left generalizing i with
  | zero => exact (Walk.Notes.pure _).carries
  | succ left ih =>
    have next : (passes s inner n e left (i + 1)).Carries s R c := ih (by omega)
    unfold passes
    refine Walk.checkpoint_carries.bind fun _ => (numberPass_carries hn hk (by omega)).bind fun _ =>
      (successor_notes s n.id).carries.bind fun body => ?_
    cases body with
    | none => exact (Walk.Notes.pure _).carries
    | some body =>
      refine (hi _ body).bind fun flow => ?_
      cases flow with
      | ended => exact (Walk.Notes.pure _).carries
      | deadEnd => exact next
      | boundary id =>
        refine .ite ((closePass_carries e).bind fun out => ?_) next
        cases out with
        | true => exact (Walk.Notes.pure _).carries
        | false => exact next

theorem visitLoop_carries (hi : inner.Carries s R c) (hn : n ∈ s.graph.nodes) (hk : n.kind = .loopStart) :
    (visitLoop s inner n).Carries s R c := by
  refine (Walk.beginStep_carries n).bind fun step => ?_
  split
  · exact Walk.failStep_carries _ _ _ _
  · next e _ =>
    have bound : 0 + passBound n e ≤ n.iterationBound := by
      rw [Nat.zero_add]
      exact passBound_le n e
    refine (Walk.finishStep_carries _ _ _ _).bind fun _ => (passes_carries hi hn hk e bound).bind fun ended => ?_
    exact .ite (Walk.Notes.pure _).carries (advance_notes s e.source).carries

theorem openSplit_carries (n : Node) : (openSplit s n).Carries s R c :=
  (Walk.beginStep_carries n).bind fun _ => (Walk.keepWhere_notes (opensBranch_notes n) _).carries.bind fun _ =>
    (Walk.finishStep_carries _ _ _ _).bind fun _ => (Walk.Notes.pure _).carries

/-- Whether a branch is kept or its writes are dropped, folding it back adds nothing else. -/
theorem foldBranches_carries (joining : Joining) {g : Gathered} (ho : ∀ o ∈ g.outcomes, o.Carries s R c) {u : Scope}
    (hu : Carries s R c u.context) : Carries s R c (foldBranches joining g u).context := by
  have fold : ∀ (os : List (Outcome × Nat)) (u : Scope), (∀ p ∈ os, p.1.Carries s R c) → Carries s R c u.context →
      Carries s R c (os.foldl (fun u p => foldBranch joining g.winner u p.1 p.2) u).context := by
    intro os
    induction os with
    | nil => exact fun _ _ hu => hu
    | cons p os ih =>
      intro u hos hu
      refine ih _ (fun q hq => hos q (.tail _ hq)) ?_
      show Carries s R c (foldBranch joining g.winner u p.1 p.2).context
      unfold foldBranch
      split
      · exact hu.merge (hos p (.head _))
      · exact hu
  exact fold _ u (fun p hp => ho _ (List.fst_mem_of_mem_zipIdx hp)) hu

theorem passJoin_carries (join : Option String) (ended : Bool) : (passJoin s join ended).Carries s R c := by
  unfold passJoin
  split
  · exact (passNode_carries _).bind fun _ => (advance_notes s _).carries
  · exact (Walk.Notes.pure _).carries

theorem closeSplit_carries (n : Node) {g : Gathered} (ho : ∀ o ∈ g.outcomes, o.Carries s R c) :
    (closeSplit s n g).Carries s R c := by
  intro u hu
  have folded := foldBranches_carries s.joining ho hu
  unfold closeSplit
  simp only [Walk.secures_bind, Walk.secures_modify]
  split
  · exact folded
  · exact (Walk.checkpoint_carries.bind fun _ => .throw _) _ folded
  · exact (Walk.checkpoint_carries.bind fun _ => passJoin_carries _ _) _ folded

/-- A fork begins with the variables of its scope. -/
theorem visitSplit_carries (hi : inner.Carries s R c) (n : Node) : (visitSplit s inner n).Carries s R c := by
  refine (openSplit_carries n).bind fun starts u hu => ?_
  simp only [Walk.secures_bind, Walk.secures_get]
  refine Walk.secures_split (fun b hb => ?_) fun os winner _ ho => closeSplit_carries n (g := ⟨os, winner⟩) ho u hu
  obtain ⟨start, -, rfl⟩ := List.mem_map.mp hb
  exact hi _ start u.fork hu

theorem visit_carries (hi : inner.Carries s R c) (hn : n ∈ s.graph.nodes) : (visit s inner n).Carries s R c := by
  by_cases hk : n.kind = .skill ∨ n.kind.isInteraction = true
  · exact fun u hu => (visit_binds inner hk).mono fun _ _ binds => binds.carries hn hu
  · unfold visit
    split
    · exact (Walk.passThrough_carries n).bind fun _ => (Walk.Notes.pure _).carries
    · exact visitMarker_carries n
    · exact visitMarker_carries n
    · exact visitMarker_carries n
    · exact visitMarker_carries n
    · exact visitBranch_carries n
    · next hloop => exact visitLoop_carries hi hn hloop
    · exact visitSplit_carries hi n
    · next h => exact absurd (.inl h) hk
    · next h => exact absurd (.inr (by rw [h]; rfl)) hk
    · next h => exact absurd (.inr (by rw [h]; rfl)) hk
    · next h => exact absurd (.inr (by rw [h]; rfl)) hk

end Nested

/-! ## Segments and runs -/

/-- A segment writes nothing but what the graph declares, and neither do its branches. -/
theorem segment_carries (budget : Nat) : (segment s budget).Carries s R c := by
  induction budget with
  | zero =>
    intro boundaries id
    unfold segment
    exact .ite (Walk.Notes.pure _).carries (Walk.checkpoint_carries.bind fun _ =>
      (Walk.Notes.request .visit).carries.bind fun _ => .throw _)
  | succ budget ih =>
    intro boundaries id
    unfold segment
    refine .ite (Walk.Notes.pure _).carries (Walk.checkpoint_carries.bind fun _ =>
      (Walk.Notes.request .visit).carries.bind fun allowed => ?_)
    cases allowed with
    | false => exact .throw _
    | true =>
      rw [if_pos rfl]
      split
      · exact .throw _
      · next n hn =>
        refine (visit_carries ih (Graph.mem_of_node? hn)).bind fun next => ?_
        cases next with
        | node id' => exact ih _ id'
        | stop flow => exact (Walk.Notes.pure _).carries

theorem runFrom_carries (s : Setting) (R : Replies) (start : String) (c : Context) :
    (runFrom s start c).Secures R (Outcome.Carries s R c) (Outcome.Carries s R c) := by
  refine Process.secures_bind.mpr fun _ _ => Process.secures_bind.mpr (Process.secures_bind.mpr ?_)
  exact Process.Secures.mono (segment_carries _ [] start { context := c } (.refl s R c)) fun _ h _ _ => h

end Walks

/-- Variables that are those of an initial context but for what was written. -/
structure Framed (s : Setting) (R : Replies) (c : Context) (vars : Keyed Json) : Prop where
  /-- A variable that the graph does not declare is bound just when it was, to the same value. -/
  kept : ∀ key ∉ s.variables, vars.lookup key = c.vars.lookup key
  /-- No variable is removed. -/
  bound : ∀ key, (c.vars.lookup key).isSome → (vars.lookup key).isSome
  origin : ∀ key value, vars.lookup key = some value → c.vars.lookup key = some value ∨ Written s R key value

theorem Carries.framed {s : Setting} {R : Replies} {c d : Context} (h : Carries s R c d) : Framed s R c d.vars where
  kept key hk := by
    rcases h key with same | ⟨value, -, hw⟩
    · exact same
    · exact absurd hw.declared hk
  bound key hb := by
    rcases h key with same | ⟨value, hv, -⟩
    · have kept : d.vars.lookup key = c.vars.lookup key := same
      rw [kept]
      exact hb
    · exact Option.isSome_iff_exists.mpr ⟨value, hv⟩
  origin key value hv := by
    rcases h key with same | ⟨value', hv', hw⟩
    · exact .inl (same.symm.trans hv)
    · obtain rfl : value' = value := Option.some.inj (hv'.symm.trans hv)
      exact .inr hw

/-- The run of a valid graph begins, and whoever answers whatever, at every moment: the variables of
    every strand that has ended, also of a branch that lost or was broken off, are those of the
    initial context but for what was written. So are the outputs of the result. What the triggers of
    a failure are looked at under is no exception: it is bound to none of its variables unless an
    answer or a pass is bound to a variable of that name. -/
theorem runs_write_declared_variables {s : Setting} (hv : s.graph.validate.isValid = true) (c : Context) :
    ∃ p, run s c = .ok p ∧ ∀ {w w' acts t}, Course s.config.maxVisits false (.at p) w acts t w' →
      (∀ o, t.Ended o → Framed s (given acts) c o.scope.context.vars) ∧
      ∀ o elapsedMs, t = .finished o → Framed s (given acts) c (o.result s.graph elapsedMs).outputs := by
  obtain ⟨start, -, hrun⟩ := run_of_isValid hv c
  refine ⟨_, hrun, ?_⟩
  intro w w' acts t h
  have secured := h.secures (given_keeps acts) (runFrom_carries s (given acts) start c)
  have ended : ∀ o, t.Ended o → Framed s (given acts) c o.scope.context.vars := by
    intro o ho
    rcases secured.ended ho with carries | carries
    · exact Carries.framed carries
    · exact Carries.framed carries
  refine ⟨ended, ?_⟩
  rintro o elapsedMs rfl
  exact ended o .here

/-- The rescue comes only if the risky node failed by itself. -/
def rescued : Setting :=
  { guarded with graph.edges := guarded.graph.edges.map fun e =>
      if e.kind = .fallback then { e with trigger := some "error_kind == 'node_execution'" } else e }

/-- What the trigger of the rescue is looked at under is gone once it has been followed. -/
theorem a_trigger_leaves_no_variables : rescued.graph.validate.isValid = true ∧
    ∃ r : Rehearsal.Report, Rehearsal.rehearse rescued { vars := [("tide", .str "low")] } (failing ["drill"]) none = .ok r ∧
      r.result.path = ["start", "risky", "rescue", "end"] ∧ r.result.outputs.lookup "tide" = some (.str "low") ∧
      (∀ key ∈ ["error", "error_kind", "failed_node"], r.result.outputs.lookup key = none) ∧
      ∀ key ∈ r.result.outputs.keys, key = "tide" ∨ key ∈ rescued.variables := by
  have valid : rescued.graph.validate.isValid = true := by decide +kernel
  have shown : (Rehearsal.rehearse rescued { vars := [("tide", .str "low")] } (failing ["drill"]) none).toOption.map
      (·.result.path) = some ["start", "risky", "rescue", "end"] := by
    decide +kernel
  obtain ⟨r, hr, path⟩ := Option.map_eq_some_iff.mp shown
  obtain ⟨p, acts, o, w', elapsedMs, hp, hc, he⟩ := rehearse_course (ok_of_toOption hr)
  obtain ⟨q, hq, framed⟩ := runs_write_declared_variables valid { vars := [("tide", .str "low")] }
  obtain rfl : p = q := Except.ok.inj (hp.symm.trans hq)
  have outputs := (framed hc).2 o elapsedMs rfl
  rw [← he] at outputs
  refine ⟨valid, r, ok_of_toOption hr, path, ?_, ?_, ?_⟩
  · exact outputs.kept "tide" (by decide +kernel)
  · have undeclared : ∀ key ∈ ["error", "error_kind", "failed_node"], key ∉ rescued.variables ∧ key ≠ "tide" := by
      decide +kernel
    intro key hk
    obtain ⟨hd, ht⟩ := undeclared key hk
    rw [outputs.kept key hd]
    exact if_neg ht.symm
  · intro key hk
    by_contra hout
    obtain ⟨ht, hd⟩ := not_or.mp hout
    rw [Keyed.mem_keys_iff, outputs.kept key hd] at hk
    simp [Keyed.lookup, Ne.symm ht] at hk

end Capability.Execution
