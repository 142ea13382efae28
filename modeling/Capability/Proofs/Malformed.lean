/-
  Capability.Proofs.Malformed — what becomes of conditions that do not parse.

  The check of a graph warns of every condition in it that does not parse. A run looks at conditions
  in six places, and wherever it comes upon such a one it reports and records it and goes on as if
  it was false. There is one exception: an edge whose condition is nothing but white space is warned
  of as well, but for a run it is an edge without a condition.

  (1) `syntax_warning_iff`: the warnings are those of the conditions that are written and do not parse.
  (2) `Consults.flagged_iff`: what a run may look at is warned of exactly if it does not parse.
  (3) `counts_as_false`: what does not parse counts as false in all six places.
  (4) `lint_and_runs_agree_on_malformed_conditions`: so the warnings foretell which failures are
      possible that are not due to the variables.
-/

import Capability.Proofs.Blanks
import Capability.Proofs.Reports
import Capability.Proofs.Termination

namespace Capability

/-! ## Warnings -/

namespace Lint

/-- Where a condition is written. -/
inductive Place where
  | node (id : String)
  | edge (source target : String)

/-- The warning of a condition that does not parse. -/
def Place.warning (p : Place) (c : String) (e : Condition.Error) : Diagnostic where
  rule := "condition_syntax"
  severity := .warning
  message := (Fault.condition c e.message).message
  node := match p with
    | .node id => some id
    | .edge _ _ => none
  edge := match p with
    | .node _ => none
    | .edge source target => some (source, target)

/-- The conditions of a graph: those of its nodes, of their implementations but for the word that
    always holds, and those of its edges. -/
inductive Written (g : Graph) : Place → String → Prop
  | choice {n : Node} {b : BranchCondition} : n ∈ g.nodes → b ∈ n.conditions → Written g (.node n.id) b.expression
  | implementation {n : Node} {i : Implementation} {c : String} : n ∈ g.nodes → i ∈ n.implementations → c ∈ i.conditions →
      Lint.isDefault c = false → Written g (.node n.id) c
  | condition {e : Edge} {c : String} : e ∈ g.edges → e.condition = some c → Written g (.edge e.source e.target) c
  | exit {e : Edge} {c : String} : e ∈ g.edges → e.exitCondition = some c → Written g (.edge e.source e.target) c
  | trigger {e : Edge} {c : String} : e ∈ g.edges → e.trigger = some c → Written g (.edge e.source e.target) c

variable {g : Graph} {d : Diagnostic} {c : String}

theorem malformed_eq_some_iff {d : Diagnostic} : malformed c = some d ↔ ∃ e, Condition.parse c = .error e ∧
    d = { rule := "condition_syntax", severity := .warning, message := (Fault.condition c e.message).message } := by
  unfold malformed
  cases Condition.parse c with
  | ok x => simp
  | error e => simp [eq_comm]

theorem mem_nodeConditions {n : Node} : c ∈ nodeConditions n ↔ (∃ b ∈ n.conditions, b.expression = c) ∨
    ∃ i ∈ n.implementations, c ∈ i.conditions ∧ isDefault c = false := by
  simp [nodeConditions]

theorem mem_edgeConditions {e : Edge} : c ∈ edgeConditions e ↔
    e.condition = some c ∨ e.exitCondition = some c ∨ e.trigger = some c := by
  simp [edgeConditions]

/-- Conditions are written at nodes and at edges. -/
theorem written_iff {p : Place} : Written g p c ↔ (∃ n ∈ g.nodes, p = .node n.id ∧ c ∈ nodeConditions n) ∨
    ∃ e ∈ g.edges, p = .edge e.source e.target ∧ c ∈ edgeConditions e := by
  simp only [mem_nodeConditions, mem_edgeConditions]
  constructor
  · intro h
    cases h with
    | choice hn hb => exact .inl ⟨_, hn, rfl, .inl ⟨_, hb, rfl⟩⟩
    | implementation hn hi hc hd => exact .inl ⟨_, hn, rfl, .inr ⟨_, hi, hc, hd⟩⟩
    | condition he hc => exact .inr ⟨_, he, rfl, .inl hc⟩
    | exit he hc => exact .inr ⟨_, he, rfl, .inr (.inl hc)⟩
    | trigger he hc => exact .inr ⟨_, he, rfl, .inr (.inr hc)⟩
  · rintro (⟨n, hn, rfl, ⟨b, hb, rfl⟩ | ⟨i, hi, hc, hd⟩⟩ | ⟨e, he, rfl, hc | hc | hc⟩)
    · exact .choice hn hb
    · exact .implementation hn hi hc hd
    · exact .condition he hc
    · exact .exit he hc
    · exact .trigger he hc

theorem mem_conditionSyntax_iff : d ∈ conditionSyntax g ↔
    ∃ p c e, Written g p c ∧ Condition.parse c = .error e ∧ d = p.warning c e := by
  simp only [conditionSyntax, List.mem_append, List.mem_flatMap, List.mem_filterMap, Option.map_eq_some_iff,
    malformed_eq_some_iff, written_iff]
  constructor
  · rintro (⟨n, hn, c, hc, _, ⟨e, he, rfl⟩, rfl⟩ | ⟨x, hx, c, hc, _, ⟨e, he, rfl⟩, rfl⟩)
    · exact ⟨_, c, e, .inl ⟨n, hn, rfl, hc⟩, he, rfl⟩
    · exact ⟨_, c, e, .inr ⟨x, hx, rfl, hc⟩, he, rfl⟩
  · rintro ⟨p, c, e, ⟨n, hn, rfl, hc⟩ | ⟨x, hx, rfl, hc⟩, he, rfl⟩
    · exact .inl ⟨n, hn, c, hc, _, ⟨e, he, rfl⟩, rfl⟩
    · exact .inr ⟨x, hx, c, hc, _, ⟨e, he, rfl⟩, rfl⟩

theorem rule_of_mem_map {α : Type} {l : List α} {report : α → Diagnostic} (h : d ∈ l.map report) {name : String}
    (hr : ∀ a, (report a).rule = name) : d.rule = name := by
  obtain ⟨a, -, rfl⟩ := List.mem_map.mp h
  exact hr a

/-- No other rule goes by the name of the one about conditions. -/
theorem rule_eq_conditionSyntax {rule : Graph → List Diagnostic} (hr : rule ∈ rules) (h : d ∈ rule g)
    (hd : d.rule = "condition_syntax") : rule = conditionSyntax := by
  have named {rule : Graph → List Diagnostic} (name : String) (hn : ∀ d ∈ rule g, d.rule = name) (h : d ∈ rule g) :
      name = "condition_syntax" :=
    (hn d h).symm.trans hd
  simp only [rules, List.mem_cons, List.not_mem_nil, or_false] at hr
  obtain rfl | rfl | rfl | rfl | rfl | rfl | rfl | rfl | rfl | rfl | rfl | rfl | rfl := hr
  case inr.inr.inr.inr.inr.inr.inr.inr.inr.inl => rfl
  all_goals exfalso
  · refine absurd (named "start_node" (fun d hd => ?_) h) (by decide)
    unfold startNode at hd
    split at hd
    · rw [List.mem_singleton.mp hd]
    · cases hd
    · rw [List.mem_singleton.mp hd]
  · refine absurd (named "end_node" (fun d hd => ?_) h) (by decide)
    unfold endNode at hd
    split at hd
    · rw [List.mem_singleton.mp hd]
    · cases hd
  · refine absurd (named "edge_endpoints" (fun d hd => ?_) h) (by decide)
    obtain ⟨e, -, hd⟩ := List.mem_flatMap.mp hd
    exact rule_of_mem_map hd fun _ => rfl
  · exact absurd (named "branch_conditions" (fun _ hd => rule_of_mem_map hd fun _ => rfl) h) (by decide)
  · exact absurd (named "skill_id" (fun _ hd => rule_of_mem_map hd fun _ => rfl) h) (by decide)
  · exact absurd (named "duplicate_id" (fun _ hd => rule_of_mem_map hd fun _ => rfl) h) (by decide)
  · refine absurd (named "branch_target" (fun d hd => ?_) h) (by decide)
    obtain ⟨n, -, hd⟩ := List.mem_flatMap.mp hd
    exact rule_of_mem_map hd fun _ => rfl
  · refine absurd (named "reachability" (fun d hd => ?_) h) (by decide)
    unfold reachability at hd
    split at hd
    · cases hd
    · exact rule_of_mem_map hd fun _ => rfl
  · exact absurd (named "loop_pairing" (fun _ hd => rule_of_mem_map hd fun _ => rfl) h) (by decide)
  · exact absurd (named "parallel_join" (fun _ hd => rule_of_mem_map hd fun _ => rfl) h) (by decide)
  · refine absurd (named "loop_bound" (fun d hd => ?_) h) (by decide)
    obtain ⟨n, -, hd⟩ := List.mem_filterMap.mp hd
    split at hd
    · cases hd; rfl
    · split at hd
      · cases hd; rfl
      · cases hd
  · exact absurd (named "select_options" (fun _ hd => rule_of_mem_map hd fun _ => rfl) h) (by decide)

end Lint

namespace Graph

open Lint (Place Written)

variable {g : Graph} {c : String}

/-- The warnings about conditions are those of the conditions that are written and do not parse. -/
theorem syntax_warning_iff {d : Diagnostic} : d ∈ g.validate.diagnostics ∧ d.rule = "condition_syntax" ↔
    ∃ p c e, Written g p c ∧ Condition.parse c = .error e ∧ d = p.warning c e := by
  constructor
  · rintro ⟨hd, hname⟩
    obtain ⟨rule, hrule, hd⟩ := List.mem_flatMap.mp hd
    obtain rfl := Lint.rule_eq_conditionSyntax hrule hd hname
    exact Lint.mem_conditionSyntax_iff.mp hd
  · rintro ⟨p, c, e, hw, he, rfl⟩
    refine ⟨List.mem_flatMap.mpr ⟨Lint.conditionSyntax, by simp [Lint.rules], ?_⟩, rfl⟩
    exact Lint.mem_conditionSyntax_iff.mpr ⟨p, c, e, hw, he, rfl⟩

/-- The graph is warned of a condition, perhaps with white space around it. -/
def Flagged (g : Graph) (c : String) : Prop :=
  ∃ p written e, Written g p written ∧ (written = c ∨ Text.trim written = c) ∧ Condition.parse written = .error e ∧
    p.warning written e ∈ g.validate.diagnostics

theorem Flagged.malformed (h : g.Flagged c) : ∃ e, Condition.parse c = .error e := by
  obtain ⟨p, written, e, -, rfl | rfl, he, -⟩ := h
  · exact ⟨e, he⟩
  · exact ⟨e, by rwa [Condition.parse_trim]⟩

end Graph

/-- What a run has of the condition of an edge is what is written there, less the white space around it. -/
theorem Edge.written_of_guard {x : Edge} {c : String} (h : x.guard? = some c) :
    ∃ written, x.condition = some written ∧ Text.trim written = c := by
  obtain ⟨trimmed, -⟩ := Option.filter_eq_some_iff.mp h
  exact Option.map_eq_some_iff.mp trimmed

namespace Execution

open Lint (Place Written)

variable {g : Graph} {node c : String} {e : Condition.Error}

/-- What a run may look at is written in its graph, perhaps with white space around it. -/
theorem Consults.written (h : Consults g node c) : ∃ p written, Written g p written ∧ (written = c ∨ Text.trim written = c) := by
  cases h with
  | choice hn _ hb => exact ⟨_, _, .choice (Graph.mem_of_node? hn) hb, .inl rfl⟩
  | implementation hn _ hi hc hd => exact ⟨_, _, .implementation (Graph.mem_of_node? hn) hi hc hd, .inl rfl⟩
  | guard he hc =>
    obtain ⟨written, hw, trimmed⟩ := Edge.written_of_guard hc
    exact ⟨_, written, .condition (List.mem_filter.mp (List.mem_filter.mp he).1).1 hw, .inr trimmed⟩
  | exit he _ hc => exact ⟨_, _, .exit (List.mem_filter.mp he).1 hc, .inl rfl⟩
  | trigger he _ hc => exact ⟨_, _, .trigger (List.mem_filter.mp he).1 hc, .inl rfl⟩

/-- What a run may look at is warned of exactly if it does not parse. -/
theorem Consults.flagged_iff (h : Consults g node c) : g.Flagged c ↔ ∃ e, Condition.parse c = .error e := by
  refine ⟨Graph.Flagged.malformed, fun ⟨e, he⟩ => ?_⟩
  obtain ⟨p, written, hw, hc⟩ := h.written
  have malformed : Condition.parse written = .error e := by
    obtain rfl | rfl := hc
    · exact he
    · rwa [Condition.parse_trim] at he
  exact ⟨p, written, e, hw, hc, malformed, (Graph.syntax_warning_iff.mpr ⟨p, written, e, hw, malformed, rfl⟩).1⟩

/-! ## Places -/

/-- Reports and records a condition that does not parse, and goes on without it. -/
def Walk.without {α : Type} (node c : String) (e : Condition.Error) (w : Walk α) : Walk α := do
  Walk.noteFailure ⟨node, c, e.message⟩
  w

/-- In each of the places where a run looks at conditions, one that does not parse is reported and
    recorded, and what follows is what follows one that is false. -/
structure CountsAsFalse (c : String) (e : Condition.Error) : Prop where
  /-- The conditions of a branch behind it are looked at. -/
  choice (n : Node) {b : BranchCondition} (hb : b.expression = c) (rest : List BranchCondition) :
    Walk.firstWhere (fun b => Walk.holds n.id b.expression) (b :: rest) =
      Walk.without n.id c e (Walk.firstWhere (fun b => Walk.holds n.id b.expression) rest)
  /-- An implementation is out of the question. -/
  implementation (n : Node) (hd : Lint.isDefault c = false) (rest : List String) :
    Walk.allHold (implementationHolds n) (c :: rest) = Walk.without n.id c e (pure false)
  /-- The edges behind it are looked at. -/
  edge (node : String) {x : Edge} (hx : x.guard? = some c) (rest : List Edge) (otherwise : Option Edge) :
    chooseEdge node (x :: rest) otherwise = Walk.without node c e (chooseEdge node rest otherwise)
  /-- No branch is opened along an edge of a split. -/
  branch (n : Node) {x : Edge} (hx : x.guard? = some c) : opensBranch n x = Walk.without n.id c e (pure false)
  /-- A loop is not over. -/
  exit (loopEnd : String) {x : Edge} (hx : x.exitCondition = some c) : exits loopEnd x = Walk.without loopEnd c e (pure false)
  /-- The fallback edges behind it are looked at. -/
  trigger (vars : Keyed Json) (n : Node) {x : Edge} (hx : x.trigger = some c) (rest : List Edge) :
    Walk.firstWhere (triggers vars n) (x :: rest) = Walk.without n.id c e (Walk.firstWhere (triggers vars n) rest)

theorem holds_of_parse_error (he : Condition.parse c = .error e) (vars : Keyed Json) : Condition.holds c vars = .error e := by
  rw [Condition.holds, Condition.value, he]
  rfl

/-- What parses fails only when it is evaluated. -/
theorem eval_of_holds_error {x : Condition.Expr} (hx : Condition.parse c = .ok x) {vars : Keyed Json}
    (h : Condition.holds c vars = .error e) : ∃ e', e = .eval e' := by
  rw [Condition.holds, Condition.value, hx] at h
  change Condition.isTruthy <$> (x.eval vars).mapError Condition.Error.eval = .error e at h
  cases hv : x.eval vars with
  | ok v =>
    rw [hv] at h
    cases h
  | error e' =>
    rw [hv] at h
    exact ⟨e', (Except.error.inj h).symm⟩

theorem holdsUnder_malformed (he : Condition.parse c = .error e) (vars : Keyed Json) (node : String) :
    Walk.holdsUnder vars node c = Walk.without node c e (pure false) := by
  rw [Walk.holdsUnder, holds_of_parse_error he]
  rfl

theorem holds_malformed (he : Condition.parse c = .error e) (node : String) :
    Walk.holds node c = Walk.without node c e (pure false) := by
  unfold Walk.holds
  simp only [holdsUnder_malformed he]
  rfl

/-- What does not parse counts as false wherever a run looks at it. -/
theorem counts_as_false (he : Condition.parse c = .error e) : CountsAsFalse c e where
  choice n b hb rest := by
    subst hb
    rw [Walk.firstWhere, holds_malformed he]
    rfl
  implementation n hd rest := by
    rw [Walk.allHold, implementationHolds, if_neg (by simp [hd]), holds_malformed he]
    rfl
  edge node x hx rest otherwise := by
    rw [chooseEdge]
    simp only [hx, holds_malformed he]
    rfl
  branch n x hx := by
    unfold opensBranch
    simp only [hx, holds_malformed he]
  exit loopEnd x hx := by
    unfold exits
    simp only [hx, holds_malformed he]
  trigger vars n x hx rest := by
    rw [Walk.firstWhere, triggers]
    simp only [hx, holdsUnder_malformed he]
    rfl

/-- A run takes the edge for one without a condition. -/
structure Unconditional (x : Edge) : Prop where
  edge (node : String) (rest : List Edge) (otherwise : Option Edge) :
    chooseEdge node (x :: rest) otherwise = chooseEdge node rest (otherwise.or (some x))
  branch (n : Node) : opensBranch n x = pure true

/-- So it does if the condition is nothing but white space. -/
theorem unconditional_of_blank {x : Edge} (hc : x.condition = some c) (hb : Text.trim c = "") : Unconditional x := by
  have none : x.guard? = none := by simp [Edge.guard?, hc, hb]
  constructor
  · intro node rest otherwise
    rw [chooseEdge]
    simp only [none]
  · intro n
    unfold opensBranch
    simp only [none]

/-- Such a condition does not parse, though. -/
theorem parse_of_blank (hb : Text.trim c = "") : Condition.parse c = .error (.parse .empty) := by
  rw [← Condition.parse_trim, hb]
  rfl

/-! ## Failures -/

section Failures

variable {open? : Option Node} {ds : List Deed} {es : List Step} {fs : List ConditionFailure}

theorem Aside.failed_conditions (h : Aside g open? ds fs) : ∀ f ∈ fs, FailedCondition g f := by
  induction h with
  | append _ _ ih ih' => exact fun f hf => (List.mem_append.mp hf).elim (ih f) (ih' f)
  | failed hf => exact fun f hm => List.mem_singleton.mp hm ▸ hf
  | _ => exact nofun

/-- Every failure that is recorded is that of a condition that the graph has there. -/
theorem Chronicle.failed_conditions (h : Chronicle g ds es fs) : ∀ f ∈ fs, FailedCondition g f := by
  induction h with
  | aside ha => exact ha.failed_conditions
  | append _ _ ih ih' => exact fun f hf => (List.mem_append.mp hf).elim (ih f) (ih' f)
  | step _ _ _ ha _ => exact ha.failed_conditions
  | split _ _ _ _ ih =>
    intro f hf
    obtain ⟨b, hb, hf⟩ := List.mem_flatMap.mp hf
    exact ih b hb f hf

/-- So is every failure that is told of. -/
theorem Chronicle.told_conditions (h : Chronicle g ds es fs) {f : ConditionFailure}
    (hm : .told (.event (.conditionFailed f)) ∈ ds) : FailedCondition g f := by
  have read : f ∈ ds.filterMap fun d => d.event?.bind Event.conditionFailed? := List.mem_filterMap.mpr ⟨_, hm, rfl⟩
  exact h.failed_conditions f (h.failures_read.1.mem_iff.mp read)

/-- Why a condition failed: it does not parse, and was warned of, or there was a problem with the
    variables. -/
def Foretold (g : Graph) (f : ConditionFailure) : Prop :=
  (g.Flagged f.expression ∧ ∃ e, Condition.parse f.expression = .error e ∧ f.message = e.message) ∨
    ¬g.Flagged f.expression ∧ ∃ vars e, Condition.holds f.expression vars = .error (.eval e) ∧ f.message = e.message

theorem FailedCondition.foretold {f : ConditionFailure} (h : FailedCondition g f) : Foretold g f := by
  obtain ⟨consulted, vars, e, failed, message⟩ := h
  cases hp : Condition.parse f.expression with
  | error e' =>
    obtain rfl : e' = e := Except.error.inj ((holds_of_parse_error hp vars).symm.trans failed)
    exact .inl ⟨consulted.flagged_iff.mpr ⟨e', hp⟩, e', hp, message⟩
  | ok x =>
    obtain ⟨e', rfl⟩ := eval_of_holds_error hp failed
    refine .inr ⟨fun flagged => ?_, vars, e', failed, message⟩
    obtain ⟨e', he'⟩ := flagged.malformed
    cases hp.symm.trans he'

end Failures

/-! ## Runs -/

/-- A run reports or has recorded a condition that failed. -/
def Reports (acts : List Act) (t : Standing Outcome) (f : ConditionFailure) : Prop :=
  .told (.event (.conditionFailed f)) ∈ deedsIn acts ∨ ∃ o, t = .finished o ∧ f ∈ o.scope.trace.conditionFailures

/-- What a run reports or has recorded at any moment is the failure of a condition that its graph has
    there. -/
theorem Course.reported_conditions {s : Setting} {context : Context} {p : Process Outcome} (hr : run s context = .ok p) {limit : Nat}
    {b : Bool} {w w' : Shared} {acts : List Act} {t : Standing Outcome} (h : Course limit b (.at p) w acts t w')
    {f : ConditionFailure} (hf : Reports acts t f) : FailedCondition s.graph f := by
  obtain told | ⟨o, rfl, recorded⟩ := hf
  · obtain ⟨post, o, w'', finished⟩ := h.goes_on
    obtain ⟨between, shown, es, fs, -, -, chronicle⟩ := finished.chronicled hr
    have among : .told (.event (.conditionFailed f)) ∈ deedsIn (acts ++ post) := by
      rw [deedsIn_append]
      exact List.mem_append_left _ told
    rw [shown] at among
    exact chronicle.told_conditions (by simpa using among)
  · obtain ⟨between, -, es, fs, -, failures, chronicle⟩ := h.chronicled hr
    rw [failures] at recorded
    exact chronicle.failed_conditions f (by simpa using recorded)

/-- An edge is warned of whose condition is blank, and followed all the same. -/
def blankEdge : Setting where
  graph :=
    { id := "blank"
      version := "1.0"
      name := ""
      description := ""
      metadata := none
      strategy := .abort
      maxRetries := 0
      retryDelay := none
      nodes := [{ id := "start", kind := .start }, { id := "end", kind := .finish }]
      edges := [{ source := "start", target := "end", condition := some "" }] }

/-- What is warned of need not count as false: a run follows an edge whose condition is empty, and
    records no failure. -/
theorem an_empty_condition_is_followed : blankEdge.graph.validate.isValid = true ∧
    (Place.edge "start" "end").warning "" (.parse .empty) ∈ blankEdge.graph.validate.diagnostics ∧
    ∃ r : Rehearsal.Report, Rehearsal.rehearse blankEdge {} .simulated none = .ok r ∧
      r.result.steps.map (·.node) = ["start", "end"] ∧ r.result.conditionFailures = [] := by
  have shown : (Rehearsal.rehearse blankEdge {} .simulated none).toOption.map
      (fun r => (r.result.steps.map (·.node), r.result.conditionFailures)) = some (["start", "end"], []) := by
    decide +kernel
  obtain ⟨r, hr, hshown⟩ := Option.map_eq_some_iff.mp shown
  obtain ⟨steps, failures⟩ := Prod.mk.inj hshown
  exact ⟨by decide +kernel, by decide +kernel, r, ok_of_toOption hr, steps, failures⟩

/-- The warnings of a graph about conditions are those of the conditions in it that do not parse.
    Whatever a run may look at is warned of exactly if it does not parse, and is then reported and
    recorded and counts as false wherever a run looks at it. An edge whose condition is blank is
    warned of as well, but is one without a condition for a run. Each condition that fails in a run
    was warned of, or its evaluation failed; where nothing is warned of, it was the evaluation. -/
theorem lint_and_runs_agree_on_malformed_conditions (s : Setting) :
    (∀ d, d ∈ s.graph.validate.diagnostics ∧ d.rule = "condition_syntax" ↔
      ∃ p c e, Written s.graph p c ∧ Condition.parse c = .error e ∧ d = p.warning c e) ∧
    (∀ node c, Consults s.graph node c → (s.graph.Flagged c ↔ ∃ e, Condition.parse c = .error e)) ∧
    (∀ c, s.graph.Flagged c → ∃ e, Condition.parse c = .error e ∧ CountsAsFalse c e) ∧
    (∀ x ∈ s.graph.edges, ∀ c, x.condition = some c → Text.trim c = "" →
      (Place.edge x.source x.target).warning c (.parse .empty) ∈ s.graph.validate.diagnostics ∧ Unconditional x) ∧
    ∀ {context : Context} {p : Process Outcome}, run s context = .ok p →
      ∀ {w w' : Shared} {acts : List Act} {t : Standing Outcome}, Course s.config.maxVisits false (.at p) w acts t w' →
        ∀ f, Reports acts t f → Consults s.graph f.node f.expression ∧ Foretold s.graph f ∧
          ((∀ d ∈ s.graph.validate.diagnostics, d.rule ≠ "condition_syntax") →
            ∃ vars e, Condition.holds f.expression vars = .error (.eval e) ∧ f.message = e.message) := by
  refine ⟨fun d => Graph.syntax_warning_iff, fun node c h => h.flagged_iff, fun c h => ?_, fun x hx c hc hb => ?_,
    fun {context p} hr {w w' acts t} h f hf => ?_⟩
  · obtain ⟨e, he⟩ := h.malformed
    exact ⟨e, he, counts_as_false he⟩
  · have warned := Graph.syntax_warning_iff.mpr ⟨_, c, _, .condition hx hc, parse_of_blank hb, rfl⟩
    exact ⟨warned.1, unconditional_of_blank hc hb⟩
  · have failed := h.reported_conditions hr hf
    refine ⟨failed.consulted, failed.foretold, fun calm => ?_⟩
    obtain ⟨⟨p, written, e, -, -, -, warned⟩, -⟩ | ⟨-, evaluated⟩ := failed.foretold
    · exact absurd rfl (calm _ warned)
    · exact evaluated

/-- A slip in the condition of an edge, and a blank condition of another one. -/
def misspelt : Setting where
  graph :=
    { id := "misspelt"
      version := "1.0"
      name := ""
      description := ""
      metadata := none
      strategy := .abort
      maxRetries := 0
      retryDelay := none
      nodes := [{ id := "start", kind := .start }, .skill "a" "drill", { id := "end", kind := .finish }]
      edges := [{ source := "start", target := "a", condition := some "x == " },
        { source := "start", target := "end", condition := some " " }, { source := "a", target := "end" }] }

/-- The slip is warned of and recorded, and the other edge is followed. -/
theorem a_slip_is_recorded : ∃ p acts o w' f, run misspelt {} = .ok p ∧
    Course misspelt.config.maxVisits false (.at p) {} acts (.finished o) w' ∧
    o.scope.context.history.map (·.node) = ["start", "end"] ∧ o.scope.trace.conditionFailures = [f] ∧
    f.expression = "x ==" ∧ misspelt.graph.Flagged f.expression ∧
    ∃ e, Condition.parse f.expression = .error e ∧ f.message = e.message := by
  have shown : (Rehearsal.rehearse misspelt {} .simulated none).toOption.map
      (fun r => (r.result.steps.map (·.node), r.result.conditionFailures.map (·.expression))) =
      some (["start", "end"], ["x =="]) := by
    decide +kernel
  obtain ⟨r, hr, hshown⟩ := Option.map_eq_some_iff.mp shown
  obtain ⟨steps, failures⟩ := Prod.mk.inj hshown
  obtain ⟨p, acts, o, w', elapsedMs, hp, hcourse, he⟩ := rehearse_course (ok_of_toOption hr)
  obtain ⟨f, hf, expression⟩ := List.map_eq_singleton_iff.mp failures
  rw [he] at steps hf
  obtain ⟨-, flagged, -, -, runs⟩ := lint_and_runs_agree_on_malformed_conditions misspelt
  have recorded : f ∈ o.scope.trace.conditionFailures := by
    rw [show o.scope.trace.conditionFailures = [f] from hf]
    exact .head _
  obtain ⟨consulted, foretold, -⟩ := runs hp hcourse f (.inr ⟨o, rfl, recorded⟩)
  have warned := (flagged f.node f.expression consulted).mpr ⟨.parse .unexpectedEnd, expression ▸ rfl⟩
  obtain ⟨-, message⟩ | ⟨unwarned, -⟩ := foretold
  · exact ⟨p, acts, o, w', f, hp, hcourse, steps, hf, expression, warned, message⟩
  · exact absurd warned unwarned

end Execution

end Capability
