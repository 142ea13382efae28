/-
  Capability.Proofs.Checked — what a graph that passed the check has for a run.

  A run looks nodes up by their ids, while the rules go over all nodes and edges that are
  declared. What a look-up finds is declared, so the rules speak of it.

  (1) `Lint.calm_startNode_iff` and its siblings: when a rule reports no error.
  (2) `Graph.checked_of_isValid`: each rule that reports none leaves one fact behind.
  (3) `Graph.Checked.flow_declared` and its siblings: so wherever a run may go on from a node, a
      node is declared.
-/

import Capability.Lint
import Mathlib.Tactic.ByContra

namespace Capability

namespace Lint

/-- No finding is an error. -/
def Calm (ds : List Diagnostic) : Prop := ∀ d ∈ ds, d.severity ≠ .error

variable {α : Type} {l : List α} {report : α → Diagnostic} {f : α → List Diagnostic}

theorem calm_nil : Calm [] := nofun

theorem not_calm_singleton {d : Diagnostic} (h : d.severity = .error) : ¬Calm [d] := fun calm => calm d (.head _) h

/-- Where every finding is an error, there is none. -/
theorem calm_map_iff (h : ∀ a, (report a).severity = .error) : Calm (l.map report) ↔ l = [] := by
  cases l with
  | nil => simp [Calm]
  | cons a l => simp [Calm, h]

theorem calm_flatMap_iff : Calm (l.flatMap f) ↔ ∀ a ∈ l, Calm (f a) := by
  simp only [Calm, List.mem_flatMap]
  constructor
  · intro h a ha d hd
    exact h d ⟨a, ha, hd⟩
  · rintro h d ⟨a, ha, hd⟩
    exact h a ha d hd

/-- A rule that reports an error for each element that it finds fault with finds none. -/
theorem calm_filter_map_iff {fault : α → Bool} (h : ∀ a, (report a).severity = .error) :
    Calm ((l.filter fault).map report) ↔ ∀ a ∈ l, fault a = false := by
  rw [calm_map_iff h, List.filter_eq_nil_iff]
  simp only [Bool.not_eq_true]

variable {g : Graph}

theorem calm_startNode_iff : Calm (startNode g) ↔ ∃ n, g.nodes.filter (·.kind = .start) = [n] := by
  unfold startNode
  cases starts : g.nodes.filter (·.kind = .start) with
  | nil => simp [not_calm_singleton]
  | cons n rest =>
    cases rest with
    | nil => simp [calm_nil]
    | cons m rest => simp [not_calm_singleton]

theorem calm_endNode_iff : Calm (endNode g) ↔ ∃ n ∈ g.nodes, n.kind = .finish := by
  unfold endNode
  split
  · next none =>
    have nobody : ¬∃ n ∈ g.nodes, n.kind = .finish := by
      simpa [Graph.finishes, List.filter_eq_nil_iff] using none
    exact iff_of_false (not_calm_singleton rfl) nobody
  · next some =>
    have somebody : ∃ n ∈ g.nodes, n.kind = .finish := by
      simpa [Graph.finishes, List.filter_eq_nil_iff] using some
    exact iff_of_true calm_nil somebody

theorem calm_edgeEndpoints_iff : Calm (edgeEndpoints g) ↔
    ∀ e ∈ g.edges, g.isDeclared e.source = true ∧ g.isDeclared e.target = true := by
  simp only [edgeEndpoints, calm_flatMap_iff]
  refine forall₂_congr fun e _ => ?_
  rw [calm_filter_map_iff fun _ => rfl]
  simp

theorem calm_branchConditions_iff : Calm (branchConditions g) ↔
    ∀ n ∈ g.nodes, n.kind = .branch → n.conditions ≠ [] := by
  rw [branchConditions, calm_filter_map_iff fun _ => rfl]
  simp

theorem calm_skillId_iff : Calm (skillId g) ↔ ∀ n ∈ g.nodes, n.kind = .skill → namesSkill n = true := by
  rw [skillId, calm_filter_map_iff fun _ => rfl]
  simp

theorem calm_branchTarget_iff : Calm (branchTarget g) ↔
    ∀ n ∈ g.nodes, n.kind = .branch → ∀ c ∈ n.conditions, g.isDeclared c.target = true := by
  simp only [branchTarget, calm_flatMap_iff, List.mem_filter, decide_eq_true_eq, and_imp]
  refine forall₃_congr fun n _ _ => ?_
  rw [calm_filter_map_iff fun _ => rfl]
  simp

theorem calm_loopPairing_iff : Calm (loopPairing g) ↔
    ∀ n ∈ g.nodes, n.kind = .loopStart → (g.loopEnd? n.id).isSome = true := by
  rw [loopPairing, calm_filter_map_iff fun _ => rfl]
  simp [Option.isSome_iff_ne_none]

/-! The other rules report warnings only. -/

theorem calm_of_warnings {ds : List Diagnostic} (h : ∀ d ∈ ds, d.severity = .warning) : Calm ds := by
  intro d hd
  rw [h d hd]
  decide

theorem malformed_severity {condition : String} {d : Diagnostic} (h : malformed condition = some d) : d.severity = .warning := by
  unfold malformed at h
  split at h
  · cases h
  · cases h
    rfl

theorem calm_conditionSyntax : Calm (conditionSyntax g) := by
  refine calm_of_warnings fun d hd => ?_
  simp only [conditionSyntax, List.mem_append, List.mem_flatMap, List.mem_filterMap, Option.map_eq_some_iff] at hd
  obtain ⟨_, _, _, _, finding, h, rfl⟩ | ⟨_, _, _, _, finding, h, rfl⟩ := hd
  · show finding.severity = .warning
    exact malformed_severity h
  · show finding.severity = .warning
    exact malformed_severity h

theorem calm_parallelJoin : Calm (parallelJoin g) := calm_of_warnings fun d hd => by
  obtain ⟨n, -, rfl⟩ := List.mem_map.mp hd
  rfl

theorem calm_loopBound : Calm (loopBound g) := calm_of_warnings fun d hd => by
  obtain ⟨n, -, found⟩ := List.mem_filterMap.mp hd
  split at found
  · cases found
    rfl
  · split at found
    · cases found
      rfl
    · cases found

theorem calm_selectOptions : Calm (selectOptions g) := calm_of_warnings fun d hd => by
  obtain ⟨n, -, rfl⟩ := List.mem_map.mp hd
  rfl

end Lint

namespace Graph

/-- What a run needs of its graph. -/
structure Checked (g : Graph) : Prop where
  starts : ∃ n, g.start? = some n ∧ g.isDeclared n.id
  /-- No edge leads nowhere. -/
  targets : ∀ e ∈ g.edges, g.isDeclared e.target
  conditions : ∀ n ∈ g.nodes, n.kind = .branch → n.conditions ≠ []
  choices : ∀ n ∈ g.nodes, n.kind = .branch → ∀ c ∈ n.conditions, g.isDeclared c.target
  skills : ∀ n ∈ g.nodes, n.kind = .skill → n.skillId.isSome
  /-- Every loop is closed by an iteration edge. -/
  loops : ∀ n ∈ g.nodes, n.kind = .loopStart → (g.iterationEdge? n.id).isSome

variable {g : Graph}

/-- A graph is valid just when no rule reports an error, and nine rules may report one. -/
theorem isValid_iff_calm : g.validate.isValid = true ↔
    Lint.Calm (Lint.startNode g) ∧ Lint.Calm (Lint.endNode g) ∧ Lint.Calm (Lint.edgeEndpoints g) ∧
      Lint.Calm (Lint.branchConditions g) ∧ Lint.Calm (Lint.skillId g) ∧ Lint.Calm (Lint.duplicateId g) ∧
      Lint.Calm (Lint.branchTarget g) ∧ Lint.Calm (Lint.reachability g) ∧ Lint.Calm (Lint.loopPairing g) := by
  have all : g.validate.isValid = true ↔ ∀ rule ∈ Lint.rules, Lint.Calm (rule g) := by
    rw [← Lint.calm_flatMap_iff]
    simp [Report.isValid, Report.errors, validate, Lint.Calm]
  rw [all]
  simp only [Lint.rules, List.forall_mem_cons, Lint.calm_conditionSyntax, Lint.calm_parallelJoin, Lint.calm_loopBound,
    Lint.calm_selectOptions, List.not_mem_nil, false_implies, implies_true, and_true]

theorem mem_of_node? {id : String} {n : Node} (h : g.node? id = some n) : n ∈ g.nodes := List.mem_of_find?_eq_some h

theorem kind?_of_node? {id : String} {n : Node} (h : g.node? id = some n) : g.kind? id = some n.kind :=
  congrArg (Option.map _) h

theorem isDeclared_of_mem {n : Node} (h : n ∈ g.nodes) : g.isDeclared n.id :=
  List.find?_isSome.mpr ⟨n, h, by simp⟩

theorem isDeclared_iff_mem {id : String} : g.isDeclared id = true ↔ id ∈ g.nodes.map (·.id) := by
  constructor
  · intro h
    obtain ⟨n, hn⟩ := Option.isSome_iff_exists.mp h
    exact List.mem_map.mpr ⟨n, mem_of_node? hn, by simpa using List.find?_some hn⟩
  · intro h
    obtain ⟨n, hn, rfl⟩ := List.mem_map.mp h
    exact isDeclared_of_mem hn

theorem checked_of_isValid (h : g.validate.isValid) : g.Checked := by
  obtain ⟨start, -, endpoints, conditions, skill, -, targets, -, loops⟩ := isValid_iff_calm.mp h
  constructor
  case starts =>
    obtain ⟨n, hn⟩ := Lint.calm_startNode_iff.mp start
    have first : g.start? = some n := by rw [start?, ← List.head?_filter, hn]; rfl
    exact ⟨n, first, isDeclared_of_mem (List.mem_of_find?_eq_some first)⟩
  case targets => exact fun e he => (Lint.calm_edgeEndpoints_iff.mp endpoints e he).2
  case conditions => exact Lint.calm_branchConditions_iff.mp conditions
  case choices => exact Lint.calm_branchTarget_iff.mp targets
  case skills =>
    intro n hn hk
    have named := Lint.calm_skillId_iff.mp skill n hn hk
    unfold Lint.namesSkill at named
    split at named
    · next hs => rw [hs]; rfl
    · cases named
  case loops =>
    intro n hn hk
    have paired := Lint.calm_loopPairing_iff.mp loops n hn hk
    rwa [loopEnd?, Option.isSome_map] at paired

/-- The iteration edge of a loop leaves a loop end. -/
theorem iterationEdge?_closes {id : String} {e : Edge} (h : g.iterationEdge? id = some e) :
    e ∈ g.edges ∧ e.kind = .iteration ∧ g.kind? e.source = some .loopEnd := by
  unfold iterationEdge? at h
  split at h
  · have found := List.find?_some h
    simp only [Bool.and_eq_true, decide_eq_true_eq] at found
    exact ⟨(List.mem_filter.mp (List.mem_of_find?_eq_some h)).1, found.1.1, found.2⟩
  · cases h

/-- So it leaves a node that is declared. -/
theorem loopEnd_declared {id : String} {e : Edge} (h : g.iterationEdge? id = some e) : ∃ n, g.node? e.source = some n := by
  obtain ⟨n, hn, -⟩ := Option.map_eq_some_iff.mp (iterationEdge?_closes h).2.2
  exact ⟨n, hn⟩

/-- What is closed by an iteration edge is the start of a loop. -/
theorem loopStart_declared {id : String} {e : Edge} (h : g.iterationEdge? id = some e) : ∃ n ∈ g.nodes, n.id = id := by
  unfold iterationEdge? at h
  split at h
  · next declared =>
    obtain ⟨n, hn, found⟩ := List.any_eq_true.mp declared
    simp only [Bool.and_eq_true, decide_eq_true_eq] at found
    exact ⟨n, hn, found.1⟩
  · cases h

namespace Checked

variable {id : String} {e : Edge} {n : Node}

theorem outgoing_declared (h : g.Checked) (he : e ∈ g.outgoing id) : g.isDeclared e.target :=
  h.targets e (List.mem_filter.mp he).1

theorem flow_declared (h : g.Checked) (he : e ∈ g.flow id) : g.isDeclared e.target :=
  h.outgoing_declared (List.mem_filter.mp he).1

theorem loop_closed (h : g.Checked) (hn : g.node? id = some n) (hk : n.kind = .loopStart) :
    ∃ e, g.iterationEdge? n.id = some e :=
  Option.isSome_iff_exists.mp (h.loops n (mem_of_node? hn) hk)

end Checked

end Graph

end Capability
