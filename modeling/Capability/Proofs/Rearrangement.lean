/-
  Capability.Proofs.Rearrangement — the order of nodes and edges does not decide whether a graph is
  valid.

  Rules look an id up by its first node, start at the first start node and take the first edge that
  closes a loop, so what they report hangs on the order. But one rule wants ids to differ and another
  one wants a single start node, and where these are content there is nothing that could come first.
  What the rules then ask is whether something is declared or reached at all.

  (1) `isValid_iff_wellFormed`: the rules as one property that mentions no order.
  (2) `node?_eq_some_iff`: ids that differ are looked up alike in every order.
  (3) `WellFormed.rearranged`: so the property holds in every order if it holds in one.
  (4) `validity_is_free_of_order`: so validity does not depend on the order.
-/

import Capability.Proofs.Orphans
import Capability.Proofs.Pairing

namespace Capability

namespace Lint

variable {g : Graph}

theorem repeated_eq_nil_iff {seen ids : List String} (hs : seen.Nodup) :
    repeated seen ids = [] ↔ ids.Nodup ∧ ∀ id ∈ ids, id ∉ seen := by
  induction ids generalizing seen with
  | nil => simp [repeated]
  | cons id ids ih =>
    by_cases again : id ∈ seen
    · have once : seen.count id = 1 := List.count_eq_one_of_mem hs again
      simp [repeated, once, again]
    · have never : seen.count id = 0 := List.count_eq_zero_of_not_mem again
      have fresh : (id :: seen).Nodup := List.nodup_cons.mpr ⟨again, hs⟩
      rw [repeated, if_neg (by omega), ih fresh]
      simp only [List.nodup_cons, List.mem_cons, forall_eq_or_imp, not_or]
      constructor
      · rintro ⟨nodup, apart⟩
        exact ⟨⟨fun h => (apart id h).1 rfl, nodup⟩, again, fun x hx => (apart x hx).2⟩
      · rintro ⟨⟨out, nodup⟩, -, apart⟩
        refine ⟨nodup, fun x hx => ⟨?_, apart x hx⟩⟩
        rintro rfl
        exact out hx

theorem calm_duplicateId_iff : Calm (duplicateId g) ↔ (g.nodes.map (·.id)).Nodup := by
  rw [duplicateId, calm_map_iff fun _ => rfl, repeated_eq_nil_iff List.nodup_nil]
  simp

theorem calm_reachability_iff {start : Node} (h : g.start? = some start) :
    Calm (reachability g) ↔ ∀ n ∈ g.nodes, g.Attains (fun _ => True) start.id n.id := by
  simp only [reachability, h]
  rw [calm_map_iff fun _ => rfl, List.eq_nil_iff_forall_not_mem]
  simp [Graph.mem_addFresh, Graph.mem_withinReach]

end Lint

namespace Graph

open Relation

/-- What the rules that report errors want of a graph. -/
structure WellFormed (g : Graph) : Prop where
  start : ∃ n, g.nodes.filter (·.kind = .start) = [n]
  finish : ∃ n ∈ g.nodes, n.kind = .finish
  endpoints : ∀ e ∈ g.edges, g.isDeclared e.source = true ∧ g.isDeclared e.target = true
  conditions : ∀ n ∈ g.nodes, n.kind = .branch → n.conditions ≠ []
  skills : ∀ n ∈ g.nodes, n.kind = .skill → Lint.namesSkill n = true
  distinct : (g.nodes.map (·.id)).Nodup
  choices : ∀ n ∈ g.nodes, n.kind = .branch → ∀ c ∈ n.conditions, g.isDeclared c.target = true
  reached : ∀ start ∈ g.nodes, start.kind = .start → ∀ n ∈ g.nodes, g.Attains (fun _ => True) start.id n.id
  /-- An iteration edge leads back to every loop start from a loop end that is reached from it. -/
  loops : ∀ n ∈ g.nodes, n.kind = .loopStart → ∃ e ∈ g.edges, e.target = n.id ∧ e.kind = .iteration ∧
    g.kind? e.source = some .loopEnd ∧ ReflTransGen (g.Edged (·.kind != .iteration)) n.id e.source

variable {g g' : Graph} {id : String} {n : Node}

theorem mem_incoming {e : Edge} : e ∈ g.incoming id ↔ e ∈ g.edges ∧ e.target = id := by
  simp [incoming, List.mem_filter]

/-- The only start node is the one a run begins at. -/
theorem start?_of_single (h : g.nodes.filter (·.kind = .start) = [n]) :
    g.start? = some n ∧ ∀ m ∈ g.nodes, m.kind = .start ↔ m = n := by
  refine ⟨by rw [start?, ← List.head?_filter, h]; rfl, fun m hm => ?_⟩
  have listed : m ∈ g.nodes.filter (·.kind = .start) ↔ m = n := by rw [h, List.mem_singleton]
  simpa [hm] using listed

theorem calm_loops_iff : Lint.Calm (Lint.loopPairing g) ↔
    ∀ n ∈ g.nodes, n.kind = .loopStart → ∃ e ∈ g.edges, e.target = n.id ∧ e.kind = .iteration ∧
      g.kind? e.source = some .loopEnd ∧ ReflTransGen (g.Edged (·.kind != .iteration)) n.id e.source := by
  rw [Lint.calm_loopPairing_iff]
  refine forall₃_congr fun n hn hk => ?_
  have declared : g.declares .loopStart n.id = true := List.any_eq_true.mpr ⟨n, hn, by simp [hk]⟩
  simp only [loopEnd?_isSome_iff, declared, true_and, mem_incoming, and_assoc]

/-- A graph is valid just when it is well-formed. -/
theorem isValid_iff_wellFormed : g.validate.isValid = true ↔ g.WellFormed := by
  simp only [isValid_iff_calm, Lint.calm_startNode_iff, Lint.calm_endNode_iff, Lint.calm_edgeEndpoints_iff,
    Lint.calm_branchConditions_iff, Lint.calm_skillId_iff, Lint.calm_duplicateId_iff, Lint.calm_branchTarget_iff,
    calm_loops_iff]
  constructor
  · rintro ⟨⟨n, hn⟩, finish, endpoints, conditions, skills, distinct, choices, reach, loops⟩
    obtain ⟨first, only⟩ := start?_of_single hn
    refine ⟨⟨n, hn⟩, finish, endpoints, conditions, skills, distinct, choices, fun start hs hk => ?_, loops⟩
    obtain rfl := (only start hs).mp hk
    exact (Lint.calm_reachability_iff first).mp reach
  · rintro ⟨⟨n, hn⟩, finish, endpoints, conditions, skills, distinct, choices, reached, loops⟩
    obtain ⟨first, only⟩ := start?_of_single hn
    have listed : n ∈ g.nodes := List.mem_of_find?_eq_some first
    exact ⟨⟨n, hn⟩, finish, endpoints, conditions, skills, distinct, choices,
      (Lint.calm_reachability_iff first).mpr (reached n listed ((only n listed).mpr rfl)), loops⟩

/-! ## Orders -/

/-- Where ids differ, the node with an id is any node with that id. -/
theorem node?_eq_some_iff (h : (g.nodes.map (·.id)).Nodup) : g.node? id = some n ↔ n ∈ g.nodes ∧ n.id = id := by
  constructor
  · intro hn
    exact ⟨mem_of_node? hn, node?_id hn⟩
  · rintro ⟨hn, rfl⟩
    obtain ⟨m, hm⟩ := Option.isSome_iff_exists.mp (isDeclared_of_mem hn)
    rw [hm, List.inj_on_of_nodup_map h (mem_of_node? hm) hn (node?_id hm)]

section Perm

variable (hn : g.nodes.Perm g'.nodes) (he : g.edges.Perm g'.edges)

include hn in
theorem node?_perm (h : (g.nodes.map (·.id)).Nodup) (id : String) : g'.node? id = g.node? id := by
  have h' : (g'.nodes.map (·.id)).Nodup := (hn.map _).nodup_iff.mp h
  ext n
  rw [node?_eq_some_iff h, node?_eq_some_iff h', hn.mem_iff]

include hn in
theorem isDeclared_perm (id : String) : g'.isDeclared id = g.isDeclared id := by
  rw [Bool.eq_iff_iff, isDeclared_iff_mem, isDeclared_iff_mem, (hn.map _).mem_iff]

include he in
theorem Edged.perm {accept : Edge → Bool} {a b : String} (h : g.Edged accept a b) : g'.Edged accept a b := by
  obtain ⟨e, hout, ha, ht⟩ := h
  exact ⟨e, (he.filter _).mem_iff.mp hout, ha, ht⟩

include hn he in
theorem Onto.perm (hd : (g.nodes.map (·.id)).Nodup) {chooses : NodeKind → Prop} {a b : String} (h : g.Onto chooses a b) :
    g'.Onto chooses a b := by
  obtain ⟨declared, step⟩ := h
  refine ⟨by rwa [isDeclared_perm hn], ?_⟩
  rcases step with edge | condition
  · left
    exact ((he.filter _).map _).mem_iff.mp edge
  · right
    rwa [node?_perm hn hd]

include hn he in
/-- A well-formed graph is well-formed in every order. -/
theorem WellFormed.rearranged (h : g.WellFormed) : g'.WellFormed where
  start := by
    obtain ⟨n, hs⟩ := h.start
    refine ⟨n, List.perm_singleton.mp ?_⟩
    rw [← hs]
    exact (hn.filter _).symm
  finish := by
    obtain ⟨n, hf, hk⟩ := h.finish
    exact ⟨n, hn.mem_iff.mp hf, hk⟩
  endpoints e hm := by
    rw [isDeclared_perm hn, isDeclared_perm hn]
    exact h.endpoints e (he.mem_iff.mpr hm)
  conditions n hm := h.conditions n (hn.mem_iff.mpr hm)
  skills n hm := h.skills n (hn.mem_iff.mpr hm)
  distinct := (hn.map _).nodup_iff.mp h.distinct
  choices n hm hk c hc := by
    rw [isDeclared_perm hn]
    exact h.choices n (hn.mem_iff.mpr hm) hk c hc
  reached start hs hk n hm :=
    ReflTransGen.mono (fun _ _ => Onto.perm hn he h.distinct) _ _
      (h.reached start (hn.mem_iff.mpr hs) hk n (hn.mem_iff.mpr hm))
  loops n hm hk := by
    obtain ⟨e, edge, target, kind, loopEnd, reached⟩ := h.loops n (hn.mem_iff.mpr hm) hk
    refine ⟨e, he.mem_iff.mp edge, target, kind, ?_, ReflTransGen.mono (fun _ _ => Edged.perm he) _ _ reached⟩
    rw [kind?, node?_perm hn h.distinct]
    exact loopEnd

end Perm

/-- Of two documents with the same nodes and the same edges, in whatever order, both describe a valid
    graph or none does. -/
theorem validity_is_free_of_order {d d' : Document} (hn : d.nodes.Perm d'.nodes) (he : d.edges.Perm d'.edges) :
    (ofDocument d).validate.isValid = (ofDocument d').validate.isValid := by
  rw [Bool.eq_iff_iff, isValid_iff_wellFormed, isValid_iff_wellFormed]
  constructor
  · intro h
    exact h.rearranged hn he
  · intro h
    exact h.rearranged hn.symm he.symm

/-- A loop inside a loop. The inner loop end leads back to both of them, the outer one to the outer
    loop only. -/
def nested : Document where
  id := "nested"
  nodes := [{ id := "start", kind := .start }, { id := "outer", kind := .loopStart }, { id := "inner", kind := .loopStart },
    { id := "work", kind := .skill, skillId := some "work" }, { id := "again", kind := .loopEnd },
    { id := "once more", kind := .loopEnd }, { id := "end", kind := .finish }]
  edges := [{ source := "start", target := "outer" }, { source := "outer", target := "inner" },
    { source := "inner", target := "work" }, { source := "work", target := "again" },
    { source := "again", target := "inner", kind := .iteration }, { source := "again", target := "outer", kind := .iteration },
    { source := "again", target := "once more" }, { source := "once more", target := "outer", kind := .iteration },
    { source := "once more", target := "end" }]

/-- The same, declared backwards. -/
def backwards : Document := { nested with nodes := nested.nodes.reverse, edges := nested.edges.reverse }

/-- Backwards another edge closes the outer loop, and the graph is as valid as before. -/
theorem nested_loops_are_valid_backwards : nested.nodes.Perm backwards.nodes ∧ nested.edges.Perm backwards.edges ∧
    (ofDocument nested).loopEnd? "outer" = some "again" ∧ (ofDocument backwards).loopEnd? "outer" = some "once more" ∧
      (ofDocument backwards).validate.isValid = true := by
  have nodes : nested.nodes.Perm backwards.nodes := (List.reverse_perm nested.nodes).symm
  have edges : nested.edges.Perm backwards.edges := (List.reverse_perm nested.edges).symm
  refine ⟨nodes, edges, by decide +kernel, by decide +kernel, ?_⟩
  rw [← validity_is_free_of_order nodes edges]
  decide +kernel

end Graph

end Capability
