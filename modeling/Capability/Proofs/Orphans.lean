/-
  Capability.Proofs.Orphans — the nodes that are reported as unreachable.

  The rule searches from the start node, along the edges and to the targets of conditions, and goes on
  from declared nodes only. It takes the conditions of every node, whereas a run takes those of branch
  nodes: it makes a difference just where a condition of another node leads out of what is reachable.

  (1) `withinReach_sweeps`: the search comes to its end, on every graph.
  (2) `addFresh_pairwise`: what it did not see is listed in the order of the declarations.
  (3) `taken_iff_inert`: the conditions of other nodes make no difference just when all of them stay
      within reach.
  (4) `orphans_are_out_of_reach`: so the reports are exact, for the routes along all conditions, and
      for those of branch nodes when the others stay within reach.
-/

import Capability.Proofs.Checked
import Capability.Proofs.Reachability

namespace Capability.Graph

open Relation

/-- An edge, or a condition of a node of some kinds, leads from one id to another. Both the node with
    the condition and the node that it leads to are those declared with the ids. -/
def Onto (g : Graph) (chooses : NodeKind → Prop) (a b : String) : Prop :=
  g.isDeclared b = true ∧ (b ∈ g.successors a ∨ ∃ n, g.node? a = some n ∧ chooses n.kind ∧ ∃ c ∈ n.conditions, c.target = b)

/-- An id can be reached from another one along all edges and the conditions of nodes of some kinds. -/
def Attains (g : Graph) (chooses : NodeKind → Prop) : String → String → Prop := ReflTransGen (g.Onto chooses)

variable {g : Graph} {a b id : String}

/-! ## The search -/

theorem mem_leadsTo : b ∈ Lint.leadsTo g a ↔ g.Onto (fun _ => True) a b := by
  have opens : b ∈ ((g.node? a).map (·.conditions.map (·.target))).getD [] ↔
      ∃ n, g.node? a = some n ∧ ∃ c ∈ n.conditions, c.target = b := by
    cases g.node? a with
    | none => simp
    | some n => simp
  simp only [Lint.leadsTo, List.mem_filter, List.mem_append, opens, Onto, true_and, and_comm]

theorem leadsTo_declared (g : Graph) : ∀ a, ∀ b ∈ Lint.leadsTo g a, b ∈ (g.nodes.map (·.id)).toFinset := by
  intro a b hb
  exact List.mem_toFinset.mpr (isDeclared_iff_mem.mp (mem_leadsTo.mp hb).1)

theorem ids_card_le (g : Graph) : (g.nodes.map (·.id)).toFinset.card ≤ g.nodes.length := by
  have fewer := List.toFinset_card_le (g.nodes.map (·.id))
  rwa [List.length_map] at fewer

/-- There is a round for every id that is ever queued. -/
theorem withinReach_sweeps (g : Graph) (id : String) : Sweeps (Lint.leadsTo g) [id] [id] (Lint.withinReach g id) :=
  closure_sweeps g.leadsTo_declared g.ids_card_le id

theorem mem_withinReach : b ∈ Lint.withinReach g a ↔ g.Attains (fun _ => True) a b := by
  rw [Lint.withinReach, mem_closure_iff g.leadsTo_declared g.ids_card_le]
  simp only [mem_leadsTo, Attains]

/-! ## The reports -/

/-- What is reported of an id that is out of reach. -/
def orphan (id : String) : Diagnostic where
  rule := "reachability"
  severity := .error
  message := "Node '" ++ id ++ "' is not reachable from the start node"
  node := some id
  fix := some ("Add an edge leading to '" ++ id ++ "' or remove it")

/-- The ids that are added come in the order in which they first occur. -/
theorem addFresh_pairwise (seen ids : List String) :
    (addFresh seen ids).Pairwise fun a b => ids.idxOf a < ids.idxOf b := by
  induction ids generalizing seen with
  | nil => exact .nil
  | cons y ids ih =>
    have later {l : List String} (hl : ∀ x ∈ l, x ≠ y) (h : l.Pairwise fun a b => ids.idxOf a < ids.idxOf b) :
        l.Pairwise fun a b => (y :: ids).idxOf a < (y :: ids).idxOf b := by
      refine h.imp_of_mem fun {a b} ha hb hab => ?_
      rw [List.idxOf_cons_ne _ (hl a ha).symm, List.idxOf_cons_ne _ (hl b hb).symm]
      omega
    unfold addFresh
    by_cases hy : y ∈ seen
    · rw [if_pos (by simpa using hy)]
      refine later (fun x hx => ?_) (ih seen)
      rintro rfl
      exact (mem_addFresh.mp hx).2 hy
    · rw [if_neg (by simpa using hy)]
      have others : ∀ x ∈ addFresh (y :: seen) ids, x ≠ y := by
        rintro x hx rfl
        exact (mem_addFresh.mp hx).2 (.head _)
      refine List.pairwise_cons.mpr ⟨fun x hx => ?_, later others (ih _)⟩
      rw [List.idxOf_cons_self, List.idxOf_cons_ne _ (others x hx).symm]
      omega

/-- What can be reached along some conditions can be reached along more of them. -/
theorem Attains.mono {chooses more : NodeKind → Prop} (h : ∀ k, chooses k → more k) (ha : g.Attains chooses a b) :
    g.Attains more a b := by
  refine ReflTransGen.mono (fun x y hxy => ?_) _ _ ha
  obtain ⟨hd, hs | ⟨n, hn, hc, ht⟩⟩ := hxy
  · exact ⟨hd, .inl hs⟩
  · exact ⟨hd, .inr ⟨n, hn, h _ hc, ht⟩⟩

/-- All conditions of other nodes that can be reached lead to declared nodes within reach, or to
    none. -/
def Inert (g : Graph) (chooses : NodeKind → Prop) (start : String) : Prop :=
  ∀ id n, g.Attains chooses start id → g.node? id = some n → ¬chooses n.kind → ∀ c ∈ n.conditions,
    g.isDeclared c.target = true → g.Attains chooses start c.target

theorem taken_iff_inert {chooses : NodeKind → Prop} (start : String) :
    (∀ id, g.Attains (fun _ => True) start id ↔ g.Attains chooses start id) ↔ g.Inert chooses start := by
  constructor
  · intro h id n hid hn _ c hc hd
    have onto : g.Onto (fun _ => True) id c.target := ⟨hd, .inr ⟨n, hn, trivial, c, hc, rfl⟩⟩
    exact (h c.target).mp (((h id).mpr hid).tail onto)
  · intro h id
    refine ⟨fun ha => ?_, Attains.mono fun _ _ => trivial⟩
    induction ha with
    | refl => exact .refl
    | @tail x y _ hxy ih =>
      obtain ⟨hd, hs | ⟨n, hn, -, c, hc, rfl⟩⟩ := hxy
      · exact ih.tail ⟨hd, .inl hs⟩
      · by_cases hk : chooses n.kind
        · exact ih.tail ⟨hd, .inr ⟨n, hn, hk, c, hc, rfl⟩⟩
        · exact h x n ih hn hk c hc hd

/-- The search from the start node comes to its end. An error is reported for every declared id, once
    and in the order of the first declarations, that cannot be reached along edges of any kind and
    conditions of any node. These are the ids that cannot be reached along edges and conditions of
    branch nodes just when the conditions of other nodes stay within reach. -/
theorem orphans_are_out_of_reach {start : Node} (h : g.start? = some start) :
    Sweeps (Lint.leadsTo g) [start.id] [start.id] (Lint.withinReach g start.id) ∧
      ∃ orphans : List String, Lint.reachability g = orphans.map orphan ∧
        orphans.Pairwise (fun a b => (g.nodes.map (·.id)).idxOf a < (g.nodes.map (·.id)).idxOf b) ∧
        (∀ id, id ∈ orphans ↔ g.isDeclared id = true ∧ ¬g.Attains (fun _ => True) start.id id) ∧
        ((∀ id, id ∈ orphans ↔ g.isDeclared id = true ∧ ¬g.Attains (· = .branch) start.id id) ↔
          g.Inert (· = .branch) start.id) := by
  have members (id : String) : id ∈ addFresh (Lint.withinReach g start.id) (g.nodes.map (·.id)) ↔
      g.isDeclared id = true ∧ ¬g.Attains (fun _ => True) start.id id := by
    rw [mem_addFresh, isDeclared_iff_mem, mem_withinReach]
  refine ⟨withinReach_sweeps g start.id, addFresh (Lint.withinReach g start.id) (g.nodes.map (·.id)), ?_,
    addFresh_pairwise _ _, members, ?_⟩
  · simp only [Lint.reachability, h]
    rfl
  · rw [← taken_iff_inert]
    have first : g.isDeclared start.id = true := isDeclared_of_mem (List.mem_of_find?_eq_some h)
    have declared {chooses : NodeKind → Prop} {id : String} (ha : g.Attains chooses start.id id) : g.isDeclared id = true := by
      rcases ReflTransGen.cases_tail ha with rfl | ⟨x, -, hx⟩
      · exact first
      · exact hx.1
    constructor
    · intro same id
      refine ⟨fun ha => ?_, Attains.mono fun _ _ => trivial⟩
      by_contra hn
      have listed := (same id).mpr ⟨declared ha, hn⟩
      exact ((members id).mp listed).2 ha
    · intro same id
      rw [members, same]

/-- A start node in a circle, a branch node without an edge, a condition that leads back, and a circle
    of two nodes apart, one of them declared twice. -/
def circled : Graph where
  id := "circled"
  version := "1.0"
  name := ""
  description := ""
  metadata := none
  strategy := .abort
  maxRetries := 0
  retryDelay := none
  nodes := [{ id := "start", kind := .start }, { id := "second", kind := .merge }, { id := "first", kind := .merge },
    { id := "choose", kind := .branch, conditions := [{ expression := "true", target := "work" },
      { expression := "true", target := "nowhere" }] },
    { id := "work", kind := .skill, skillId := some "work", conditions := [{ expression := "true", target := "choose" }] },
    { id := "second", kind := .merge }, { id := "end", kind := .finish }]
  edges := [{ source := "start", target := "choose" }, { source := "choose", target := "start", kind := .iteration },
    { source := "work", target := "nowhere" }, { source := "work", target := "end", kind := .fallback },
    { source := "first", target := "second" }, { source := "second", target := "first" }, { source := "first", target := "end" }]

/-- The circle apart is reported, and nothing else. -/
theorem a_circle_apart_is_reported : circled.start? = some { id := "start", kind := .start } ∧
    Lint.reachability circled = ["second", "first"].map orphan ∧ circled.Inert (· = .branch) "start" ∧
      ∀ id, id ∈ ["second", "first"] ↔ circled.isDeclared id = true ∧ ¬circled.Attains (· = .branch) "start" id := by
  have begins : circled.start? = some { id := "start", kind := .start } := by decide +kernel
  have inert : circled.Inert (· = .branch) "start" := by
    intro id n _ hn hk c hc _
    have back : ∀ n ∈ circled.nodes, n.kind ≠ .branch → ∀ c ∈ n.conditions, c.target = "choose" := by decide +kernel
    have edge : circled.Onto (· = .branch) "start" "choose" := by
      refine ⟨by decide +kernel, .inl ?_⟩
      decide +kernel
    rw [back n (mem_of_node? hn) hk c hc]
    exact .single edge
  have reported : Lint.reachability circled = ["second", "first"].map orphan := by decide +kernel
  obtain ⟨-, orphans, same, -, -, exact_iff⟩ := orphans_are_out_of_reach begins
  have injective : Function.Injective orphan := fun a b hab => Option.some.inj (congrArg Diagnostic.node hab)
  obtain rfl : orphans = ["second", "first"] := List.map_injective_iff.mpr injective (same.symm.trans reported)
  exact ⟨begins, reported, inert, exact_iff.mpr inert⟩

/-- A skill node with a condition that leads to a node nothing else leads to. -/
def mislaid : Graph where
  id := "mislaid"
  version := "1.0"
  name := ""
  description := ""
  metadata := none
  strategy := .abort
  maxRetries := 0
  retryDelay := none
  nodes := [{ id := "start", kind := .start },
    { id := "work", kind := .skill, skillId := some "work",
      conditions := [{ name := "aside", expression := "true", target := "lost" }] },
    { id := "lost", kind := .skill, skillId := some "lost" }, { id := "end", kind := .finish }]
  edges := [{ source := "start", target := "work" }, { source := "work", target := "end" }, { source := "lost", target := "end" }]

/-- No run comes to that node, and it is not reported. -/
theorem a_node_behind_an_idle_condition_is_missed : mislaid.start? = some { id := "start", kind := .start } ∧
    mislaid.isDeclared "lost" = true ∧ ¬mislaid.Attains (· = .branch) "start" "lost" ∧ mislaid.validate = ⟨[]⟩ := by
  refine ⟨by decide +kernel, by decide +kernel, fun h => ?_, by decide +kernel⟩
  have inside : ∀ id, mislaid.Attains (· = .branch) "start" id → id ∈ ["start", "work", "end"] := by
    intro id hid
    induction hid with
    | refl => decide
    | @tail x y _ hxy ih =>
      obtain ⟨-, hs | ⟨n, hn, hk, -⟩⟩ := hxy
      · have kept : ∀ x ∈ ["start", "work", "end"], ∀ y ∈ mislaid.successors x, y ∈ ["start", "work", "end"] := by decide +kernel
        exact kept x ih y hs
      · have none : ∀ n ∈ mislaid.nodes, n.kind ≠ .branch := by decide +kernel
        exact absurd hk (none n (mem_of_node? hn))
  have stray : "lost" ∉ ["start", "work", "end"] := by decide
  exact stray (inside "lost" h)

end Capability.Graph
