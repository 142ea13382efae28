/-
  Capability.Proofs.Ways — the ways through a graph, each found once and in the order of edges.

  The search keeps one path. It puts a node on it for each edge that leads to a declared node off the
  path, and takes the node off again when all ways through it are found. No path has more nodes than
  the graph, so below a path that cannot grow there is nothing left to search.

  (1) `Search.step_finish`, `step_back`, `step_pass`, `step_follow`: what one step does to a path and
      to the ids on it.
  (2) `Comes.looked`, `Comes.explored`: a search that puts a node on its path takes it off again, and
      has found what lies behind it.
  (3) `isWay_iff`: what is found in this manner are the ways.
  (4) `ways_are_found_in_order`: so the search ends, with one entry for every way.
-/

import Capability.Graph.Paths
import Capability.Proofs.Checked
import Mathlib.Data.Finset.Card
import Mathlib.Logic.Relation

namespace Capability.Graph

open Relation

/-! ## Ways -/

/-- Edges one after another, each with its place among the edges of the graph. -/
abbrev Route := List (Edge × Nat)

/-- The ids that a route from an id comes to, the first included. -/
def Route.nodes (start : String) (r : Route) : List String := start :: r.map (·.1.target)

def Route.places (r : Route) : List Nat := r.map (·.2)

/-- A way from an id: its edges are declared and lead from each node to the next one; all of its
    nodes are declared and different; it ends at an end node and passes none before. -/
structure IsWay (g : Graph) (start : String) (r : Route) : Prop where
  edges : ∀ p ∈ r, p ∈ g.edges.zipIdx
  joined : r.map (·.1.source) = (r.nodes start).dropLast
  declared : ∀ id ∈ r.nodes start, g.isDeclared id = true
  simple : (r.nodes start).Nodup
  ends : ((r.nodes start).getLast?).bind g.kind? = some .finish
  before : ∀ id ∈ (r.nodes start).dropLast, g.kind? id ≠ some .finish

/-- How a way may go on from an id, when some ids were passed. -/
inductive Onward (g : Graph) : List String → String → Route → Prop
  | finish {passed : List String} {id : String} : g.kind? id = some .finish → Onward g passed id []
  | edge {passed : List String} {id : String} {p : Edge × Nat} {r : Route} : g.kind? id ≠ some .finish →
      p ∈ g.edges.zipIdx → p.1.source = id → g.isDeclared p.1.target = true → p.1.target ∉ passed →
      Onward g (p.1.target :: passed) p.1.target r → Onward g passed id (p :: r)

variable {g : Graph} {id : String} {passed : List String} {r : Route}

theorem onward_cons_iff {p : Edge × Nat} : Onward g passed id (p :: r) ↔ g.kind? id ≠ some .finish ∧
    p ∈ g.edges.zipIdx ∧ p.1.source = id ∧ g.isDeclared p.1.target = true ∧ p.1.target ∉ passed ∧
      Onward g (p.1.target :: passed) p.1.target r := by
  constructor
  · intro h
    cases h with
    | edge hk he hs hd hp ho => exact ⟨hk, he, hs, hd, hp, ho⟩
  · rintro ⟨hk, he, hs, hd, hp, ho⟩
    exact .edge hk he hs hd hp ho

theorem onward_iff : Onward g passed id r ↔ (∀ p ∈ r, p ∈ g.edges.zipIdx) ∧
    r.map (·.1.source) = (r.nodes id).dropLast ∧ (∀ x ∈ r.map (·.1.target), g.isDeclared x = true ∧ x ∉ passed) ∧
      (r.map (·.1.target)).Nodup ∧ ((r.nodes id).getLast?).bind g.kind? = some .finish ∧
        ∀ x ∈ (r.nodes id).dropLast, g.kind? x ≠ some .finish := by
  induction r generalizing passed id with
  | nil =>
    constructor
    · rintro ⟨⟩
      simp_all [Route.nodes]
    · intro h
      exact .finish (by simpa [Route.nodes] using h.2.2.2.2.1)
  | cons p r ih =>
    rw [onward_cons_iff, ih]
    have nodes : Route.nodes id (p :: r) = id :: Route.nodes p.1.target r := rfl
    have further : Route.nodes p.1.target r ≠ [] := List.cons_ne_nil _ _
    rw [nodes, List.dropLast_cons_of_ne_nil further, List.getLast?_cons_of_ne_nil further]
    simp only [List.map_cons, List.forall_mem_cons, List.cons.injEq, List.nodup_cons]
    simp only [List.mem_cons, not_or]
    constructor
    · rintro ⟨hk, he, hs, hd, hp, hes, hj, hx, hn, hl, hb⟩
      exact ⟨⟨he, hes⟩, ⟨hs, hj⟩, ⟨⟨hd, hp⟩, fun x hm => ⟨(hx x hm).1, (hx x hm).2.2⟩⟩,
        ⟨fun hm => (hx _ hm).2.1 rfl, hn⟩, hl, hk, hb⟩
    · rintro ⟨⟨he, hes⟩, ⟨hs, hj⟩, ⟨⟨hd, hp⟩, hx⟩, ⟨hm, hn⟩, hl, hk, hb⟩
      refine ⟨hk, he, hs, hd, hp, hes, hj, fun x hxm => ⟨(hx x hxm).1, fun e => hm (e ▸ hxm), (hx x hxm).2⟩, hn, hl, hb⟩

theorem isWay_iff : IsWay g id r ↔ g.isDeclared id = true ∧ Onward g [id] id r := by
  rw [onward_iff]
  constructor
  · rintro ⟨he, hj, hd, hs, hl, hb⟩
    obtain ⟨hm, hn⟩ := List.nodup_cons.mp hs
    refine ⟨hd id (.head _), he, hj, fun x hx => ⟨hd x (.tail _ hx), ?_⟩, hn, hl, hb⟩
    intro e
    exact hm (List.mem_singleton.mp e ▸ hx)
  · rintro ⟨hd, he, hj, hx, hn, hl, hb⟩
    refine ⟨he, hj, ?_, List.nodup_cons.mpr ⟨fun hm => (hx id hm).2 (.head _), hn⟩, hl, hb⟩
    intro x hm
    rcases List.mem_cons.mp hm with rfl | hm
    · exact hd
    · exact (hx x hm).1

/-! ## Steps -/

namespace Search

/-- A search on a path, which has passed the ids on it. -/
def on (path : List (String × Nat)) (found : List (List String)) : Search := ⟨path, path.map (·.1), found⟩

variable {below : List (String × Nat)} {found : List (List String)} {looked : Nat} {e : Edge}

theorem step_finish (hk : g.kind? id = some .finish) : (on ((id, looked) :: below) found).step g =
    some (on below (((below.map (·.1)).reverse ++ [id]) :: found)) := by
  simp [step, on, hk]

theorem step_back (hk : g.kind? id ≠ some .finish) (he : (g.outgoing id)[looked]? = none) :
    (on ((id, looked) :: below) found).step g = some (on below found) := by
  simp [step, on, hk, he]

theorem step_pass (hk : g.kind? id ≠ some .finish) (he : (g.outgoing id)[looked]? = some e)
    (ht : ¬(g.isDeclared e.target = true ∧ e.target ∉ id :: below.map (·.1))) :
    (on ((id, looked) :: below) found).step g = some (on ((id, looked + 1) :: below) found) := by
  simp only [step, on, hk, he, List.map_cons, if_false]
  rw [if_neg (by simpa using ht)]

theorem step_follow (hk : g.kind? id ≠ some .finish) (he : (g.outgoing id)[looked]? = some e)
    (hd : g.isDeclared e.target = true) (ht : e.target ∉ id :: below.map (·.1)) :
    (on ((id, looked) :: below) found).step g = some (on ((e.target, 0) :: (id, looked + 1) :: below) found) := by
  simp only [step, on, hk, he, List.map_cons, if_false]
  rw [if_pos (by simpa using And.intro hd ht)]

/-- The search comes from one state to another. -/
def Comes (g : Graph) : Search → Search → Prop := ReflTransGen fun s s' => s.step g = some s'

theorem run_eq (g : Graph) (s : Search) : s.run g = (s.step g).elim s (run g) := by
  rw [run]
  split
  · next h => rw [h]; rfl
  · next h => rw [h]; rfl

theorem Comes.run {s s' : Search} (h : Comes g s s') : s.run g = s'.run g := by
  induction h with
  | refl => rfl
  | tail _ hs ih => rw [ih, run_eq, hs]; rfl

theorem run_of_step_eq_none {s : Search} (h : s.step g = none) : s.run g = s := by
  rw [run_eq, h]
  rfl

/-- The first steps of a search can be made by themselves. -/
theorem run_iterate (k : Nat) (s : Search) : ((fun s => (s.step g).getD s)^[k] s).run g = s.run g := by
  induction k generalizing s with
  | zero => rfl
  | succ k ih =>
    rw [Function.iterate_succ_apply, ih]
    cases hs : s.step g with
    | none => rfl
    | some s' => rw [run_eq g s, hs, Option.getD_some, Option.elim_some]

end Search

/-! ## Exploration -/

/-- The edges out of an id, with their places. -/
def numbered (g : Graph) (id : String) : List (Edge × Nat) := g.edges.zipIdx.filter (·.1.source = id)

theorem outgoing_eq (g : Graph) (id : String) : g.outgoing id = (g.numbered id).map (·.1) := by
  have split (es : List Edge) (k : Nat) :
      es.filter (·.source = id) = ((es.zipIdx k).filter (·.1.source = id)).map (·.1) := by
    induction es generalizing k with
    | nil => rfl
    | cons e es ih =>
      by_cases hs : e.source = id
      · simp [List.zipIdx_cons, hs, ih (k + 1)]
      · simp [List.zipIdx_cons, hs, ih (k + 1)]
  exact split g.edges 0

theorem mem_numbered {p : Edge × Nat} : p ∈ g.numbered id ↔ p ∈ g.edges.zipIdx ∧ p.1.source = id := by
  simp [numbered, List.mem_filter]

theorem numbered_pairwise (g : Graph) (id : String) : (g.numbered id).Pairwise (·.2 < ·.2) := by
  have places : g.edges.zipIdx.Pairwise (·.2 < ·.2) := by
    have range : (g.edges.zipIdx.map (·.2)).Pairwise (· < ·) := by
      rw [List.zipIdx_map_snd]
      exact List.pairwise_lt_range'
    exact List.pairwise_map.mp range
  exact places.filter _

/-- The declared ids that were not passed. -/
def unpassed (g : Graph) (passed : List String) : Finset String := (g.nodes.map (·.id)).toFinset \ passed.toFinset

theorem unpassed_cons_lt (hd : g.isDeclared id = true) (hp : id ∉ passed) :
    (g.unpassed (id :: passed)).card < (g.unpassed passed).card := by
  have declared : id ∈ g.nodes.map (·.id) := isDeclared_iff_mem.mp hd
  refine Finset.card_lt_card (Finset.ssubset_iff_subset_ne.mpr ⟨fun x hx => ?_, fun e => ?_⟩)
  · simp only [unpassed, List.toFinset_cons, Finset.mem_sdiff, Finset.mem_insert, not_or] at hx ⊢
    exact ⟨hx.1, hx.2.2⟩
  · have inside : id ∈ g.unpassed passed := by
      simp only [unpassed, Finset.mem_sdiff, List.mem_toFinset]
      exact ⟨declared, hp⟩
    rw [← e] at inside
    simp [unpassed] at inside

/-- What is reported of a route behind some path. -/
def reports (below : List (String × Nat)) (id : String) (routes : List Route) : List (List String) :=
  (routes.map fun r => (below.map (·.1)).reverse ++ r.nodes id).reverse

/-- A search that has just put an id on its path takes it off again. Meanwhile it has found each way
    onward from there once, in order. -/
def Explores (g : Graph) (below : List (String × Nat)) (id : String) : Prop :=
  ∃ routes : List Route, (∀ r, r ∈ routes ↔ Onward g (id :: below.map (·.1)) id r) ∧
    routes.Pairwise (fun r r' => r.places < r'.places) ∧
      ∀ found, Search.Comes g (.on ((id, 0) :: below) found) (.on below (reports below id routes ++ found))

theorem places_lt_of_head {p p' : Edge × Nat} {r r' : Route} (h : p.2 < p'.2) :
    Route.places (p :: r) < Route.places (p' :: r') :=
  List.Lex.rel h

theorem places_cons_lt {p : Edge × Nat} {r r' : Route} (h : r.places < r'.places) :
    Route.places (p :: r) < Route.places (p :: r') :=
  List.Lex.cons h

/-- What is left of a list from a place on begins with what stands there. -/
theorem cons_of_drop {α : Type} {as rest : List α} {a : α} {k : Nat} (h : as.drop k = a :: rest) :
    as[k]? = some a ∧ as.drop (k + 1) = rest := by
  constructor
  · rw [← List.head?_drop, h, List.head?_cons]
  · rw [← List.tail_drop, h, List.tail_cons]

/-- What is found along some of the edges out of an id: routes whose first edge is one of them, if each
    node that may be put on the path is explored. -/
theorem looked {below : List (String × Nat)} (hk : g.kind? id ≠ some .finish)
    (hx : ∀ (k : Nat) (x : String), g.isDeclared x = true → x ∉ id :: below.map (·.1) → g.Explores ((id, k) :: below) x)
    {ps : List (Edge × Nat)} {k : Nat} (hps : (g.numbered id).drop k = ps) :
    ∃ routes : List Route, (∀ r, r ∈ routes ↔ (∃ p ∈ ps, r.head? = some p) ∧ Onward g (id :: below.map (·.1)) id r) ∧
      routes.Pairwise (fun r r' => r.places < r'.places) ∧
        ∀ found, Search.Comes g (.on ((id, k) :: below) found) (.on below (reports below id routes ++ found)) := by
  have ordered : ps.Pairwise (·.2 < ·.2) := hps ▸ (g.numbered_pairwise id).drop
  induction ps generalizing k with
  | nil =>
    have none : (g.outgoing id)[k]? = none := by
      have few : (g.numbered id).length ≤ k := List.drop_eq_nil_iff.mp hps
      rw [outgoing_eq]
      simpa using few
    refine ⟨[], by simp, .nil, fun found => ?_⟩
    exact .single (Search.step_back hk none)
  | cons p ps ih =>
    obtain ⟨at_k, rest⟩ := cons_of_drop hps
    have edge : (g.outgoing id)[k]? = some p.1 := by
      rw [outgoing_eq, List.getElem?_map, at_k]
      rfl
    have declared : p ∈ g.edges.zipIdx ∧ p.1.source = id := mem_numbered.mp (List.mem_of_getElem? at_k)
    obtain ⟨smaller, ordered⟩ := List.pairwise_cons.mp ordered
    obtain ⟨routes, hr, hp, hc⟩ := ih rest ordered
    by_cases ht : g.isDeclared p.1.target = true ∧ p.1.target ∉ id :: below.map (·.1)
    · -- the edge is followed, and then come the edges behind it
      obtain ⟨onward, ho, hpo, hco⟩ := hx (k + 1) p.1.target ht.1 ht.2
      refine ⟨onward.map (p :: ·) ++ routes, fun r => ?_, ?_, fun found => ?_⟩
      · rw [List.mem_append, hr, List.mem_map]
        constructor
        · rintro (⟨t, hm, rfl⟩ | ⟨⟨q, hq, hh⟩, hw⟩)
          · exact ⟨⟨p, .head _, rfl⟩, .edge hk declared.1 declared.2 ht.1 ht.2 ((ho t).mp hm)⟩
          · exact ⟨⟨q, .tail _ hq, hh⟩, hw⟩
        · rintro ⟨⟨q, hq, hh⟩, hw⟩
          rcases List.mem_cons.mp hq with rfl | hq
          · left
            cases hw with
            | finish => cases hh
            | @edge _ _ q t _ _ _ _ _ hw =>
              obtain rfl : q = _ := Option.some.inj hh
              exact ⟨t, (ho t).mpr hw, rfl⟩
          · exact .inr ⟨⟨q, hq, hh⟩, hw⟩
      · refine List.pairwise_append.mpr ⟨?_, hp, ?_⟩
        · exact List.pairwise_map.mpr (hpo.imp fun h => places_cons_lt h)
        · intro r hm r' hm'
          obtain ⟨t, -, rfl⟩ := List.mem_map.mp hm
          obtain ⟨⟨q, hq, hh⟩, -⟩ := (hr r').mp hm'
          obtain ⟨t', rfl⟩ := List.head?_eq_some_iff.mp hh
          exact places_lt_of_head (smaller q hq)
      · have behind : reports below id (onward.map (p :: ·) ++ routes) ++ found =
            reports below id routes ++ (reports ((id, k + 1) :: below) p.1.target onward ++ found) := by
          simp [reports, Route.nodes, Function.comp_def]
        rw [behind]
        exact .head (Search.step_follow hk edge ht.1 ht.2) ((hco found).trans (hc _))
    · -- the edge is passed over, since no way goes along it
      refine ⟨routes, fun r => ?_, hp, fun found => .head (Search.step_pass hk edge ht) (hc found)⟩
      rw [hr]
      constructor
      · rintro ⟨⟨q, hq, hh⟩, hw⟩
        exact ⟨⟨q, .tail _ hq, hh⟩, hw⟩
      · rintro ⟨⟨q, hq, hh⟩, hw⟩
        rcases List.mem_cons.mp hq with rfl | hq
        · cases hw with
          | finish => cases hh
          | edge _ _ _ hd hn _ =>
            cases hh
            exact absurd ⟨hd, hn⟩ ht
        · exact ⟨⟨q, hq, hh⟩, hw⟩

/-- Every id is explored, by induction on how many declared ids are not on the path. -/
theorem explored (below : List (String × Nat)) (id : String) : g.Explores below id := by
  generalize hn : (g.unpassed (id :: below.map (·.1))).card = n
  induction n using Nat.strongRecOn generalizing below id with
  | ind n ih =>
    by_cases hk : g.kind? id = some .finish
    · refine ⟨[[]], fun r => ?_, List.pairwise_singleton .., fun found => ?_⟩
      · rw [List.mem_singleton]
        constructor
        · rintro rfl
          exact .finish hk
        · intro h
          cases h with
          | finish => rfl
          | edge hne => exact absurd hk hne
      · have once : reports below id [[]] ++ found = ((below.map (·.1)).reverse ++ [id]) :: found := by
          simp [reports, Route.nodes]
        rw [once]
        exact .single (Search.step_finish hk)
    · have further (k : Nat) (x : String) (hd : g.isDeclared x = true) (hx : x ∉ id :: below.map (·.1)) :
          g.Explores ((id, k) :: below) x :=
        ih _ (hn ▸ unpassed_cons_lt hd hx) _ _ rfl
      obtain ⟨routes, hr, hp, hc⟩ := looked hk further (k := 0) rfl
      refine ⟨routes, fun r => ?_, hp, hc⟩
      rw [hr, and_iff_right_iff_imp]
      intro h
      cases h with
      | finish hf => exact absurd hf hk
      | edge _ he hs => exact ⟨_, mem_numbered.mpr ⟨he, hs⟩, rfl⟩

/-! ## The search from the start node -/

/-- Whatever the graph, the search from its start node comes to an end after finitely many steps. It
    lists the nodes of every way to an end node, each way once, and in the order in which their edges
    are declared, compared from the first on. -/
theorem ways_are_found_in_order {n : Node} (h : g.start? = some n) :
    (∃ last, Search.Comes g (.start n.id) last ∧ last.step g = none ∧ g.ways = last.found.reverse) ∧
      ∃ routes : List Route, (∀ r, r ∈ routes ↔ IsWay g n.id r) ∧
        routes.Pairwise (fun r r' => r.places < r'.places) ∧ g.ways = routes.map (Route.nodes n.id) := by
  obtain ⟨routes, hr, hp, hc⟩ := g.explored [] n.id
  have comes : Search.Comes g (.start n.id) (.on [] (reports [] n.id routes)) := by
    have found := hc []
    rwa [List.append_nil] at found
  have ended : (Search.on [] (reports [] n.id routes)).step g = none := rfl
  have ways : g.ways = (Search.on [] (reports [] n.id routes)).found.reverse := by
    rw [Graph.ways, h]
    show ((Search.start n.id).run g).found.reverse = _
    rw [comes.run, Search.run_of_step_eq_none ended]
  refine ⟨⟨_, comes, ended, ways⟩, routes, fun r => ?_, hp, ?_⟩
  · rw [hr, isWay_iff, and_iff_right (isDeclared_of_mem (List.mem_of_find?_eq_some h))]
    rfl
  · simp [ways, Search.on, reports]

/-- Two edges side by side, a circle, an edge to nowhere, and an edge out of the end. -/
def tangle : Graph where
  id := "tangle"
  version := "1.0"
  name := ""
  description := ""
  metadata := none
  strategy := .abort
  maxRetries := 0
  retryDelay := none
  nodes := [{ id := "start", kind := .start }, { id := "a", kind := .merge }, { id := "b", kind := .merge },
    { id := "end", kind := .finish }]
  edges := [{ source := "start", target := "a" }, { source := "start", target := "a" }, { source := "a", target := "b" },
    { source := "b", target := "a" }, { source := "b", target := "end" }, { source := "a", target := "nowhere" },
    { source := "a", target := "end" }, { source := "end", target := "b" }]

/-- It has two ways behind each of the two edges. -/
theorem a_tangle_has_four_ways : tangle.start? = some { id := "start", kind := .start } ∧
    ∃ routes : List Route, (∀ r, r ∈ routes ↔ IsWay tangle "start" r) ∧
      routes.Pairwise (fun r r' => r.places < r'.places) ∧ routes.map (Route.nodes "start") =
        [["start", "a", "b", "end"], ["start", "a", "end"], ["start", "a", "b", "end"], ["start", "a", "end"]] := by
  have begins : tangle.start? = some { id := "start", kind := .start } := by decide +kernel
  obtain ⟨-, routes, hr, hp, hw⟩ := ways_are_found_in_order begins
  refine ⟨begins, routes, hr, hp, hw.symm.trans ?_⟩
  rw [ways, begins]
  show ((Search.start "start").run tangle).found.reverse = _
  have ended : ((fun s : Search => (s.step tangle).getD s)^[23] (.start "start")).step tangle = none := by decide +kernel
  rw [← Search.run_iterate 23, Search.run_of_step_eq_none ended]
  decide +kernel

end Capability.Graph
