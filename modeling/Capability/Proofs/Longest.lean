/-
  Capability.Proofs.Longest — the depth of a graph is the length of its longest simple path.

  The search keeps one path, and takes an id off it again once every edge out of it was looked at. So
  other paths may come by the same id, and how far the search gets behind an id depends on the ids of
  the path alone. It is as far as a trail gets from there that avoids them.

  (1) `Descent.step_back`, `step_pass`, `step_follow`: what one step does to a path and to the depth.
  (2) `sounded_edges`, `sounded`: behind every id that is put on the path the search gets as far as the
      longest trail.
  (3) `IsTrail.mono`, `IsTrail.length_lt`, `IsWay.isTrail`: longest trails of different graphs, in a
      graph without dangling edges, and beside ways.
  (4) `depth_is_of_the_longest_trail`: so the search ends with the length of the longest trail.
-/

import Capability.Proofs.Ways
import Mathlib.Data.List.Perm.Subperm
import Mathlib.Order.Bounds.Basic

namespace Capability.Graph

open Relation

/-! ## Trails -/

/-- The ids that edges from an id come to, the first included. -/
def stops (start : String) (es : List Edge) : List String := start :: es.map (·.target)

/-- A trail from an id: its edges are declared and lead from each id to the next one, and no id is
    repeated. -/
structure IsTrail (g : Graph) (start : String) (es : List Edge) : Prop where
  edges : ∀ e ∈ es, e ∈ g.edges
  joined : es.map (·.source) = (stops start es).dropLast
  simple : (stops start es).Nodup

/-- How a trail may go on from an id, when some ids were passed. -/
inductive Trails (g : Graph) : List String → String → List Edge → Prop
  | stay (passed : List String) (id : String) : Trails g passed id []
  | edge {passed : List String} {id : String} {e : Edge} {es : List Edge} : e ∈ g.edges → e.source = id →
      e.target ∉ passed → Trails g (e.target :: passed) e.target es → Trails g passed id (e :: es)

variable {g : Graph} {id : String} {passed : List String} {es : List Edge}

theorem trails_iff : Trails g passed id es ↔ (∀ e ∈ es, e ∈ g.edges) ∧ es.map (·.source) = (stops id es).dropLast ∧
    (∀ x ∈ es.map (·.target), x ∉ passed) ∧ (es.map (·.target)).Nodup := by
  induction es generalizing passed id with
  | nil =>
    refine iff_of_true (.stay passed id) ?_
    simp [stops]
  | cons e es ih =>
    have stops_cons : stops id (e :: es) = id :: stops e.target es := rfl
    have further : stops e.target es ≠ [] := List.cons_ne_nil _ _
    rw [stops_cons, List.dropLast_cons_of_ne_nil further]
    simp only [List.map_cons, List.forall_mem_cons, List.cons.injEq, List.nodup_cons]
    constructor
    · intro h
      cases h with
      | edge he hs ht h =>
        obtain ⟨hes, hj, hp, hn⟩ := ih.mp h
        simp only [List.mem_cons, not_or] at hp
        exact ⟨⟨he, hes⟩, ⟨hs, hj⟩, ⟨ht, fun x hx => (hp x hx).2⟩, fun hx => (hp _ hx).1 rfl, hn⟩
    · rintro ⟨⟨he, hes⟩, ⟨hs, hj⟩, ⟨ht, hp⟩, hx, hn⟩
      refine .edge he hs ht (ih.mpr ⟨hes, hj, fun x hm => ?_, hn⟩)
      simp only [List.mem_cons, not_or]
      exact ⟨fun e => hx (e ▸ hm), hp x hm⟩

theorem isTrail_iff : IsTrail g id es ↔ Trails g [id] id es := by
  rw [trails_iff]
  constructor
  · rintro ⟨he, hj, hs⟩
    obtain ⟨hid, hn⟩ := List.nodup_cons.mp hs
    refine ⟨he, hj, fun x hx e => ?_, hn⟩
    exact hid (List.mem_singleton.mp e ▸ hx)
  · rintro ⟨he, hj, hp, hn⟩
    exact ⟨he, hj, List.nodup_cons.mpr ⟨fun hx => hp id hx (.head _), hn⟩⟩

/-- The lengths of trails. -/
def trailLengths (g : Graph) (start : String) : Set Nat := {k | ∃ es, g.IsTrail start es ∧ es.length = k}

/-- A trail stays one if edges are added. -/
theorem IsTrail.mono {g' : Graph} (h : g.IsTrail id es) (he : g.edges ⊆ g'.edges) : g'.IsTrail id es :=
  ⟨fun e hm => he (h.edges e hm), h.joined, h.simple⟩

/-- Without dangling edges a trail comes to different declared nodes. -/
theorem IsTrail.length_lt (h : g.IsTrail id es) (hid : g.isDeclared id = true)
    (closed : ∀ e ∈ g.edges, g.isDeclared e.target = true) : es.length < g.nodes.length := by
  have declared : stops id es ⊆ g.nodes.map (·.id) := by
    intro x hx
    rcases List.mem_cons.mp hx with rfl | hx
    · exact isDeclared_iff_mem.mp hid
    · obtain ⟨e, he, rfl⟩ := List.mem_map.mp hx
      exact isDeclared_iff_mem.mp (closed e (h.edges e he))
  have few : (stops id es).length ≤ (g.nodes.map (·.id)).length := (h.simple.subperm declared).length_le
  simpa [stops, Nat.succ_le_iff] using few

/-- The edges of a way are a trail. -/
theorem IsWay.isTrail {r : Route} (h : g.IsWay id r) : g.IsTrail id (r.map (·.1)) := by
  have nodes : stops id (r.map (·.1)) = r.nodes id := by simp [stops, Route.nodes, Function.comp_def]
  refine ⟨fun e he => ?_, ?_, nodes ▸ h.simple⟩
  · obtain ⟨p, hp, rfl⟩ := List.mem_map.mp he
    exact List.fst_mem_of_mem_zipIdx (h.edges p hp)
  · rw [nodes, ← h.joined, List.map_map]
    rfl

/-! ## Steps -/

namespace Descent

/-- A search on a path, which has passed the ids on it. -/
def on (path : List (String × Nat)) (deepest : Nat) : Descent := ⟨path, path.map (·.1), deepest⟩

variable {below : List (String × Nat)} {deepest looked : Nat} {e : Edge}

theorem step_back (he : (g.outgoing id)[looked]? = none) :
    (on ((id, looked) :: below) deepest).step g = some (on below (max deepest below.length)) := by
  simp [step, on, he]

theorem step_pass (he : (g.outgoing id)[looked]? = some e) (ht : e.target ∈ id :: below.map (·.1)) :
    (on ((id, looked) :: below) deepest).step g =
      some (on ((id, looked + 1) :: below) (max deepest below.length)) := by
  simp only [step, on, he, List.map_cons]
  rw [if_pos (by simpa using ht)]

theorem step_follow (he : (g.outgoing id)[looked]? = some e) (ht : e.target ∉ id :: below.map (·.1)) :
    (on ((id, looked) :: below) deepest).step g =
      some (on ((e.target, 0) :: (id, looked + 1) :: below) (max deepest below.length)) := by
  simp only [step, on, he, List.map_cons]
  rw [if_neg (by simpa using ht)]

/-- The search comes from one state to another. -/
def Comes (g : Graph) : Descent → Descent → Prop := ReflTransGen fun d d' => d.step g = some d'

theorem run_eq (g : Graph) (d : Descent) : d.run g = (d.step g).elim d (run g) := by
  rw [run]
  split
  · next h => rw [h]; rfl
  · next h => rw [h]; rfl

theorem Comes.run {d d' : Descent} (h : Comes g d d') : d.run g = d'.run g := by
  induction h with
  | refl => rfl
  | tail _ hs ih => rw [ih, run_eq, hs]; rfl

/-- The search gets from one state to another and has then been as deep as `depth`. -/
def Sounds (g : Graph) (path path' : List (String × Nat)) (depth : Nat) : Prop :=
  ∀ deepest, Comes g (on path deepest) (on path' (max deepest depth))

theorem Sounds.then {path₁ path₂ path₃ : List (String × Nat)} {depth depth' : Nat} (h : Sounds g path₁ path₂ depth)
    (h' : Sounds g path₂ path₃ depth') : Sounds g path₁ path₃ (max depth depth') := by
  intro deepest
  rw [← max_assoc]
  exact (h deepest).trans (h' _)

end Descent

/-! ## Soundings -/

/-- How far trails get that go on from an id when some ids were passed, if their first edge is one of
    `es`. -/
def reaches (g : Graph) (passed : List String) (id : String) (es : List Edge) : Set Nat :=
  {k | ∃ t, Trails g passed id t ∧ (∀ e ∈ t.head?, e ∈ es) ∧ t.length = k}

theorem reaches_nil : IsGreatest (g.reaches passed id []) 0 := by
  refine ⟨⟨[], .stay passed id, by simp, rfl⟩, ?_⟩
  rintro k ⟨t, -, hf, rfl⟩
  cases t with
  | nil => exact Nat.le_refl _
  | cons e t => exact absurd (hf e rfl) List.not_mem_nil

/-- An edge to an id that was passed leads nowhere. -/
theorem reaches_cons_passed {e : Edge} (ht : e.target ∈ passed) : g.reaches passed id (e :: es) = g.reaches passed id es := by
  ext k
  constructor
  · rintro ⟨t, h, hf, rfl⟩
    refine ⟨t, h, fun a ha => ?_, rfl⟩
    rcases List.mem_cons.mp (hf a ha) with rfl | hm
    · cases h with
      | stay => cases ha
      | edge _ _ hn _ =>
        obtain rfl := Option.some.inj ha
        exact absurd ht hn
    · exact hm
  · rintro ⟨t, h, hf, rfl⟩
    exact ⟨t, h, fun a ha => .tail _ (hf a ha), rfl⟩

/-- Along another edge trails get one further than from its target. -/
theorem reaches_cons {e : Edge} {k l : Nat} (he : e ∈ g.outgoing id) (ht : e.target ∉ passed)
    (hk : IsGreatest (g.reaches (e.target :: passed) e.target (g.outgoing e.target)) k)
    (hl : IsGreatest (g.reaches passed id es) l) : IsGreatest (g.reaches passed id (e :: es)) (max (k + 1) l) := by
  obtain ⟨⟨t, hrail, -, rfl⟩, hmost⟩ := hk
  obtain ⟨⟨u, hu, huf, rfl⟩, hleast⟩ := hl
  obtain ⟨hedge, hsource⟩ := List.mem_filter.mp he
  have source : e.source = id := of_decide_eq_true hsource
  constructor
  · rcases max_choice (t.length + 1) u.length with hm | hm <;> rw [hm]
    · exact ⟨e :: t, .edge hedge source ht hrail, by simp, rfl⟩
    · exact ⟨u, hu, fun a ha => .tail _ (huf a ha), rfl⟩
  · rintro _ ⟨v, hv, hvf, rfl⟩
    cases v with
    | nil => exact Nat.zero_le _
    | cons a v =>
      rcases List.mem_cons.mp (hvf a rfl) with rfl | hm
      · cases hv with
        | edge _ _ _ hv =>
          refine le_max_of_le_left (Nat.succ_le_succ (hmost ⟨v, hv, fun b hb => ?_, rfl⟩))
          cases hv with
          | stay => cases hb
          | edge hedge hs _ _ =>
            obtain rfl := Option.some.inj hb
            exact List.mem_filter.mpr ⟨hedge, by simpa using hs⟩
      · exact le_max_of_le_right (hleast ⟨a :: v, hv, by simpa using hm, rfl⟩)

/-- Behind an id that is put on its path, the search gets as far as trails do that go on from there,
    until it takes the id off again. -/
def Sounded (g : Graph) (below : List (String × Nat)) (id : String) : Prop :=
  ∃ k, IsGreatest (g.reaches (id :: below.map (·.1)) id (g.outgoing id)) k ∧
    Descent.Sounds g ((id, 0) :: below) below (below.length + k)

/-- So it is along some of the edges out of an id, if it is so behind every id that may be put on the
    path. -/
theorem sounded_edges {below : List (String × Nat)}
    (hx : ∀ (j : Nat), ∀ e ∈ g.edges, e.target ∉ id :: below.map (·.1) → g.Sounded ((id, j) :: below) e.target)
    {j : Nat} (hes : (g.outgoing id).drop j = es) :
    ∃ k, IsGreatest (g.reaches (id :: below.map (·.1)) id es) k ∧
      Descent.Sounds g ((id, j) :: below) below (below.length + k) := by
  induction es generalizing j with
  | nil =>
    have none : (g.outgoing id)[j]? = none := List.getElem?_eq_none (List.drop_eq_nil_iff.mp hes)
    exact ⟨0, reaches_nil, fun deepest => .single (Descent.step_back none)⟩
  | cons e es ih =>
    obtain ⟨edge, rest⟩ := cons_of_drop hes
    have out : e ∈ g.outgoing id := List.mem_of_getElem? edge
    obtain ⟨l, hl, hsl⟩ := ih rest
    by_cases ht : e.target ∈ id :: below.map (·.1)
    · refine ⟨l, (reaches_cons_passed ht).symm ▸ hl, ?_⟩
      have passed : Descent.Sounds g ((id, j) :: below) ((id, j + 1) :: below) below.length :=
        fun deepest => .single (Descent.step_pass edge ht)
      simpa using passed.then hsl
    · obtain ⟨k, hk, hsk⟩ := hx (j + 1) e (List.mem_filter.mp out).1 ht
      refine ⟨max (k + 1) l, reaches_cons out ht hk hl, ?_⟩
      have followed : Descent.Sounds g ((id, j) :: below) ((e.target, 0) :: (id, j + 1) :: below) below.length :=
        fun deepest => .single (Descent.step_follow edge ht)
      have depth : max below.length (max (below.length + 1 + k) (below.length + l)) = below.length + max (k + 1) l := by
        omega
      exact depth ▸ followed.then (hsk.then hsl)

/-- So it is behind every id, by induction on the edges to ids that are not on the path. -/
theorem sounded (below : List (String × Nat)) (id : String) : g.Sounded below id := by
  generalize hr : Search.room (g.edges.map (·.target)) (id :: below.map (·.1)) = room
  induction room using Nat.strongRecOn generalizing below id with
  | ind room ih =>
    have behind (j : Nat) (e : Edge) (he : e ∈ g.edges) (ht : e.target ∉ id :: below.map (·.1)) :
        g.Sounded ((id, j) :: below) e.target := by
      have taken := Search.room_cons (g.edges.map (·.target)) ht
      have place : 0 < (g.edges.map (·.target)).count e.target := List.count_pos_iff.mpr (List.mem_map.mpr ⟨e, he, rfl⟩)
      have less : Search.room (g.edges.map (·.target)) (e.target :: id :: below.map (·.1)) < room := by omega
      exact ih _ less ((id, j) :: below) e.target rfl
    exact sounded_edges behind rfl

/-- Every trail begins with an edge out of its first id. -/
theorem reaches_outgoing : g.reaches [id] id (g.outgoing id) = g.trailLengths id := by
  ext k
  constructor
  · rintro ⟨t, h, -, rfl⟩
    exact ⟨t, isTrail_iff.mpr h, rfl⟩
  · rintro ⟨t, h, rfl⟩
    have trails := isTrail_iff.mp h
    refine ⟨t, trails, fun e he => ?_, rfl⟩
    cases trails with
    | stay => cases he
    | edge hedge hs _ _ =>
      obtain rfl := Option.some.inj he
      exact List.mem_filter.mpr ⟨hedge, by simpa using hs⟩

/-- The search from the start node comes to its end at the length of the longest trail. -/
theorem descent_ends {n : Node} (h : g.start? = some n) : IsGreatest (g.trailLengths n.id) g.maxDepth ∧
    ∃ last, Descent.Comes g (.start n.id) last ∧ last.step g = none ∧ g.maxDepth = last.deepest := by
  obtain ⟨k, hk, hs⟩ := g.sounded [] n.id
  have comes : Descent.Comes g (.start n.id) (.on [] (max 0 (0 + k))) := hs 0
  have ended : (Descent.on [] (max 0 (0 + k))).step g = none := rfl
  have depth : g.maxDepth = (Descent.on [] (max 0 (0 + k))).deepest := by
    rw [maxDepth, h]
    show ((Descent.start n.id).run g).deepest = _
    rw [comes.run, Descent.run_eq, ended, Option.elim_none]
  have same : (Descent.on [] (max 0 (0 + k))).deepest = k := by simp [Descent.on]
  rw [List.map_nil, reaches_outgoing] at hk
  exact ⟨(depth.trans same) ▸ hk, _, comes, ended, depth⟩

/-- What the search for ways finds are the nodes of ways. -/
theorem isWay_of_mem_ways {n : Node} (h : g.start? = some n) {way : List String} (hw : way ∈ g.ways) :
    ∃ r, g.IsWay n.id r ∧ way = r.nodes n.id := by
  obtain ⟨routes, hr, -, hc⟩ := g.explored [] n.id
  have comes : Search.Comes g (.start n.id) (.on [] (reports [] n.id routes ++ [])) := hc []
  have ended : (Search.on [] (reports [] n.id routes ++ [])).step g = none := rfl
  have found : g.ways = (reports [] n.id routes ++ []).reverse := by
    rw [ways, h]
    show ((Search.start n.id).run g).found.reverse = _
    rw [comes.run, Search.run_of_step_eq_none ended]
    rfl
  rw [found] at hw
  obtain ⟨r, hm, rfl⟩ : ∃ r ∈ routes, r.nodes n.id = way := by simpa [reports] using hw
  exact ⟨r, isWay_iff.mpr ⟨isDeclared_of_mem (List.mem_of_find?_eq_some h), (hr r).mp hm⟩, rfl⟩

/-! ## The depth -/

/-- Whatever the graph, the search from its start node comes to an end after finitely many steps, and
    its depth is the most edges that a trail from the start node has. So the depth does not fall when
    edges are added, does not depend on the order in which they are declared, and is not exceeded by the
    edges of any way. Without dangling edges it is less than the number of nodes. -/
theorem depth_is_of_the_longest_trail {n : Node} (h : g.start? = some n) :
    (∃ last, Descent.Comes g (.start n.id) last ∧ last.step g = none ∧ g.maxDepth = last.deepest) ∧
      IsGreatest (g.trailLengths n.id) g.maxDepth ∧
      (∀ edges, g.edges ⊆ edges → g.maxDepth ≤ { g with edges := edges }.maxDepth) ∧
      (∀ edges, g.edges.Perm edges → { g with edges := edges }.maxDepth = g.maxDepth) ∧
      (∀ way ∈ g.ways, way.length ≤ g.maxDepth + 1) ∧
      ((∀ e ∈ g.edges, g.isDeclared e.source = true ∧ g.isDeclared e.target = true) →
        g.maxDepth < g.nodes.length) := by
  obtain ⟨⟨⟨deepest, trail, hlength⟩, most⟩, ended⟩ := descent_ends h
  have le_of_subset (g₁ g₂ : Graph) (h₁ : g₁.start? = some n) (h₂ : g₂.start? = some n) (he : g₁.edges ⊆ g₂.edges) :
      g₁.maxDepth ≤ g₂.maxDepth := by
    obtain ⟨⟨es, hes, hl⟩, -⟩ := (descent_ends h₁).1
    exact hl ▸ (descent_ends h₂).1.2 ⟨es, hes.mono he, rfl⟩
  refine ⟨ended, ⟨⟨deepest, trail, hlength⟩, most⟩, fun edges he => ?_, fun edges he => ?_, fun way hw => ?_,
    fun closed => ?_⟩
  · exact le_of_subset g { g with edges := edges } h h he
  · exact Nat.le_antisymm (le_of_subset { g with edges := edges } g h h he.symm.subset)
      (le_of_subset g { g with edges := edges } h h he.subset)
  · obtain ⟨r, hr, rfl⟩ := isWay_of_mem_ways h hw
    have within : r.length ≤ g.maxDepth := most ⟨_, hr.isTrail, List.length_map ..⟩
    simpa [Route.nodes] using within
  · have declared := isDeclared_of_mem (List.mem_of_find?_eq_some h)
    exact hlength ▸ trail.length_lt declared fun e he => (closed e he).2

/-- The longest way to `y` is not the first one, and there is a circle behind it. -/
def detour : Graph where
  id := "detour"
  version := "1.0"
  name := ""
  description := ""
  metadata := none
  strategy := .abort
  maxRetries := 0
  retryDelay := none
  nodes := [{ id := "start", kind := .start }, { id := "y", kind := .merge }, { id := "x", kind := .merge },
    { id := "end", kind := .finish }]
  edges := [{ source := "start", target := "y" }, { source := "start", target := "x" }, { source := "x", target := "y" },
    { source := "y", target := "x" }, { source := "y", target := "end" }]

/-- It is three edges deep, in whatever order they are declared, and not less deep with one more edge. -/
theorem a_detour_is_three_edges_deep : detour.start? = some { id := "start", kind := .start } ∧
    (∀ e ∈ detour.edges, detour.isDeclared e.source = true ∧ detour.isDeclared e.target = true) ∧ detour.maxDepth = 3 ∧
    { detour with edges := detour.edges.reverse }.maxDepth = 3 ∧
    3 ≤ { detour with edges := { source := "end", target := "x" } :: detour.edges }.maxDepth ∧
    ["start", "x", "y", "end"] ∈ detour.ways ∧ ∀ way ∈ detour.ways, way.length ≤ 4 := by
  have begins : detour.start? = some { id := "start", kind := .start } := by decide +kernel
  have closed : ∀ e ∈ detour.edges, detour.isDeclared e.source = true ∧ detour.isDeclared e.target = true := by
    decide +kernel
  obtain ⟨-, ⟨-, most⟩, added, permuted, ways, bound⟩ := depth_is_of_the_longest_trail begins
  have round : detour.IsTrail "start" [{ source := "start", target := "x" }, { source := "x", target := "y" },
      { source := "y", target := "end" }] :=
    ⟨by simp [detour], by simp [stops], by simp [stops]⟩
  have depth : detour.maxDepth = 3 := Nat.le_antisymm (Nat.le_of_lt_succ (bound closed)) (most ⟨_, round, rfl⟩)
  rw [depth] at added permuted ways
  have longest : ["start", "x", "y", "end"] ∈ detour.ways := by
    rw [Graph.ways, begins]
    show _ ∈ ((Search.start "start").run detour).found.reverse
    have ended : ((fun s : Search => (s.step detour).getD s)^[15] (.start "start")).step detour = none := by
      decide +kernel
    rw [← Search.run_iterate 15, Search.run_of_step_eq_none ended]
    decide +kernel
  exact ⟨begins, closed, depth, permuted _ detour.edges.reverse_perm.symm, added _ (List.subset_cons_self ..), longest, ways⟩

end Capability.Graph
