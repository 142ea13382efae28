/-
  Capability.Graph.Paths — the simple paths of a graph.

  A simple path repeats no id. It starts at the start node and follows edges of any kind;
  a way through the graph also passes declared nodes only and ends at the first end node it
  meets. The ways and the longest simple path are found depth first, along one path that grows and
  shrinks again; `Search.effort_step` and `Descent.effort_step` are why this comes to an end in every
  graph.
-/

import Capability.Graph.Basic

namespace Capability.Graph

/-- A search for ways: the path it is on, its last node first, each with the number of the edges out
    of it that were looked at; the ids on that path; and the ways found so far, the last one first. -/
structure Search where
  path : List (String × Nat)
  passed : List String
  found : List (List String) := []
  deriving Inhabited

namespace Search

def start (id : String) : Search := { path := [(id, 0)], passed := [id] }

/-- Looks at the next edge out of the last node of the path, and follows it to a node that is not on
    the path. Where the path has come to an end node, or no edge is left, its last node is taken off
    again. None if there is no path any more. -/
def step (g : Graph) (s : Search) : Option Search :=
  match s.path with
  | [] => none
  | (id, looked) :: below =>
    if g.kind? id = some .finish then
      some { path := below, passed := s.passed.erase id, found := (s.path.map (·.1)).reverse :: s.found }
    else match (g.outgoing id)[looked]? with
      | none => some { s with path := below, passed := s.passed.erase id }
      | some e =>
        let path := (id, looked + 1) :: below
        if g.isDeclared e.target && !s.passed.contains e.target then
          some { s with path := (e.target, 0) :: path, passed := e.target :: s.passed }
        else some { s with path }

/-! The ids that are not on the path leave room for it to grow, and of every id on it some edges were
    not looked at yet. Together they bound the steps that a search can still make. -/

/-- How often ids that are not on the path are listed in `ids`. -/
def room (ids passed : List String) : Nat := ids.countP (· ∉ passed)

/-- Enough steps for an id that is put on the path, if there is room for that many more ids. -/
def behind (g : Graph) : Nat → Nat
  | 0 => 0
  | room + 1 => 1 + g.edges.length * (1 + behind g room)

/-- Enough steps for a path until all of its ids are taken off again, if it grows by ids that are
    listed in `ids` only. -/
def along (g : Graph) (ids : List String) : List (String × Nat) → Nat → Nat
  | [], _ => 0
  | (id, looked) :: below, room =>
    1 + ((g.outgoing id).length - looked) * (1 + behind g room) + along g ids below (room + ids.count id)

/-- Enough steps for a search. -/
def effort (g : Graph) (s : Search) : Nat :=
  along g (g.nodes.map (·.id)) s.path (room (g.nodes.map (·.id)) s.passed)

section Measure

variable {g : Graph} {ids passed : List String} {id : String} {looked : Nat} {below : List (String × Nat)} {e : Edge}

theorem behind_mono {room room' : Nat} (h : room ≤ room') : behind g room ≤ behind g room' := by
  induction room generalizing room' with
  | zero => exact Nat.zero_le _
  | succ room ih =>
    obtain _ | room' := room'
    · omega
    · have below := Nat.mul_le_mul_left g.edges.length (Nat.add_le_add_left (ih (Nat.le_of_succ_le_succ h)) 1)
      simp only [behind]
      omega

theorem along_mono (path : List (String × Nat)) {room room' : Nat} (h : room ≤ room') :
    along g ids path room ≤ along g ids path room' := by
  induction path generalizing room room' with
  | nil => exact Nat.le_refl _
  | cons p path ih =>
    have top := Nat.mul_le_mul_left ((g.outgoing p.1).length - p.2) (Nat.add_le_add_left (behind_mono (g := g) h) 1)
    have rest := ih (Nat.add_le_add_right h (ids.count p.1))
    simp only [along]
    omega

/-- Taking an id off the path makes room where it is listed at most. -/
theorem room_erase (ids passed : List String) (id : String) :
    room ids (passed.erase id) ≤ room ids passed + ids.count id := by
  induction ids with
  | nil => exact Nat.le_refl _
  | cons a ids ih =>
    simp only [room, List.countP_cons, List.count_cons] at ih ⊢
    by_cases ha : a = id
    · subst ha
      simp only [beq_self_eq_true, if_true]
      split <;> split <;> omega
    · have same : a ∈ passed.erase id ↔ a ∈ passed := List.mem_erase_of_ne ha
      simp only [same, beq_iff_eq, ha, if_false]
      omega

/-- Putting an id on it takes just this room. -/
theorem room_cons (ids : List String) (h : id ∉ passed) : room ids (id :: passed) + ids.count id = room ids passed := by
  induction ids with
  | nil => rfl
  | cons a ids ih =>
    simp only [room, List.countP_cons, List.count_cons, decide_eq_true_eq] at ih ⊢
    by_cases ha : a = id
    · subst ha
      rw [if_neg (by simp), if_pos h]
      simp only [beq_self_eq_true, if_true]
      omega
    · have same : a ∉ id :: passed ↔ a ∉ passed := by simp [ha]
      simp only [same, beq_iff_eq, ha, if_false]
      omega

theorem along_back : along g ids below (room ids (passed.erase id)) < along g ids ((id, looked) :: below) (room ids passed) := by
  have rest : along g ids below (room ids (passed.erase id)) ≤ along g ids below (room ids passed + ids.count id) :=
    along_mono below (room_erase ids passed id)
  simp only [along]
  omega

theorem along_pass (he : (g.outgoing id)[looked]? = some e) (room : Nat) :
    along g ids ((id, looked + 1) :: below) room < along g ids ((id, looked) :: below) room := by
  obtain ⟨bound, -⟩ := List.getElem?_eq_some_iff.mp he
  have left : (g.outgoing id).length - looked = (g.outgoing id).length - (looked + 1) + 1 := by omega
  simp only [along, left, Nat.add_mul]
  omega

theorem along_follow (he : (g.outgoing id)[looked]? = some e) (ht : e.target ∈ ids) (hp : e.target ∉ passed) :
    along g ids ((e.target, 0) :: (id, looked + 1) :: below) (room ids (e.target :: passed)) <
      along g ids ((id, looked) :: below) (room ids passed) := by
  obtain ⟨bound, -⟩ := List.getElem?_eq_some_iff.mp he
  have left : (g.outgoing id).length - looked = (g.outgoing id).length - (looked + 1) + 1 := by omega
  have taken := room_cons ids hp
  have place : 0 < ids.count e.target := List.count_pos_iff.mpr ht
  -- What lies behind the new id is less than what was allowed for the edge to it.
  have target : behind g (room ids (e.target :: passed) + 1) ≤ behind g (room ids passed) := behind_mono (by omega)
  have edges : (g.outgoing e.target).length ≤ g.edges.length := List.length_filter_le ..
  have onwards := Nat.mul_le_mul_right (1 + behind g (room ids (e.target :: passed))) edges
  simp only [behind] at target
  simp only [along, left, taken, Nat.succ_mul, Nat.sub_zero]
  omega

end Measure

theorem listed_of_declared {g : Graph} {id : String} (h : g.isDeclared id = true) : id ∈ g.nodes.map (·.id) := by
  obtain ⟨n, hn⟩ := Option.isSome_iff_exists.mp h
  exact List.mem_map.mpr ⟨n, List.mem_of_find?_eq_some hn,
    of_decide_eq_true (List.find?_some (p := fun n : Node => decide (n.id = id)) hn)⟩

/-- Every step leaves less to do. -/
theorem effort_step {g : Graph} {s s' : Search} (h : s.step g = some s') : s'.effort g < s.effort g := by
  obtain ⟨path, passed, found⟩ := s
  obtain _ | ⟨⟨id, looked⟩, below⟩ := path
  · cases h
  simp only [step] at h
  split at h
  · cases h
    exact along_back
  split at h
  · cases h
    exact along_back
  next e he =>
  split at h
  · next onward =>
    cases h
    simp only [Bool.and_eq_true, Bool.not_eq_true', List.contains_eq_mem, decide_eq_false_iff_not] at onward
    exact along_follow he (listed_of_declared onward.1) onward.2
  · cases h
    exact along_pass he _

/-- Goes on step by step until there is no path any more. -/
def run (g : Graph) (s : Search) : Search :=
  match _h : s.step g with
  | none => s
  | some s' => run g s'
termination_by s.effort g
decreasing_by exact effort_step _h

end Search

/-- Every way from the start node to an end node, in the order of edges. -/
def ways (g : Graph) : List (List String) :=
  match g.start? with
  | none => []
  | some n => ((Search.start n.id).run g).found.reverse

/-- A search for the longest simple path: the path it is on, its last id first, each with the number of
    the edges out of it that were looked at; the ids on that path; and the most edges that a path had so
    far. -/
structure Descent where
  path : List (String × Nat)
  passed : List String
  deepest : Nat := 0
  deriving Inhabited

namespace Descent

def start (id : String) : Descent := { path := [(id, 0)], passed := [id] }

/-- Looks at the next edge out of the last id of the path, and follows it to an id that is not on the
    path. Where no edge is left, the last id is taken off again. None if there is no path any more. -/
def step (g : Graph) (d : Descent) : Option Descent :=
  match d.path with
  | [] => none
  | (id, looked) :: below =>
    let deepest := max d.deepest below.length
    match (g.outgoing id)[looked]? with
    | none => some { path := below, passed := d.passed.erase id, deepest }
    | some e =>
      let path := (id, looked + 1) :: below
      if d.passed.contains e.target then some { d with path, deepest }
      else some { path := (e.target, 0) :: path, passed := e.target :: d.passed, deepest }

/-- Enough steps for a search; its path grows along edges only. -/
def effort (g : Graph) (d : Descent) : Nat :=
  Search.along g (g.edges.map (·.target)) d.path (Search.room (g.edges.map (·.target)) d.passed)

/-- Here, too, every step leaves less to do. -/
theorem effort_step {g : Graph} {d d' : Descent} (h : d.step g = some d') : d'.effort g < d.effort g := by
  obtain ⟨path, passed, deepest⟩ := d
  obtain _ | ⟨⟨id, looked⟩, below⟩ := path
  · cases h
  simp only [step] at h
  split at h
  · cases h
    exact Search.along_back
  next e he =>
  split at h
  · cases h
    exact Search.along_pass he _
  · next fresh =>
    cases h
    have edge : e ∈ g.edges := (List.mem_filter.mp (List.mem_of_getElem? he)).1
    exact Search.along_follow he (List.mem_map.mpr ⟨e, edge, rfl⟩) (by simpa using fresh)

/-- Goes on step by step until there is no path any more. -/
def run (g : Graph) (d : Descent) : Descent :=
  match _h : d.step g with
  | none => d
  | some d' => run g d'
termination_by d.effort g
decreasing_by exact effort_step _h

end Descent

/-- The number of edges of the longest simple path from the start node. -/
def maxDepth (g : Graph) : Nat :=
  match g.start? with
  | none => 0
  | some n => ((Descent.start n.id).run g).deepest

end Capability.Graph
