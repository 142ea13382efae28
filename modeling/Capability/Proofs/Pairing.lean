/-
  Capability.Proofs.Pairing — loops and splits are paired along declared edges.

  The pairing of a loop start or of a split is a search along the edges that are declared. A branch
  node goes on to the targets of its conditions, and nothing asks for edges to them, so a route
  through a branch node that has none is not seen.

  A search for the join of a split counts the splits opened on the way and gives up a way on which
  more are open than there are nodes. Nothing is lost by that: where a split is opened while it is
  open already, the way can be cut short behind the first time.

  (1) `searchJoin_closes`: what the search for a join finds closes the split.
  (2) `searchJoin_exhausts`: a search that finds nothing has seen all there is within the bound.
  (3) `Closes.nested`: whatever closes at all closes without opening a split inside itself.
  (4) `loopEnd?_isSome_iff`, `join?_isSome_iff`: both pairings are exact along declared edges.
  (5) `pairings_follow_declared_edges`: so they see every route just where the targets of branch
      nodes are declared as edges, too.
-/

import Capability.Lint
import Capability.Proofs.Reachability
import Mathlib.Tactic.Common

namespace Capability.Graph

open Relation

/-! ## Routes -/

/-- A run may go from one node to another: a branch node goes on to the targets of its conditions,
    every other node along its edges, as far as they are accepted. -/
def Leads (g : Graph) (accept : Edge → Bool) (a b : String) : Prop :=
  ∃ n, g.node? a = some n ∧
    (n.kind ≠ .branch ∧ g.Edged accept a b ∨ n.kind = .branch ∧ ∃ c ∈ n.conditions, c.target = b)

/-- The splits that are open behind a node, however many there are. -/
def openAfter (kind : NodeKind) (depth : Nat) : Nat :=
  match kind with
  | .join => depth - 1
  | .split => depth + 1
  | _ => depth

/-- From a node inside a split, with some more splits open, the way leads to a join that closes the
    split itself. -/
inductive Closes (g : Graph) (next : String → String → Prop) : String → Nat → Prop
  | here {id : String} : g.kind? id = some .join → Closes g next id 0
  | onward {id t : String} {kind : NodeKind} {depth : Nat} : g.kind? id = some kind → ¬(kind = .join ∧ depth = 0) →
      next id t → Closes g next t (openAfter kind depth) → Closes g next id depth

variable {g : Graph}

theorem Closes.mono {next next' : String → String → Prop} (hn : ∀ a b, next a b → next' a b) {id : String} {depth : Nat}
    (h : g.Closes next id depth) : g.Closes next' id depth := by
  induction h with
  | here hk => exact .here hk
  | onward hk hne ht _ ih => exact .onward hk hne (hn _ _ ht) ih

theorem mem_flow_targets {id t : String} : t ∈ (g.flow id).map (·.target) ↔ g.Edged Edge.isFlow id t := by
  simp only [flow, List.mem_map, List.mem_filter, Edged, and_assoc]

theorem openAfter_eq {kind : NodeKind} (hj : kind ≠ .join) (hs : kind ≠ .split) (depth : Nat) :
    openAfter kind depth = depth := by
  unfold openAfter
  split
  · exact absurd rfl hj
  · exact absurd rfl hs
  · rfl

theorem depthAfter_eq_some_iff {kind : NodeKind} {depth after : Nat} : g.depthAfter kind depth = some after ↔
    after = openAfter kind depth ∧ (kind = .split → depth < g.nodes.length) := by
  cases kind
  case split =>
    by_cases h : depth < g.nodes.length
    · simp [depthAfter, openAfter, h, eq_comm]
    · simp [depthAfter, h]
  all_goals simp [depthAfter, openAfter, eq_comm]

theorem depthAfter_eq_none_iff {kind : NodeKind} {depth : Nat} :
    g.depthAfter kind depth = none ↔ kind = .split ∧ g.nodes.length ≤ depth := by
  cases kind
  case split => simp [depthAfter]
  all_goals simp [depthAfter]

theorem depthAfter_le {kind : NodeKind} {depth after : Nat} (h : g.depthAfter kind depth = some after)
    (hd : depth ≤ g.nodes.length) : after ≤ g.nodes.length := by
  obtain ⟨rfl, hs⟩ := depthAfter_eq_some_iff.mp h
  unfold openAfter
  split
  · omega
  · exact hs rfl
  · exact hd

/-! ## The search for a join -/

/-- What the search for a join finds closes the split. -/
theorem searchJoin_closes {fuel : Nat} {seen queue : List (String × Nat)} {join : String}
    (h : g.searchJoin fuel seen queue = some join) : ∃ p ∈ queue, g.Closes (g.Edged Edge.isFlow) p.1 p.2 := by
  fun_induction searchJoin g fuel seen queue with
  | case1 => cases h
  | case2 => cases h
  | case3 _ _ _ _ _ _ ih | case4 _ _ _ _ _ _ _ ih | case6 _ _ _ _ _ _ _ _ _ _ ih =>
    obtain ⟨p, hp, hc⟩ := ih h
    exact ⟨p, .tail _ hp, hc⟩
  | case5 _ _ id _ _ _ _ hk hjoin =>
    obtain ⟨rfl, rfl⟩ := hjoin
    exact ⟨(id, 0), .head _, .here hk⟩
  | case7 _ _ id depth _ _ kind hk hjoin after hafter ih =>
    obtain ⟨p, hp, hc⟩ := ih h
    rcases List.mem_append.mp hp with hp | hp
    · exact ⟨p, .tail _ hp, hc⟩
    · obtain ⟨e, he, rfl⟩ := List.mem_map.mp hp
      have edged : g.Edged Edge.isFlow id e.target := mem_flow_targets.mp (List.mem_map.mpr ⟨e, he, rfl⟩)
      have closes : g.Closes (g.Edged Edge.isFlow) e.target (openAfter kind depth) := (depthAfter_eq_some_iff.mp hafter).1 ▸ hc
      exact ⟨(id, depth), .head _, .onward hk hjoin edged closes⟩

/-- The search goes on from one node and depth to another. -/
def Expands (g : Graph) (p q : String × Nat) : Prop :=
  ∃ kind, g.kind? p.1 = some kind ∧ g.depthAfter kind p.2 = some q.2 ∧ g.Edged Edge.isFlow p.1 q.1

/-- The search stops at a node and depth. -/
def Halts (g : Graph) (p : String × Nat) : Prop := g.kind? p.1 = some .join ∧ p.2 = 0

/-- The places at which the search queues an edge, once for every depth. -/
def places (g : Graph) : List (String × Nat) :=
  (List.range (g.nodes.length + 1)).flatMap fun depth => g.edges.map fun e => (e.source, depth)

/-- How many edges can still be queued once some places were seen. -/
def pending (g : Graph) (seen : List (String × Nat)) : Nat := g.places.countP fun p => !seen.contains p

theorem length_places (g : Graph) : g.places.length = g.edges.length * (g.nodes.length + 1) := by
  simp [places, List.length_flatMap, Nat.mul_comm]

theorem outgoing_length_le_count {id : String} {depth : Nat} (hd : depth ≤ g.nodes.length) :
    (g.outgoing id).length ≤ g.places.count (id, depth) := by
  have once : (g.edges.map fun e => (e.source, depth)).count (id, depth) = (g.outgoing id).length := by
    rw [List.count, List.countP_map, outgoing, ← List.countP_eq_length_filter]
    congr 1
    funext e
    show ((e.source, depth) == (id, depth)) = decide (e.source = id)
    rw [beq_eq_decide]
    simp
  have sublist : (g.edges.map fun e => (e.source, depth)).Sublist g.places := by
    unfold places
    rw [List.flatMap_def]
    exact List.sublist_flatten_of_mem (List.mem_map.mpr ⟨depth, List.mem_range.mpr (by omega), rfl⟩)
  rw [← once]
  exact sublist.count_le _

/-- Seeing a place uses up the edges that leave it. -/
theorem pending_cons {seen : List (String × Nat)} {p : String × Nat} (hn : p ∉ seen) (hd : p.2 ≤ g.nodes.length) :
    g.pending (p :: seen) + (g.outgoing p.1).length ≤ g.pending seen := by
  have parts : ∀ ps : List (String × Nat),
      (ps.countP fun q => !(p :: seen).contains q) + ps.count p = ps.countP fun q => !seen.contains q := by
    intro ps
    induction ps with
    | nil => rfl
    | cons q ps ih =>
      rw [List.countP_cons, List.countP_cons, List.count_cons, ← ih]
      by_cases e : q = p
      · subst e
        simp [hn]
        omega
      · simp [e]
        omega
  calc g.pending (p :: seen) + (g.outgoing p.1).length
    _ ≤ g.pending (p :: seen) + g.places.count p := Nat.add_le_add_left (outgoing_length_le_count hd) _
    _ = g.pending seen := parts g.places

/-- The search has a round for everything that is queued or may still be queued, and what it has seen
    stops nowhere and goes on to nothing that is neither seen nor queued. -/
structure Searching (g : Graph) (fuel : Nat) (seen queue : List (String × Nat)) : Prop where
  rounds : queue.length + g.pending seen ≤ fuel
  shallow : ∀ p ∈ queue, p.2 ≤ g.nodes.length
  settled : ∀ p ∈ seen, ¬g.Halts p ∧ ∀ q, g.Expands p q → q ∈ seen ∨ q ∈ queue

namespace Searching

variable {fuel : Nat} {seen queue new : List (String × Nat)} {p : String × Nat}

theorem drop (h : g.Searching (fuel + 1) seen (p :: queue)) (hp : p ∈ seen) : g.Searching fuel seen queue where
  rounds := by
    have rounds := h.rounds
    rw [List.length_cons] at rounds
    omega
  shallow q hq := h.shallow q (.tail _ hq)
  settled q hq := by
    obtain ⟨hh, hx⟩ := h.settled q hq
    refine ⟨hh, fun r hr => ?_⟩
    rcases hx r hr with hs | hs
    · exact .inl hs
    · rcases List.mem_cons.mp hs with rfl | hs
      · exact .inl hp
      · exact .inr hs

theorem expand (h : g.Searching (fuel + 1) seen (p :: queue)) (hp : p ∉ seen) (hh : ¬g.Halts p)
    (hl : new.length ≤ (g.outgoing p.1).length) (hd : ∀ q ∈ new, q.2 ≤ g.nodes.length)
    (hx : ∀ q, g.Expands p q → q ∈ new) : g.Searching fuel (p :: seen) (queue ++ new) where
  rounds := by
    have rounds := h.rounds
    have used := pending_cons hp (h.shallow p (.head _))
    rw [List.length_cons] at rounds
    rw [List.length_append]
    omega
  shallow q hq := by
    rcases List.mem_append.mp hq with hq | hq
    · exact h.shallow q (.tail _ hq)
    · exact hd q hq
  settled q hq := by
    rcases List.mem_cons.mp hq with rfl | hq
    · exact ⟨hh, fun r hr => .inr (List.mem_append_right _ (hx r hr))⟩
    · obtain ⟨hh, hx⟩ := h.settled q hq
      refine ⟨hh, fun r hr => ?_⟩
      rcases hx r hr with hs | hs
      · exact .inl (.tail _ hs)
      · rcases List.mem_cons.mp hs with rfl | hs
        · exact .inl (.head _)
        · exact .inr (List.mem_append_left _ hs)

/-- A place that goes on to nothing is only seen. -/
theorem pass (h : g.Searching (fuel + 1) seen (p :: queue)) (hp : p ∉ seen) (hh : ¬g.Halts p)
    (hx : ∀ q, ¬g.Expands p q) : g.Searching fuel (p :: seen) queue := by
  have next : g.Searching fuel (p :: seen) (queue ++ []) := h.expand hp hh (Nat.zero_le _) nofun fun q hq => absurd hq (hx q)
  rwa [List.append_nil] at next

theorem missing {id : String} {depth : Nat} (h : g.Searching (fuel + 1) seen ((id, depth) :: queue)) (hp : (id, depth) ∉ seen)
    (hk : g.kind? id = none) : g.Searching fuel ((id, depth) :: seen) queue :=
  h.pass hp (fun hh => by simp [Halts, hk] at hh) fun q hq => by simp [Expands, hk] at hq

theorem dropped {id : String} {depth : Nat} {kind : NodeKind} (h : g.Searching (fuel + 1) seen ((id, depth) :: queue))
    (hp : (id, depth) ∉ seen) (hk : g.kind? id = some kind) (hne : ¬(kind = .join ∧ depth = 0))
    (ha : g.depthAfter kind depth = none) : g.Searching fuel ((id, depth) :: seen) queue :=
  h.pass hp (fun hh => hne (by simpa [Halts, hk] using hh)) fun q hq => by simp [Expands, hk, ha] at hq

theorem onward {id : String} {depth after : Nat} {kind : NodeKind} (h : g.Searching (fuel + 1) seen ((id, depth) :: queue))
    (hp : (id, depth) ∉ seen) (hk : g.kind? id = some kind) (hne : ¬(kind = .join ∧ depth = 0))
    (ha : g.depthAfter kind depth = some after) :
    g.Searching fuel ((id, depth) :: seen) (queue ++ (g.flow id).map (·.target, after)) := by
  refine h.expand hp (fun hh => hne (by simpa [Halts, hk] using hh)) ?_ ?_ ?_
  · rw [List.length_map]
    exact List.length_filter_le _ _
  · intro q hq
    obtain ⟨e, -, rfl⟩ := List.mem_map.mp hq
    exact depthAfter_le ha (h.shallow _ (.head _))
  · rintro ⟨t, d⟩ ⟨kind', hk', hd, he⟩
    obtain rfl : kind = kind' := Option.some.inj (hk.symm.trans hk')
    obtain rfl : after = d := Option.some.inj (ha.symm.trans hd)
    obtain ⟨e, hflow, rfl⟩ := List.mem_map.mp (mem_flow_targets.mpr he)
    exact List.mem_map.mpr ⟨e, hflow, rfl⟩

/-- With nothing left in the queue, what was seen is all there is. -/
theorem exhausted (h : g.Searching fuel seen []) :
    ∃ all : List (String × Nat), seen ⊆ all ∧ [] ⊆ all ∧ ∀ p ∈ all, ¬g.Halts p ∧ ∀ q, g.Expands p q → q ∈ all := by
  refine ⟨seen, fun _ hp => hp, List.nil_subset _, fun p hp => ?_⟩
  obtain ⟨hh, hx⟩ := h.settled p hp
  exact ⟨hh, fun q hq => (hx q hq).resolve_right List.not_mem_nil⟩

end Searching

/-- A search that finds nothing in the end has seen all that it can go on to, and stops nowhere. -/
theorem searchJoin_exhausts {fuel : Nat} {seen queue : List (String × Nat)} (hs : g.Searching fuel seen queue)
    (h : g.searchJoin fuel seen queue = none) :
    ∃ all : List (String × Nat), seen ⊆ all ∧ queue ⊆ all ∧ ∀ p ∈ all, ¬g.Halts p ∧ ∀ q, g.Expands p q → q ∈ all := by
  fun_induction searchJoin g fuel seen queue with
  | case1 seen queue =>
    have empty : queue = [] := List.length_eq_zero_iff.mp (by have := hs.rounds; omega)
    subst empty
    exact hs.exhausted
  | case2 => exact hs.exhausted
  | case3 fuel seen id depth queue hseen ih =>
    have seen' : (id, depth) ∈ seen := by simpa using hseen
    obtain ⟨all, hsub, hqueue, hall⟩ := ih (hs.drop seen') h
    exact ⟨all, hsub, List.cons_subset.mpr ⟨hsub seen', hqueue⟩, hall⟩
  | case4 fuel seen id depth queue hseen hk ih =>
    have fresh : (id, depth) ∉ seen := by simpa using hseen
    obtain ⟨all, hsub, hqueue, hall⟩ := ih (hs.missing fresh hk) h
    obtain ⟨hp, hsub⟩ := List.cons_subset.mp hsub
    exact ⟨all, hsub, List.cons_subset.mpr ⟨hp, hqueue⟩, hall⟩
  | case5 => cases h
  | case6 fuel seen id depth queue hseen kind hk hjoin hafter ih =>
    have fresh : (id, depth) ∉ seen := by simpa using hseen
    obtain ⟨all, hsub, hqueue, hall⟩ := ih (hs.dropped fresh hk hjoin hafter) h
    obtain ⟨hp, hsub⟩ := List.cons_subset.mp hsub
    exact ⟨all, hsub, List.cons_subset.mpr ⟨hp, hqueue⟩, hall⟩
  | case7 fuel seen id depth queue hseen kind hk hjoin after hafter ih =>
    have fresh : (id, depth) ∉ seen := by simpa using hseen
    obtain ⟨all, hsub, hqueue, hall⟩ := ih (hs.onward fresh hk hjoin hafter) h
    obtain ⟨hp, hsub⟩ := List.cons_subset.mp hsub
    exact ⟨all, hsub, List.cons_subset.mpr ⟨hp, (List.append_subset.mp hqueue).1⟩, hall⟩

/-! ## Nesting -/

/-- Inside a split a node is reached with some splits open, the innermost first, none of which was
    opened inside itself. -/
inductive Nested (g : Graph) (split : String) : List String → String → Prop
  | start {t : String} : g.Edged Edge.isFlow split t → Nested g split [] t
  | pass {stack : List String} {a t : String} {kind : NodeKind} : Nested g split stack a → g.kind? a = some kind →
      kind ≠ .join → kind ≠ .split → g.Edged Edge.isFlow a t → Nested g split stack t
  | opens {stack : List String} {a t : String} : Nested g split stack a → g.kind? a = some .split → a ∉ stack →
      g.Edged Edge.isFlow a t → Nested g split (a :: stack) t
  | closes {stack : List String} {a b t : String} : Nested g split (b :: stack) a → g.kind? a = some .join →
      g.Edged Edge.isFlow a t → Nested g split stack t

section Nesting

variable {split : String} {stack : List String} {a : String}

theorem Nested.nodup (h : g.Nested split stack a) : stack.Nodup := by
  induction h with
  | start _ => exact List.nodup_nil
  | pass _ _ _ _ _ ih => exact ih
  | opens _ _ hn _ ih => exact List.nodup_cons.mpr ⟨hn, ih⟩
  | closes _ _ _ ih => exact (List.nodup_cons.mp ih).2

/-- A split that is open was reached before it was opened. -/
theorem Nested.opened (h : g.Nested split stack a) {before behind : List String} {b : String}
    (hs : stack = before ++ b :: behind) : g.Nested split behind b ∧ g.kind? b = some .split ∧ b ∉ behind := by
  induction h generalizing before with
  | start _ => simp at hs
  | pass _ _ _ _ _ ih => exact ih hs
  | opens hn hk hout _ ih =>
    cases before with
    | nil =>
      obtain ⟨rfl, rfl⟩ := List.cons.inj hs
      exact ⟨hn, hk, hout⟩
    | cons c before => exact ih (List.cons.inj hs).2
  | @closes stack _ c _ _ _ _ ih =>
    have deeper : c :: stack = (c :: before) ++ b :: behind := congrArg (c :: ·) hs
    exact ih deeper

/-- No more splits are open than there are nodes. -/
theorem Nested.length_le (h : g.Nested split stack a) : stack.length ≤ g.nodes.length := by
  have declared : stack ⊆ g.nodes.map (·.id) := by
    intro b hb
    obtain ⟨before, behind, hs⟩ := List.append_of_mem hb
    obtain ⟨n, hn, -⟩ := Option.map_eq_some_iff.mp (h.opened hs).2.1
    exact List.mem_map.mpr ⟨n, List.mem_of_find?_eq_some hn, node?_id hn⟩
  have shorter := (h.nodup.subperm declared).length_le
  rwa [List.length_map] at shorter

/-- Whatever closes a split, however deep it goes, some join does so on a way on which no split is
    opened inside itself. -/
theorem Closes.nested {depth : Nat} (h : g.Closes (g.Edged Edge.isFlow) a depth) (hn : g.Nested split stack a)
    (hd : stack.length ≤ depth) : ∃ join, g.Nested split [] join ∧ g.kind? join = some .join := by
  induction h generalizing stack with
  | here hk =>
    obtain rfl : stack = [] := List.length_eq_zero_iff.mp (by omega)
    exact ⟨_, hn, hk⟩
  | @onward a t kind depth hk _ he _ ih =>
    by_cases hjoin : kind = .join
    · subst hjoin
      cases stack with
      | nil => exact ⟨a, hn, hk⟩
      | cons b stack =>
        have less : stack.length ≤ openAfter .join depth := by
          simp only [openAfter, List.length_cons] at hd ⊢
          omega
        exact ih (.closes hn hk he) less
    · by_cases hsplit : kind = .split
      · subst hsplit
        by_cases hin : a ∈ stack
        -- the way is cut short: it goes on as from here, but behind the first time that the split was opened
        · obtain ⟨before, behind, rfl⟩ := List.append_of_mem hin
          obtain ⟨first, -, hout⟩ := hn.opened rfl
          have less : (a :: behind).length ≤ openAfter .split depth := by
            simp only [openAfter, List.length_append, List.length_cons] at hd ⊢
            omega
          exact ih (.opens first hk hout he) less
        · have more : (a :: stack).length ≤ openAfter .split depth := Nat.succ_le_succ hd
          exact ih (.opens hn hk hin he) more
      · have same : stack.length ≤ openAfter kind depth := by rwa [openAfter_eq hjoin hsplit]
        exact ih (.pass hn hk hjoin hsplit he) same

/-- What contains the beginnings of a split and all that the search can go on to from there contains
    every node that is reached inside the split. -/
theorem Nested.found {all : List (String × Nat)} (hstart : ∀ t, g.Edged Edge.isFlow split t → (t, 0) ∈ all)
    (hall : ∀ p ∈ all, ∀ q, g.Expands p q → q ∈ all) (h : g.Nested split stack a) : (a, stack.length) ∈ all := by
  induction h with
  | start he => exact hstart _ he
  | pass _ hk hjoin hsplit he ih =>
    refine hall _ ih _ ⟨_, hk, depthAfter_eq_some_iff.mpr ⟨?_, fun h => absurd h hsplit⟩, he⟩
    exact (openAfter_eq hjoin hsplit _).symm
  | @opens stack a t hn hk hout he ih =>
    have deeper : (a :: stack).length ≤ g.nodes.length := (Nested.opens hn hk hout he).length_le
    exact hall _ ih _ ⟨.split, hk, depthAfter_eq_some_iff.mpr ⟨rfl, fun _ => deeper⟩, he⟩
  | closes _ hk he ih => exact hall _ ih _ ⟨.join, hk, depthAfter_eq_some_iff.mpr ⟨rfl, nofun⟩, he⟩

end Nesting

/-! ## Pairings -/

theorem searching_start (g : Graph) (split : String) :
    g.Searching (g.edges.length * (g.nodes.length + 2) + 1) [] ((g.flow split).map (·.target, 0)) where
  rounds := by
    have flows : (g.flow split).length ≤ g.edges.length :=
      (List.length_filter_le _ _).trans (List.length_filter_le _ _)
    have all : g.pending [] ≤ g.edges.length * (g.nodes.length + 1) := g.length_places ▸ List.countP_le_length
    rw [List.length_map, Nat.mul_succ]
    omega
  shallow p hp := by
    obtain ⟨e, -, rfl⟩ := List.mem_map.mp hp
    exact Nat.zero_le _
  settled := nofun

/-- A split is paired just when a join closes it along declared edges, however many splits are
    opened and closed again on the way. -/
theorem join?_isSome_iff {split : String} : (g.join? split).isSome ↔
    g.declares .split split ∧ ∃ t, g.Edged Edge.isFlow split t ∧ g.Closes (g.Edged Edge.isFlow) t 0 := by
  unfold join?
  by_cases hd : g.declares .split split
  · rw [if_pos hd]
    constructor
    · intro h
      obtain ⟨join, hj⟩ := Option.isSome_iff_exists.mp h
      obtain ⟨p, hp, hc⟩ := searchJoin_closes hj
      obtain ⟨e, he, rfl⟩ := List.mem_map.mp hp
      exact ⟨hd, e.target, mem_flow_targets.mp (List.mem_map.mpr ⟨e, he, rfl⟩), hc⟩
    · rintro ⟨-, t, he, hc⟩
      by_contra hnone
      obtain ⟨all, -, hqueue, hall⟩ := searchJoin_exhausts (searching_start g split) (Option.not_isSome_iff_eq_none.mp hnone)
      have starts : ∀ t, g.Edged Edge.isFlow split t → (t, 0) ∈ all := by
        intro t he
        obtain ⟨e, hflow, rfl⟩ := List.mem_map.mp (mem_flow_targets.mpr he)
        exact hqueue (List.mem_map.mpr ⟨e, hflow, rfl⟩)
      obtain ⟨join, hn, hk⟩ := hc.nested (.start he) (Nat.le_refl 0)
      have found : (join, 0) ∈ all := hn.found starts fun p hp => (hall p hp).2
      exact (hall _ found).1 ⟨hk, rfl⟩
  · rw [if_neg hd]
    simp [hd]

/-- A loop start is paired just when an iteration edge leads back to it from a loop end that can be
    reached from it along other declared edges. -/
theorem loopEnd?_isSome_iff {start : String} : (g.loopEnd? start).isSome ↔
    g.declares .loopStart start ∧ ∃ e ∈ g.incoming start, e.kind = .iteration ∧ g.kind? e.source = some .loopEnd ∧
      ReflTransGen (g.Edged (·.kind != .iteration)) start e.source := by
  unfold loopEnd? iterationEdge?
  by_cases hd : g.declares .loopStart start
  · rw [if_pos hd, Option.isSome_map, List.find?_isSome]
    simp only [Bool.and_eq_true, decide_eq_true_eq, List.contains_iff_mem, mem_reachable_iff, hd, true_and]
    constructor
    · rintro ⟨e, he, ⟨hk, hr⟩, hend⟩
      exact ⟨e, he, hk, hend, hr⟩
    · rintro ⟨e, he, hk, hend, hr⟩
      exact ⟨e, he, ⟨hk, hr⟩, hend⟩
  · rw [if_neg hd]
    simp [hd]

/-! ## Branch nodes -/

/-- Where the targets of branch nodes are declared as edges, all routes are. -/
theorem Leads.edged (hc : ∀ n ∈ g.nodes, n.kind = .branch → ∀ c ∈ n.conditions, g.Edged Edge.isFlow n.id c.target)
    {accept : Edge → Bool} (ha : ∀ e : Edge, e.isFlow = true → accept e = true) {a b : String} (h : g.Leads accept a b) :
    g.Edged accept a b := by
  obtain ⟨n, hn, ⟨-, he⟩ | ⟨hk, c, hmem, rfl⟩⟩ := h
  · exact he
  · obtain rfl := node?_id hn
    obtain ⟨e, he, hflow, ht⟩ := hc n (List.mem_of_find?_eq_some hn) hk c hmem
    exact ⟨e, he, ha e hflow, ht⟩

/-- A loop start and a split are paired just when the way to a loop end with an iteration edge back,
    and to a join that closes the split, is declared by edges, however the graph is built. So the
    pairings see every route through branch nodes, too, as long as the targets of these are declared
    as edges. -/
theorem pairings_follow_declared_edges (g : Graph) :
    (∀ start, (g.loopEnd? start).isSome ↔ g.declares .loopStart start ∧
      ∃ e ∈ g.incoming start, e.kind = .iteration ∧ g.kind? e.source = some .loopEnd ∧
        ReflTransGen (g.Edged (·.kind != .iteration)) start e.source) ∧
    (∀ split, (g.join? split).isSome ↔ g.declares .split split ∧
      ∃ t, g.Edged Edge.isFlow split t ∧ g.Closes (g.Edged Edge.isFlow) t 0) ∧
    ((∀ n ∈ g.nodes, n.kind = .branch → ∀ c ∈ n.conditions, g.Edged Edge.isFlow n.id c.target) →
      (∀ start, g.declares .loopStart start → ∀ e ∈ g.incoming start, e.kind = .iteration →
        g.kind? e.source = some .loopEnd → ReflTransGen (g.Leads (·.kind != .iteration)) start e.source →
        (g.loopEnd? start).isSome) ∧
      ∀ split t, g.declares .split split → g.Leads Edge.isFlow split t → g.Closes (g.Leads Edge.isFlow) t 0 →
        (g.join? split).isSome) := by
  refine ⟨fun _ => loopEnd?_isSome_iff, fun _ => join?_isSome_iff, fun hc => ⟨?_, ?_⟩⟩
  · intro start hd e he hk hend hr
    have taken : ∀ e : Edge, e.isFlow = true → (e.kind != .iteration) = true :=
      fun _ h => (Bool.and_eq_true_iff.mp h).1
    exact loopEnd?_isSome_iff.mpr ⟨hd, e, he, hk, hend, ReflTransGen.mono (fun _ _ => Leads.edged hc taken) _ _ hr⟩
  · intro split t hd ht hcloses
    have flows {a b : String} : g.Leads Edge.isFlow a b → g.Edged Edge.isFlow a b := Leads.edged hc fun _ h => h
    exact join?_isSome_iff.mpr ⟨hd, t, flows ht, hcloses.mono fun _ _ => flows⟩

/-- A loop and a split that go on through a branch node each, and perhaps some more edges. -/
def forked (more : List Edge) : Graph where
  id := "forked"
  version := "1.0"
  name := ""
  description := ""
  metadata := none
  strategy := .abort
  maxRetries := 0
  retryDelay := none
  nodes := [{ id := "start", kind := .start }, { id := "loop", kind := .loopStart, maxIterations := some 1 },
    { id := "again", kind := .branch, conditions := [{ expression := "true", target := "close" }] },
    { id := "close", kind := .loopEnd }, { id := "fork", kind := .split },
    { id := "way", kind := .branch, conditions := [{ expression := "true", target := "meet" }] },
    { id := "meet", kind := .join }, { id := "end", kind := .finish }]
  edges := [{ source := "start", target := "loop" }, { source := "loop", target := "again" },
    { source := "close", target := "loop", kind := .iteration }, { source := "close", target := "fork" },
    { source := "fork", target := "way", kind := .parallel }, { source := "meet", target := "end" }] ++ more

/-- The targets of the branch nodes as edges. -/
def choices : List Edge := [{ source := "again", target := "close" }, { source := "way", target := "meet" }]

/-- With or without more edges, a run gets from the loop start to its loop end, and from the split to
    its join. -/
theorem forked_routes (more : List Edge) :
    ReflTransGen ((forked more).Leads (·.kind != .iteration)) "loop" "close" ∧
      (forked more).Leads Edge.isFlow "fork" "way" ∧ (forked more).Closes ((forked more).Leads Edge.isFlow) "way" 0 := by
  have declared {e : Edge} (he : e ∈ (forked []).edges) : e ∈ (forked more).edges := List.mem_append_left more he
  refine ⟨?_, ?_, ?_⟩
  · have enter : (forked more).Leads (·.kind != .iteration) "loop" "again" := by
      refine ⟨_, rfl, .inl ⟨by decide, { source := "loop", target := "again" }, mem_outgoing.mpr ⟨declared ?_, rfl⟩, rfl, rfl⟩⟩
      decide
    have leave : (forked more).Leads (·.kind != .iteration) "again" "close" := ⟨_, rfl, .inr ⟨rfl, _, .head _, rfl⟩⟩
    exact (ReflTransGen.single enter).tail leave
  · refine ⟨_, rfl, .inl ⟨by decide, { source := "fork", target := "way", kind := .parallel },
      mem_outgoing.mpr ⟨declared ?_, rfl⟩, rfl, rfl⟩⟩
    decide
  · have leave : (forked more).Leads Edge.isFlow "way" "meet" := ⟨_, rfl, .inr ⟨rfl, _, .head _, rfl⟩⟩
    have way : (forked more).kind? "way" = some .branch := rfl
    have meets : (forked more).Closes ((forked more).Leads Edge.isFlow) "meet" 0 := .here rfl
    exact .onward way (by decide) leave meets

/-- Without the edges, neither the loop nor the split is paired, and the graph is refused on account
    of the loop. -/
theorem routes_through_branches_are_missed : ∃ g : Graph,
    (g.declares .loopStart "loop" = true ∧ (∃ e ∈ g.incoming "loop", e.kind = .iteration ∧
        g.kind? e.source = some .loopEnd ∧ ReflTransGen (g.Leads (·.kind != .iteration)) "loop" e.source) ∧
      g.loopEnd? "loop" = none ∧ ∃ d ∈ Lint.loopPairing g, d.severity = .error ∧ d.node = some "loop") ∧
    g.declares .split "fork" = true ∧ (∃ t, g.Leads Edge.isFlow "fork" t ∧ g.Closes (g.Leads Edge.isFlow) t 0) ∧
      g.join? "fork" = none := by
  obtain ⟨loop, fork, way⟩ := forked_routes []
  refine ⟨forked [], ⟨by decide +kernel, ?_, by decide +kernel, by decide +kernel⟩, by decide +kernel, ⟨"way", fork, way⟩,
    by decide +kernel⟩
  exact ⟨{ source := "close", target := "loop", kind := .iteration }, by decide, rfl, rfl, loop⟩

/-- With the edges, both are paired. -/
theorem declared_routes_are_paired :
    (∀ n ∈ (forked choices).nodes, n.kind = .branch → ∀ c ∈ n.conditions,
      (forked choices).Edged Edge.isFlow n.id c.target) ∧
    ((forked choices).loopEnd? "loop").isSome ∧ ((forked choices).join? "fork").isSome := by
  have declared : ∀ n ∈ (forked choices).nodes, n.kind = .branch → ∀ c ∈ n.conditions,
      (forked choices).Edged Edge.isFlow n.id c.target := by
    decide +kernel
  obtain ⟨loop, fork, way⟩ := forked_routes choices
  obtain ⟨-, -, paired⟩ := pairings_follow_declared_edges (forked choices)
  obtain ⟨loops, splits⟩ := paired declared
  refine ⟨declared, ?_, splits "fork" "way" (by decide +kernel) fork way⟩
  exact loops "loop" (by decide +kernel) { source := "close", target := "loop", kind := .iteration } (by decide) rfl rfl loop

end Capability.Graph
