/-
  Capability.Proofs.Nearest — a split is paired with the join that closes it first.

  A way from a split is written as the places of the edges it takes: at each id, one of the flow
  edges out of it in the order of their declaration. Along the way every split opens and every join
  closes, and a join closes the split itself where one more is closed than was opened. Of two ways
  the search looks at the shorter one first, and of two that are equally long at the one that takes
  the earlier edge where they part.

  The search sees each id once for every number of open splits. What it passes over in this way has
  been met before, on an earlier way, from which the rest would close the split earlier, too. For the
  same reason the first way that closes the split opens no other split inside itself, so it never has
  more of them open than there are nodes, and the limit on their number drops nothing that matters.

  (1) `closing_iff`: the ways that close a split, as the search goes along them.
  (2) `Unwinds.cut`: with fewer splits open, the same way closes no later.
  (3) `First.earliest`: on the first way that closes a split nothing was met before with as few open.
  (4) `First.shallow`: it has fewer splits open than there are nodes wherever it opens one.
  (5) `Nearing.searches`: a search that is about to go along the first way ends with its join.
  (6) `splits_are_paired_with_the_first_join`: so the pairing is exact, with and without the limit.
-/

import Capability.Proofs.Pairing
import Mathlib.Data.List.Shortlex

namespace Capability.Graph

open List (Shortlex)

/-! ## Ways -/

/-- The ids met on a way, which takes at each id the flow edge at some place. -/
def follow (g : Graph) (id : String) : List Nat → Option (List String)
  | [] => some []
  | k :: way => (g.flow id)[k]?.bind fun e => (g.follow e.target way).map (e.target :: ·)

/-- What passing a node adds to the number of splits that are open. -/
def weight : NodeKind → Int
  | .split => 1
  | .join => -1
  | _ => 0

/-- How many more splits than joins are among some ids. -/
def count (g : Graph) (ids : List String) : Int := (ids.map fun id => ((g.kind? id).map weight).getD 0).sum

/-- A way from a split meets some ids, all of which are declared. -/
def Meets (g : Graph) (split : String) (way : List Nat) (ids : List String) : Prop :=
  g.follow split way = some ids ∧ ∀ id ∈ ids, g.isDeclared id

/-- A way from a split closes it at a join, and nowhere before. -/
def Closing (g : Graph) (split : String) (way : List Nat) (join : String) : Prop :=
  ∃ ids, g.Meets split way ids ∧ g.count ids = -1 ∧ (∀ n < ids.length, g.count (ids.take n) ≠ -1) ∧
    ids.getLast? = some join

/-- The first way that closes a split: all others are longer, or as long with a later edge where they
    part from it. -/
def First (g : Graph) (split : String) (way : List Nat) (join : String) : Prop :=
  g.Closing split way join ∧ ∀ way' join', g.Closing split way' join' → way' = way ∨ Shortlex (· < ·) way way'

/-- The ids that an id leads to, each with the number of splits open there. -/
def children (g : Graph) (id : String) (after : Nat) : List (String × Nat) := (g.flow id).map (·.target, after)

/-- The search for a join, round after round for as long as it takes, where splits are dropped that
    are opened inside too many others. -/
inductive Searches (g : Graph) (drops : Nat → Prop) : List (String × Nat) → List (String × Nat) → Option String → Prop
  | exhausted {seen : List (String × Nat)} : Searches g drops seen [] none
  | again {seen queue : List (String × Nat)} {p : String × Nat} {found : Option String} : p ∈ seen →
      Searches g drops seen queue found → Searches g drops seen (p :: queue) found
  | missing {seen queue : List (String × Nat)} {id : String} {depth : Nat} {found : Option String} : (id, depth) ∉ seen →
      g.kind? id = none → Searches g drops ((id, depth) :: seen) queue found →
      Searches g drops seen ((id, depth) :: queue) found
  | found {seen queue : List (String × Nat)} {id : String} : (id, 0) ∉ seen → g.kind? id = some .join →
      Searches g drops seen ((id, 0) :: queue) (some id)
  | dropped {seen queue : List (String × Nat)} {id : String} {depth : Nat} {found : Option String} : (id, depth) ∉ seen →
      g.kind? id = some .split → drops depth → Searches g drops ((id, depth) :: seen) queue found →
      Searches g drops seen ((id, depth) :: queue) found
  | onward {seen queue : List (String × Nat)} {id : String} {depth : Nat} {kind : NodeKind} {found : Option String} :
      (id, depth) ∉ seen → g.kind? id = some kind → ¬(kind = .join ∧ depth = 0) → ¬(kind = .split ∧ drops depth) →
      Searches g drops ((id, depth) :: seen) (queue ++ g.children id (openAfter kind depth)) found →
      Searches g drops seen ((id, depth) :: queue) found

/-- From an id inside a split, with some more splits open, a way leads to the join that closes the
    split itself. -/
inductive Unwinds (g : Graph) : String → Nat → List Nat → String → Prop
  | here {join : String} : g.kind? join = some .join → Unwinds g join 0 [] join
  | onward {id join : String} {depth k : Nat} {kind : NodeKind} {e : Edge} {way : List Nat} : g.kind? id = some kind →
      ¬(kind = .join ∧ depth = 0) → (g.flow id)[k]? = some e → Unwinds g e.target (openAfter kind depth) way join →
      Unwinds g id depth (k :: way) join

/-- A way from a split leads to an id, with some more splits open there. -/
inductive Stands (g : Graph) (split : String) : List Nat → String → Nat → Prop
  | start {k : Nat} {e : Edge} : (g.flow split)[k]? = some e → Stands g split [k] e.target 0
  | onward {way : List Nat} {id : String} {depth k : Nat} {kind : NodeKind} {e : Edge} : Stands g split way id depth →
      g.kind? id = some kind → ¬(kind = .join ∧ depth = 0) → (g.flow id)[k]? = some e →
      Stands g split (way ++ [k]) e.target (openAfter kind depth)

/-- Along some declared ids the count of splits over joins, of which some are open before, falls below
    none at the last one, which is given, and not before. -/
structure FallsAt (g : Graph) (depth : Nat) (ids : List String) (join : String) : Prop where
  declared : ∀ a ∈ ids, g.isDeclared a
  total : depth + g.count ids = -1
  first : ∀ n < ids.length, depth + g.count (ids.take n) ≠ -1
  last : ids.getLast? = some join

variable {g : Graph} {split id a join : String} {depth k : Nat} {kind : NodeKind} {e : Edge} {way rest : List Nat}
  {ids : List String}

theorem count_cons (hk : g.kind? id = some kind) : g.count (id :: ids) = weight kind + g.count ids := by
  simp [count, hk]

theorem openAfter_cast (h : ¬(kind = .join ∧ depth = 0)) : (openAfter kind depth : Int) = depth + weight kind := by
  cases kind
  case join =>
    have opened : depth ≠ 0 := fun hd => h ⟨rfl, hd⟩
    simp only [openAfter, weight]
    omega
  all_goals simp [openAfter, weight]

theorem isDeclared_iff : g.isDeclared id ↔ ∃ kind, g.kind? id = some kind := by
  rw [isDeclared, Option.isSome_iff_exists]
  simp [kind?]

theorem follow_cons : g.follow id (k :: way) = some ids ↔
    ∃ e rest, (g.flow id)[k]? = some e ∧ g.follow e.target way = some rest ∧ ids = e.target :: rest := by
  simp only [follow, Option.bind_eq_some_iff, Option.map_eq_some_iff]
  constructor
  · rintro ⟨e, he, rest, hr, rfl⟩
    exact ⟨e, rest, he, hr, rfl⟩
  · rintro ⟨e, rest, he, hr, rfl⟩
    exact ⟨e, he, rest, hr, rfl⟩

/-- Where the count falls below what is open, the way closes the split there or before. -/
theorem unwinds_of_count (hf : g.follow id way = some ids) (hd : ∀ a ∈ id :: ids, g.isDeclared a)
    (hc : depth + g.count (id :: ids) < 0) : ∃ before join, before <+: way ∧ g.Unwinds id depth before join := by
  induction way generalizing id ids depth with
  | nil =>
    cases hf
    obtain ⟨kind, hk⟩ := isDeclared_iff.mp (hd id (.head _))
    rw [count_cons hk] at hc
    cases kind
    case join =>
      obtain rfl : depth = 0 := by
        simp only [weight, count, List.map_nil, List.sum_nil] at hc
        omega
      exact ⟨[], id, List.prefix_rfl, .here hk⟩
    all_goals
      simp only [weight, count, List.map_nil, List.sum_nil] at hc
      omega
  | cons k way ih =>
    obtain ⟨kind, hk⟩ := isDeclared_iff.mp (hd id (.head _))
    by_cases closed : kind = .join ∧ depth = 0
    · obtain ⟨rfl, rfl⟩ := closed
      exact ⟨[], id, List.nil_prefix, .here hk⟩
    · obtain ⟨e, rest, he, hr, rfl⟩ := follow_cons.mp hf
      have below : (openAfter kind depth : Nat) + g.count (e.target :: rest) < 0 := by
        rw [count_cons hk] at hc
        rw [openAfter_cast closed]
        omega
      obtain ⟨before, join, hp, hu⟩ := ih hr (fun a ha => hd a (.tail _ ha)) below
      exact ⟨k :: before, join, List.cons_prefix_cons.mpr ⟨rfl, hp⟩, .onward hk closed he hu⟩

theorem FallsAt.opened (h : g.FallsAt depth (id :: a :: ids) join) (hk : g.kind? id = some kind) :
    ¬(kind = .join ∧ depth = 0) := by
  rintro ⟨rfl, rfl⟩
  refine h.first 1 (by simp) ?_
  rw [List.take_succ_cons, List.take_zero, count_cons hk]
  rfl

/-- Behind an id that does not close the split the count goes on from what is open there. -/
theorem fallsAt_cons (hk : g.kind? id = some kind) (hopen : ¬(kind = .join ∧ depth = 0)) :
    g.FallsAt depth (id :: a :: ids) join ↔ g.FallsAt (openAfter kind depth) (a :: ids) join := by
  have after (part : List String) : (depth : Int) + g.count (id :: part) = openAfter kind depth + g.count part := by
    rw [count_cons hk, openAfter_cast hopen]
    omega
  constructor
  · intro h
    refine ⟨fun x hx => h.declared x (.tail _ hx), after _ ▸ h.total, fun n hn => ?_, ?_⟩
    · rw [← after, ← List.take_succ_cons]
      exact h.first (n + 1) (Nat.succ_lt_succ hn)
    · exact List.getLast?_cons_cons ▸ h.last
  · intro h
    refine ⟨List.forall_mem_cons.mpr ⟨isDeclared_iff.mpr ⟨_, hk⟩, h.declared⟩, (after _).trans h.total, fun n hn => ?_, ?_⟩
    · cases n with
      | zero =>
        simp only [List.take_zero, count, List.map_nil, List.sum_nil]
        omega
      | succ n =>
        rw [List.take_succ_cons, after]
        exact h.first n (Nat.lt_of_succ_lt_succ hn)
    · exact List.getLast?_cons_cons.trans h.last

/-- The count falls at the first id alone only if that is the join. -/
theorem fallsAt_single : g.FallsAt depth [id] join ↔ id = join ∧ depth = 0 ∧ g.kind? id = some .join := by
  constructor
  · intro h
    have nowhere : g.follow id [] = some [] := rfl
    have below : depth + g.count [id] < 0 := by
      have total := h.total
      omega
    obtain ⟨before, join', hp, hu⟩ := unwinds_of_count nowhere h.declared below
    obtain rfl := List.prefix_nil.mp hp
    cases hu with
    | here hk => exact ⟨by simpa using h.last, rfl, hk⟩
  · rintro ⟨rfl, rfl, hk⟩
    refine ⟨List.forall_mem_singleton.mpr (isDeclared_iff.mpr ⟨_, hk⟩), ?_, fun n hn => ?_, rfl⟩
    · rw [count_cons hk]
      rfl
    · obtain rfl : n = 0 := by simpa using hn
      simp [count]

/-- A way unwinds if the count falls at its last id. -/
theorem unwinds_iff : g.Unwinds id depth way join ↔ ∃ ids, g.follow id way = some ids ∧ g.FallsAt depth (id :: ids) join := by
  constructor
  · intro h
    induction h with
    | here hk => exact ⟨[], rfl, fallsAt_single.mpr ⟨rfl, rfl, hk⟩⟩
    | @onward _ _ _ _ _ e _ hk hopen he _ ih =>
      obtain ⟨ids, hf, hfalls⟩ := ih
      exact ⟨e.target :: ids, follow_cons.mpr ⟨e, ids, he, hf, rfl⟩, (fallsAt_cons hk hopen).mpr hfalls⟩
  · rintro ⟨ids, hf, hfalls⟩
    induction way generalizing id ids depth with
    | nil =>
      cases hf
      obtain ⟨rfl, rfl, hk⟩ := fallsAt_single.mp hfalls
      exact .here hk
    | cons k way ih =>
      obtain ⟨e, rest, he, hr, rfl⟩ := follow_cons.mp hf
      obtain ⟨kind, hk⟩ := isDeclared_iff.mp (hfalls.declared id (.head _))
      have hopen := hfalls.opened hk
      exact .onward hk hopen he (ih rest hr ((fallsAt_cons hk hopen).mp hfalls))

/-- A way closes a split if it takes a flow edge out of it and unwinds from there. -/
theorem closing_iff : g.Closing split way join ↔
    ∃ k e rest, way = k :: rest ∧ (g.flow split)[k]? = some e ∧ g.Unwinds e.target 0 rest join := by
  constructor
  · rintro ⟨ids, ⟨hf, hd⟩, hc, hfirst, hlast⟩
    cases way with
    | nil =>
      cases hf
      cases hlast
    | cons k way =>
      obtain ⟨e, rest, he, hr, rfl⟩ := follow_cons.mp hf
      exact ⟨k, e, way, rfl, he, unwinds_iff.mpr ⟨rest, hr, hd, by simpa using hc, by simpa using hfirst, hlast⟩⟩
  · rintro ⟨k, e, way, rfl, he, hu⟩
    obtain ⟨ids, hf, hfalls⟩ := unwinds_iff.mp hu
    exact ⟨e.target :: ids, ⟨follow_cons.mpr ⟨e, ids, he, hf, rfl⟩, hfalls.declared⟩, by simpa using hfalls.total,
      by simpa using hfalls.first, hfalls.last⟩

/-! ## The first way -/

/-- With no more splits open, the same way closes the split, too, and no later. -/
theorem Unwinds.cut (h : g.Unwinds id depth way join) {fewer : Nat} (hd : fewer ≤ depth) :
    ∃ before join', before <+: way ∧ g.Unwinds id fewer before join' := by
  induction h generalizing fewer with
  | here hk =>
    obtain rfl := Nat.le_zero.mp hd
    exact ⟨[], _, List.prefix_rfl, .here hk⟩
  | @onward id join depth k kind e way hk hne he hu ih =>
    by_cases closed : kind = .join ∧ fewer = 0
    · obtain ⟨rfl, rfl⟩ := closed
      exact ⟨[], id, List.nil_prefix, .here hk⟩
    · have less : openAfter kind fewer ≤ openAfter kind depth := by
        unfold openAfter
        split <;> omega
      obtain ⟨before, join', hp, hu'⟩ := ih less
      exact ⟨k :: before, join', List.cons_prefix_cons.mpr ⟨rfl, hp⟩, .onward hk closed he hu'⟩

/-- The way to an id and a way that closes the split from there make a way that closes it. -/
theorem Stands.closing (h : g.Stands split way id depth) (hu : g.Unwinds id depth rest join) :
    g.Closing split (way ++ rest) join := by
  induction h generalizing rest with
  | start he => exact closing_iff.mpr ⟨_, _, rest, rfl, he, hu⟩
  | onward _ hk hne he ih =>
    rw [List.append_assoc]
    exact ih (.onward hk hne he hu)

theorem lex_append {u p s t : List Nat} (h : List.Lex (· < ·) u p) (hl : u.length = p.length) :
    List.Lex (· < ·) (u ++ s) (p ++ t) := by
  induction h with
  | nil => cases hl
  | cons _ ih => exact .cons (ih (Nat.succ.inj hl))
  | rel hr => exact .rel hr

/-- An earlier way stays earlier when no more is added to it than to the other. -/
theorem shortlex_append {u p s t : List Nat} (h : Shortlex (· < ·) u p) (hl : s.length ≤ t.length) :
    Shortlex (· < ·) (u ++ s) (p ++ t) := by
  by_cases shorter : (u ++ s).length < (p ++ t).length
  · exact .of_length_lt shorter
  · rw [List.length_append, List.length_append] at shorter
    rcases List.shortlex_def.mp h with less | ⟨same, lex⟩
    · omega
    · refine .of_lex ?_ (lex_append lex same)
      rw [List.length_append, List.length_append]
      omega

section Earliest

variable {p : List Nat} {fewer : Nat} {q : String × Nat}

/-- An earlier way than some way leads to an id with some splits open. -/
def Earlier (g : Graph) (split : String) (p : List Nat) (q : String × Nat) : Prop :=
  ∃ u, Shortlex (· < ·) u p ∧ g.Stands split u q.1 q.2

theorem Earlier.longer (h : g.Earlier split p q) : g.Earlier split (p ++ [k]) q := by
  obtain ⟨u, hu, hs⟩ := h
  exact ⟨u, hu.append_right [k], hs⟩

/-- Nothing closes a split sooner than the first way does. -/
theorem First.not_sooner {way' : List Nat} {join' : String} (h : g.First split way join) (hc : g.Closing split way' join') :
    ¬Shortlex (· < ·) way' way := by
  intro sooner
  rcases h.2 way' join' hc with rfl | later
  · exact Std.Asymm.asymm _ _ sooner sooner
  · exact Std.Asymm.asymm _ _ sooner later

/-- On the first way that closes a split, no id was met before with as few splits open. -/
theorem First.earliest (h : g.First split (p ++ rest) join) (hu : g.Unwinds id depth rest join) (hd : fewer ≤ depth) :
    ¬g.Earlier split p (id, fewer) := by
  rintro ⟨u, earlier, hs⟩
  obtain ⟨before, join', hp, hu'⟩ := hu.cut hd
  exact h.not_sooner (hs.closing hu') (shortlex_append earlier hp.length_le)

/-- No join is met before at which the split is closed. -/
theorem First.not_before (h : g.First split (p ++ rest) join) (hk : g.kind? id = some .join) : ¬g.Earlier split p (id, 0) := by
  rintro ⟨u, earlier, hs⟩
  exact h.not_sooner (hs.closing (.here hk)) (shortlex_append earlier (Nat.zero_le _))

/-- The splits that are open on a way, each of which was opened earlier on. -/
structure Opened (g : Graph) (split : String) (p : List Nat) (id : String) (stack : List String) : Prop where
  nested : g.Nested split stack id
  earlier : ∀ before b behind, stack = before ++ b :: behind → g.Earlier split p (b, behind.length)

/-- On the first way that closes a split, no split is opened inside itself. -/
theorem First.opened (h : g.First split (p ++ rest) join) (hs : g.Stands split p id depth)
    (hu : g.Unwinds id depth rest join) : ∃ stack, g.Opened split p id stack ∧ stack.length = depth := by
  induction hs generalizing rest with
  | @start k e he =>
    refine ⟨[], ⟨.start (mem_flow_targets.mp (List.mem_map.mpr ⟨e, List.mem_of_getElem? he, rfl⟩)), ?_⟩, rfl⟩
    intro before b behind hs
    simp at hs
  | @onward p a depth k kind e hs hk hne he ih =>
    rw [List.append_assoc] at h
    have along : g.Unwinds a depth ([k] ++ rest) join := .onward hk hne he hu
    obtain ⟨stack, ho, rfl⟩ := ih h along
    have edged : g.Edged Edge.isFlow a e.target :=
      mem_flow_targets.mp (List.mem_map.mpr ⟨e, List.mem_of_getElem? he, rfl⟩)
    by_cases hjoin : kind = .join
    · subst hjoin
      cases stack with
      | nil => exact absurd ⟨rfl, rfl⟩ hne
      | cons b stack =>
        refine ⟨stack, ⟨.closes ho.nested hk edged, fun before c behind hstack => ?_⟩, rfl⟩
        exact (ho.earlier (b :: before) c behind (congrArg (b :: ·) hstack)).longer
    · by_cases hsplit : kind = .split
      · subst hsplit
        have out : a ∉ stack := by
          intro inside
          obtain ⟨before, behind, hstack⟩ := List.append_of_mem inside
          refine h.earliest along ?_ (ho.earlier before a behind hstack)
          rw [hstack, List.length_append, List.length_cons]
          omega
        refine ⟨a :: stack, ⟨.opens ho.nested hk out edged, fun before c behind hstack => ?_⟩, rfl⟩
        cases before with
        | nil =>
          obtain ⟨rfl, rfl⟩ := List.cons.inj hstack
          exact ⟨p, .of_length_lt (by simp), hs⟩
        | cons d before => exact (ho.earlier before c behind (List.cons.inj hstack).2).longer
      · refine ⟨stack, ⟨.pass ho.nested hk hjoin hsplit edged, fun before c behind hstack => ?_⟩, ?_⟩
        · exact (ho.earlier before c behind hstack).longer
        · rw [openAfter_eq hjoin hsplit]

/-- Where the first way that closes a split opens another one, fewer are open than there are nodes. -/
theorem First.shallow (h : g.First split (p ++ rest) join) (hs : g.Stands split p id depth) (hk : g.kind? id = some .split)
    (hu : g.Unwinds id depth rest join) : depth < g.nodes.length := by
  cases hu with
  | here hk' => cases hk.symm.trans hk'
  | @onward _ _ _ k kind e rest _ hne he hu =>
    obtain rfl : .split = kind := Option.some.inj (hk.symm.trans ‹_›)
    have next : g.Stands split (p ++ [k]) e.target (openAfter .split depth) := .onward hs hk hne he
    rw [List.append_cons] at h
    obtain ⟨stack, ho, hl⟩ := h.opened next hu
    have bound := ho.nested.length_le
    rw [hl] at bound
    exact bound

end Earliest

/-! ## Searches -/

theorem mem_children {after : Nat} {q : String × Nat} (h : q ∈ g.children id after) :
    ∃ (k : Nat) (e : Edge), (g.flow id)[k]? = some e ∧ q = (e.target, after) := by
  obtain ⟨e, he, rfl⟩ := List.mem_map.mp h
  obtain ⟨k, hk⟩ := List.mem_iff_getElem?.mp he
  exact ⟨k, e, hk, rfl⟩

theorem mem_take_children {after : Nat} {q : String × Nat} (h : q ∈ (g.children id after).take k) :
    ∃ (i : Nat) (e : Edge), i < k ∧ (g.flow id)[i]? = some e ∧ q = (e.target, after) := by
  obtain ⟨i, hi⟩ := List.mem_iff_getElem?.mp h
  rw [List.getElem?_take, Option.ite_none_right_eq_some, children, List.getElem?_map, Option.map_eq_some_iff] at hi
  obtain ⟨hik, e, he, rfl⟩ := hi
  exact ⟨i, e, hik, he, rfl⟩

theorem children_split {after : Nat} (he : (g.flow id)[k]? = some e) : g.children id after =
    (g.children id after).take k ++ (e.target, after) :: (g.children id after).drop (k + 1) := by
  obtain ⟨hk, he⟩ : ∃ h : k < (g.children id after).length, (g.children id after)[k] = (e.target, after) := by
    refine List.getElem?_eq_some_iff.mp ?_
    rw [children, List.getElem?_map, he]
    rfl
  rw [← he, List.getElem_cons_drop, List.take_append_drop]

section Nearing

variable {drops : Nat → Prop} {seen queue ahead behind : List (String × Nat)} {found : Option String} {p : List Nat}
  {q : String × Nat}

/-- The search has the id in its queue to which a part of the first way leads. In front of it are ids
    to which earlier ways lead, and it has seen no others. Behind it are ids to which ways lead that
    are earlier than a longer part, whichever edge is taken next. -/
structure Nearing (g : Graph) (split join : String) (p rest : List Nat) (id : String) (depth : Nat)
    (seen ahead behind : List (String × Nat)) : Prop where
  first : g.First split (p ++ rest) join
  stands : g.Stands split p id depth
  unwinds : g.Unwinds id depth rest join
  passed : ∀ q ∈ seen, g.Earlier split p q
  before : ∀ q ∈ ahead, g.Earlier split p q
  after : ∀ q ∈ behind, ∀ k, g.Earlier split (p ++ [k]) q

namespace Nearing

/-- An id is taken from the front of the queue. -/
theorem take (h : g.Nearing split join p rest id depth seen (q :: ahead) behind) :
    g.Nearing split join p rest id depth seen ahead behind :=
  { h with before := fun r hr => h.before r (.tail _ hr) }

/-- What was in front of the queue is seen. -/
theorem see (h : g.Nearing split join p rest id depth seen (q :: ahead) behind) :
    g.Nearing split join p rest id depth (q :: seen) ahead behind :=
  { h.take with passed := List.forall_mem_cons.mpr ⟨h.before q (.head _), h.passed⟩ }

/-- What an id in front leads to is queued behind. -/
theorem queued (h : g.Nearing split join p rest id depth seen (q :: ahead) behind) (hk : g.kind? q.1 = some kind)
    (hne : ¬(kind = .join ∧ q.2 = 0)) :
    g.Nearing split join p rest id depth (q :: seen) ahead (behind ++ g.children q.1 (openAfter kind q.2)) :=
  { h.see with
    after := by
      intro r hr k
      rcases List.mem_append.mp hr with hr | hr
      · exact h.after r hr k
      · obtain ⟨i, e, he, rfl⟩ := mem_children hr
        obtain ⟨u, hu, hs⟩ := h.before q (.head _)
        exact ⟨u ++ [i], shortlex_append hu (Nat.le_refl 1), .onward hs hk hne he⟩ }

/-- The search goes on along the first way. -/
theorem go (h : g.Nearing split join p (k :: rest) id depth seen [] behind) (hk : g.kind? id = some kind)
    (hne : ¬(kind = .join ∧ depth = 0)) (he : (g.flow id)[k]? = some e)
    (hu : g.Unwinds e.target (openAfter kind depth) rest join) :
    g.Nearing split join (p ++ [k]) rest e.target (openAfter kind depth) ((id, depth) :: seen)
      (behind ++ (g.children id (openAfter kind depth)).take k) ((g.children id (openAfter kind depth)).drop (k + 1)) where
  first := by
    rw [List.append_assoc]
    exact h.first
  stands := .onward h.stands hk hne he
  unwinds := hu
  passed := by
    refine List.forall_mem_cons.mpr ⟨⟨p, .of_length_lt ?_, h.stands⟩, fun q hq => (h.passed q hq).longer⟩
    rw [List.length_append]
    exact Nat.lt_succ_self _
  before q hq := by
    rcases List.mem_append.mp hq with hq | hq
    · exact h.after q hq k
    · obtain ⟨i, e', hi, he', rfl⟩ := mem_take_children hq
      exact ⟨p ++ [i], Shortlex.append_left ((List.shortlex_singleton_iff i k).mpr hi) p, .onward h.stands hk hne he'⟩
  after q hq i := by
    obtain ⟨j, e', he', rfl⟩ := mem_children (List.mem_of_mem_drop hq)
    refine ⟨p ++ [j], .of_length_lt ?_, .onward h.stands hk hne he'⟩
    simp only [List.length_append, List.length_singleton]
    omega

/-- The id on the first way has not been seen before. -/
theorem fresh (h : g.Nearing split join p rest id depth seen ahead behind) : (id, depth) ∉ seen := by
  intro hs
  exact h.first.earliest h.unwinds (Nat.le_refl depth) (h.passed _ hs)

/-- What is in front does not close the split. -/
theorem not_closed (h : g.Nearing split join p rest id depth seen (q :: ahead) behind) :
    ¬(g.kind? q.1 = some .join ∧ q.2 = 0) := by
  rintro ⟨hk, hd⟩
  have earlier : g.Earlier split p (q.1, q.2) := h.before q (.head _)
  rw [hd] at earlier
  exact h.first.not_before hk earlier

/-- What stands in front is dealt with, one id after another. -/
theorem reaches (h : g.Nearing split join p rest id depth seen ahead behind)
    (hfront : ∀ seen behind, g.Nearing split join p rest id depth seen [] behind →
      g.Searches drops seen ((id, depth) :: behind) found) :
    g.Searches drops seen (ahead ++ (id, depth) :: behind) found := by
  induction ahead generalizing seen behind with
  | nil => exact hfront seen behind h
  | cons q ahead ih =>
    by_cases hin : q ∈ seen
    · exact .again hin (ih h.take)
    cases hk : g.kind? q.1 with
    | none => exact .missing hin hk (ih h.see)
    | some kind =>
      have hne : ¬(kind = .join ∧ q.2 = 0) := by
        rintro ⟨rfl, hd⟩
        exact h.not_closed ⟨hk, hd⟩
      by_cases hdrop : kind = .split ∧ drops q.2
      · obtain ⟨rfl, hdrop⟩ := hdrop
        exact .dropped hin hk hdrop (ih h.see)
      · have next := ih (h.queued hk hne)
        rw [← List.cons_append, ← List.append_assoc] at next
        exact .onward hin hk hne hdrop next

/-- A search that drops no split inside fewer open ones than there are nodes goes along the first way
    to its end. -/
theorem searches (hdrops : ∀ depth, drops depth → g.nodes.length ≤ depth)
    (h : g.Nearing split join p rest id depth seen ahead behind) :
    g.Searches drops seen (ahead ++ (id, depth) :: behind) (some join) := by
  induction rest generalizing p id depth seen ahead behind with
  | nil =>
    refine h.reaches fun seen behind h => ?_
    cases h.unwinds with
    | here hk => exact .found h.fresh hk
  | cons k rest ih =>
    refine h.reaches fun seen behind h => ?_
    cases h.unwinds with
    | @onward _ _ _ _ kind e _ hk hne he hu =>
      have kept : ¬(kind = .split ∧ drops depth) := by
        rintro ⟨rfl, hd⟩
        exact Nat.not_lt.mpr (hdrops depth hd) (h.first.shallow h.stands hk h.unwinds)
      refine .onward h.fresh hk hne kept ?_
      rw [children_split he, ← List.append_assoc]
      exact ih (h.go hk hne he hu)

end Nearing

/-- What a search finds closes the split. -/
theorem Searches.closing (h : g.Searches drops seen queue found) (hq : ∀ q ∈ queue, ∃ way, g.Stands split way q.1 q.2) :
    ∀ join, found = some join → ∃ way, g.Closing split way join := by
  induction h with
  | exhausted => exact nofun
  | again _ _ ih | missing _ _ _ ih | dropped _ _ _ _ ih => exact ih fun q hin => hq q (.tail _ hin)
  | @found _ _ id _ hk =>
    rintro join ⟨⟩
    obtain ⟨way, hs⟩ := hq (id, 0) (.head _)
    exact ⟨way ++ [], hs.closing (.here hk)⟩
  | onward _ hk hne _ _ ih =>
    refine ih fun q hin => ?_
    rcases List.mem_append.mp hin with hin | hin
    · exact hq q (.tail _ hin)
    · obtain ⟨k, e, he, rfl⟩ := mem_children hin
      obtain ⟨way, hs⟩ := hq _ (.head _)
      exact ⟨way ++ [k], .onward hs hk hne he⟩

end Nearing

/-- With a round for everything that can be queued, the search ends by itself. -/
theorem Searching.ends {fuel : Nat} {seen queue : List (String × Nat)} (hs : g.Searching fuel seen queue) :
    g.Searches (g.nodes.length ≤ ·) seen queue (g.searchJoin fuel seen queue) := by
  fun_induction searchJoin g fuel seen queue with
  | case1 seen queue =>
    have empty : queue = [] := List.length_eq_zero_iff.mp (by have := hs.rounds; omega)
    rw [empty]
    exact .exhausted
  | case2 => exact .exhausted
  | case3 fuel seen id depth queue hseen ih =>
    have seen' : (id, depth) ∈ seen := by simpa using hseen
    exact .again seen' (ih (hs.drop seen'))
  | case4 fuel seen id depth queue hseen hk ih =>
    have fresh : (id, depth) ∉ seen := by simpa using hseen
    exact .missing fresh hk (ih (hs.missing fresh hk))
  | case5 fuel seen id depth queue hseen kind hk hjoin =>
    obtain ⟨rfl, rfl⟩ := hjoin
    exact .found (by simpa using hseen) hk
  | case6 fuel seen id depth queue hseen kind hk hjoin hafter ih =>
    have fresh : (id, depth) ∉ seen := by simpa using hseen
    obtain ⟨rfl, deep⟩ := depthAfter_eq_none_iff.mp hafter
    exact .dropped fresh hk deep (ih (hs.dropped fresh hk hjoin hafter))
  | case7 fuel seen id depth queue hseen kind hk hjoin after hafter ih =>
    have fresh : (id, depth) ∉ seen := by simpa using hseen
    obtain ⟨rfl, shallow⟩ := depthAfter_eq_some_iff.mp hafter
    exact .onward fresh hk hjoin (fun h => Nat.not_lt.mpr h.2 (shallow h.1)) (ih (hs.onward fresh hk hjoin hafter))

/-- A search has one answer. -/
theorem Searches.unique {drops : Nat → Prop} {seen queue : List (String × Nat)} {found found' : Option String}
    (h : g.Searches drops seen queue found) (h' : g.Searches drops seen queue found') : found = found' := by
  induction h with
  | exhausted =>
    cases h'
    rfl
  | again hin _ ih =>
    cases h' with
    | again _ h' => exact ih h'
    | missing hn _ _ | found hn _ | dropped hn _ _ _ | onward hn _ _ _ _ => exact absurd hin hn
  | missing hn hk _ ih =>
    cases h' with
    | again hin _ => exact absurd hin hn
    | missing _ _ h' => exact ih h'
    | found _ hk' | dropped _ hk' _ _ | onward _ hk' _ _ _ => cases hk.symm.trans hk'
  | found hn hk =>
    cases h' with
    | again hin _ => exact absurd hin hn
    | missing _ hk' _ | dropped _ hk' _ _ => cases hk.symm.trans hk'
    | found _ _ => rfl
    | onward _ hk' hne _ _ => exact absurd ⟨Option.some.inj (hk'.symm.trans hk), rfl⟩ hne
  | dropped hn hk hd _ ih =>
    cases h' with
    | again hin _ => exact absurd hin hn
    | missing _ hk' _ | found _ hk' => cases hk.symm.trans hk'
    | dropped _ _ _ h' => exact ih h'
    | onward _ hk' _ hkept _ => exact absurd ⟨Option.some.inj (hk'.symm.trans hk), hd⟩ hkept
  | onward hn hk hne hkept _ ih =>
    cases h' with
    | again hin _ => exact absurd hin hn
    | missing _ hk' _ => cases hk.symm.trans hk'
    | found _ hk' => exact absurd ⟨Option.some.inj (hk.symm.trans hk'), rfl⟩ hne
    | dropped _ hk' hd _ => exact absurd ⟨Option.some.inj (hk.symm.trans hk'), hd⟩ hkept
    | onward _ hk' _ _ h' =>
      obtain rfl := Option.some.inj (hk.symm.trans hk')
      exact ih h'

/-! ## Pairings -/

/-- Where some way closes a split, one of them is the first. -/
theorem exists_first (h : g.Closing split way join) : ∃ way join, g.First split way join := by
  have wf : WellFounded (Shortlex (· < · : Nat → Nat → Prop)) := Shortlex.wf Nat.lt_wfRel.wf
  obtain ⟨best, ⟨join, hc⟩, least⟩ := wf.has_min {way | ∃ join, g.Closing split way join} ⟨way, join, h⟩
  refine ⟨best, join, hc, fun way' join' hc' => ?_⟩
  by_contra other
  obtain ⟨differs, not_later⟩ := not_or.mp other
  have earlier : Shortlex (· < ·) way' best :=
    (trichotomous_of (Shortlex (· < ·)) way' best).resolve_right (not_or.mpr ⟨differs, not_later⟩)
  exact least way' ⟨join', hc'⟩ earlier

/-- A search from a split is about to go along the first way, and ends with its join. -/
theorem First.searches {drops : Nat → Prop} (hdrops : ∀ depth, drops depth → g.nodes.length ≤ depth)
    (h : g.First split way join) : g.Searches drops [] (g.children split 0) (some join) := by
  obtain ⟨k, e, rest, rfl, he, hu⟩ := closing_iff.mp h.1
  have nearing : g.Nearing split join [k] rest e.target 0 [] ((g.children split 0).take k)
      ((g.children split 0).drop (k + 1)) := by
    refine { first := h, stands := .start he, unwinds := hu, passed := nofun, before := ?_, after := ?_ }
    · intro q hq
      obtain ⟨i, e', hi, he', rfl⟩ := mem_take_children hq
      exact ⟨[i], (List.shortlex_singleton_iff i k).mpr hi, .start he'⟩
    · intro q hq i
      obtain ⟨j, e', he', rfl⟩ := mem_children (List.mem_of_mem_drop hq)
      exact ⟨[j], .of_length_lt (Nat.lt_succ_self 1), .start he'⟩
  rw [children_split he]
  exact nearing.searches hdrops

theorem searches_some_iff {drops : Nat → Prop} (hdrops : ∀ depth, drops depth → g.nodes.length ≤ depth) :
    g.Searches drops [] (g.children split 0) (some join) ↔ ∃ way, g.First split way join := by
  constructor
  · intro h
    have starts : ∀ q ∈ g.children split 0, ∃ way, g.Stands split way q.1 q.2 := by
      intro q hq
      obtain ⟨k, e, he, rfl⟩ := mem_children hq
      exact ⟨[k], .start he⟩
    obtain ⟨way, hc⟩ := h.closing starts join rfl
    obtain ⟨best, join', hf⟩ := exists_first hc
    obtain rfl : join = join' := Option.some.inj (h.unique (hf.searches hdrops))
    exact ⟨best, hf⟩
  · rintro ⟨way, hf⟩
    exact hf.searches hdrops

theorem join?_searches (hd : g.declares .split split) :
    g.Searches (g.nodes.length ≤ ·) [] (g.children split 0) (g.join? split) := by
  rw [join?, if_pos hd]
  exact (searching_start g split).ends

/-- Some way closes a split as soon as there is one that meets one more join than splits. -/
theorem exists_closing_iff : (∃ way join, g.Closing split way join) ↔
    ∃ way ids, g.Meets split way ids ∧ g.count ids = -1 := by
  constructor
  · rintro ⟨way, join, ids, hm, hc, -⟩
    exact ⟨way, ids, hm, hc⟩
  · rintro ⟨way, ids, ⟨hf, hd⟩, hc⟩
    cases way with
    | nil =>
      cases hf
      cases hc
    | cons k way =>
      obtain ⟨e, rest, he, hr, rfl⟩ := follow_cons.mp hf
      have below : 0 + g.count (e.target :: rest) < 0 := by omega
      obtain ⟨before, join, -, hu⟩ := unwinds_of_count hr hd below
      exact ⟨k :: before, join, closing_iff.mpr ⟨k, e, before, rfl, he, hu⟩⟩

/-- The search for the join of a split ends. It finds none just when no way from the split over
    declared nodes meets one more join than splits, and otherwise the join at which the first of
    these ways does so. Searches that drop splits inside more open ones, or none at all, find the same
    join. And where all ways that close the split do so at one join, the split is paired with it. -/
theorem splits_are_paired_with_the_first_join (g : Graph) (split : String) (hd : g.declares .split split) :
    g.Searches (g.nodes.length ≤ ·) [] (g.children split 0) (g.join? split) ∧
    (g.join? split = none ↔ ∀ way ids, g.Meets split way ids → g.count ids ≠ -1) ∧
    (∀ join, g.join? split = some join ↔ ∃ way, g.First split way join) ∧
    (∀ drops : Nat → Prop, (∀ depth, drops depth → g.nodes.length ≤ depth) →
      (∀ join, g.join? split = some join ↔ g.Searches drops [] (g.children split 0) (some join)) ∧
      (g.Searches drops [] (g.children split 0) none → g.join? split = none)) ∧
    ∀ join, (∃ way, g.Closing split way join) → (∀ way join', g.Closing split way join' → join' = join) →
      g.join? split = some join := by
  have ends := join?_searches hd
  have found (join : String) : g.join? split = some join ↔ ∃ way, g.First split way join := by
    rw [← searches_some_iff fun _ h => h]
    exact ⟨fun h => h ▸ ends, fun h => ends.unique h⟩
  have none_iff : g.join? split = none ↔ ¬∃ way join, g.Closing split way join := by
    rw [Option.eq_none_iff_forall_ne_some]
    constructor
    · rintro h ⟨way, join, hc⟩
      obtain ⟨best, join', hf⟩ := exists_first hc
      exact h join' ((found join').mpr ⟨best, hf⟩)
    · intro h join hj
      obtain ⟨way, hf⟩ := (found join).mp hj
      exact h ⟨way, join, hf.1⟩
  refine ⟨ends, ?_, found, fun drops hdrops => ⟨fun join => ?_, fun h => ?_⟩, fun join hc hall => ?_⟩
  · rw [none_iff, exists_closing_iff]
    simp only [not_exists, not_and]
  · rw [found, searches_some_iff hdrops]
  · refine Option.eq_none_iff_forall_ne_some.mpr fun join hj => ?_
    cases h.unique ((searches_some_iff hdrops).mpr ((found join).mp hj))
  · obtain ⟨way, hc⟩ := hc
    obtain ⟨best, join', hf⟩ := exists_first hc
    obtain rfl := hall best join' hf.1
    exact (found join').mpr ⟨best, hf⟩

/-- A split with another one behind it that leads back to itself, and perhaps some more edges. -/
def knotted (more : List Edge) : Graph where
  id := "knotted"
  version := "1.0"
  name := ""
  description := ""
  metadata := none
  strategy := .abort
  maxRetries := 0
  retryDelay := none
  nodes := [{ id := "start", kind := .start }, { id := "fork", kind := .split }, { id := "again", kind := .split },
    { id := "meet", kind := .join }, { id := "last", kind := .join }, { id := "end", kind := .finish }]
  edges := [{ source := "start", target := "fork" }, { source := "fork", target := "again", kind := .parallel },
    { source := "again", target := "again", kind := .parallel }, { source := "last", target := "end" }] ++ more

/-- Ways out of the knot, which leads through a join as often as one likes, too. -/
def loosened : List Edge :=
  [{ source := "again", target := "meet", kind := .parallel }, { source := "meet", target := "meet" },
    { source := "meet", target := "last" }]

/-- In the knot no way closes the split, however often it goes round. With the ways out the first one
    that does so closes it at the join that leads back to itself, and a search without a limit finds
    that, too. -/
theorem knots_are_paired_with_the_first_join :
    (∀ way ids, (knotted []).Meets "fork" way ids → (knotted []).count ids ≠ -1) ∧
    (∃ way, (knotted loosened).First "fork" way "meet") ∧
    (knotted loosened).Searches (fun _ => False) [] ((knotted loosened).children "fork" 0) (some "meet") := by
  obtain ⟨-, none_iff, -⟩ := splits_are_paired_with_the_first_join (knotted []) "fork" (by decide +kernel)
  obtain ⟨-, -, found, unlimited, -⟩ := splits_are_paired_with_the_first_join (knotted loosened) "fork" (by decide +kernel)
  have paired : (knotted loosened).join? "fork" = some "meet" := by decide +kernel
  obtain ⟨same, -⟩ := unlimited (fun _ => False) (fun _ => False.elim)
  exact ⟨none_iff.mp (by decide +kernel), (found "meet").mp paired, (same "meet").mp paired⟩

end Capability.Graph
