/-
  Capability.Proofs.Exploration — the order in which the implementations of a node are tried.

  The order is known before anything is tried. It goes through a list from the front; an
  implementation whose skill was attempted before is passed over, and behind every other one come its
  own fallbacks, explored in the same manner, before the rest of the list. So an exploration comes to
  an end although fallbacks may lead in circles, and leaves no skill out.

  (1) `ranked_mergeSort`: the list that is explored is sorted by priority, in the order of declaration.
  (2) `resolves_iff`: the fallbacks of an implementation are what its ids mean, in their order.
  (3) `exists_exploration`, `Explored.unique`: every list of implementations is explored, in one way.
  (4) `Explored.append`, `Explored.dropWhile`: what a queue is explored in.
  (5) `Explored.nodup`, `Explored.exhausted`: each skill has its turn, once.
-/

import Capability.Proofs.Alternatives

namespace Capability.Execution

variable {n : Node} {vars : Keyed Json} {a : Implementation} {id : String} {ids : List String} {as : List Implementation}

/-! ## Ranking -/

/-- The implementations that apply, by priority; those with the same one are in the order of their
    declaration. -/
structure Ranked (n : Node) (vars : Keyed Json) (ranked : List Implementation) : Prop where
  perm : ranked.Perm (n.implementations.filter (applies vars))
  sorted : ranked.Pairwise fun a b => a.priority ≤ b.priority
  stable : ∀ p, ranked.filter (·.priority = p) = (n.implementations.filter (applies vars)).filter (·.priority = p)

/-- The implementations that apply, as they are ranked. -/
def rankedUnder (n : Node) (vars : Keyed Json) : List Implementation :=
  (n.implementations.filter (applies vars)).mergeSort fun a b => a.priority ≤ b.priority

theorem ranked_mergeSort (n : Node) (vars : Keyed Json) : Ranked n vars (rankedUnder n vars) := by
  have trans (a b c : Implementation) (hab : decide (a.priority ≤ b.priority) = true)
      (hbc : decide (b.priority ≤ c.priority) = true) : decide (a.priority ≤ c.priority) = true := by
    simp only [decide_eq_true_eq] at hab hbc ⊢
    omega
  have total (a b : Implementation) : (decide (a.priority ≤ b.priority) || decide (b.priority ≤ a.priority)) = true := by
    simp only [Bool.or_eq_true, decide_eq_true_eq]
    omega
  have perm : (rankedUnder n vars).Perm (n.implementations.filter (applies vars)) := List.mergeSort_perm _ _
  refine ⟨perm, ?_, fun p => ?_⟩
  · exact (List.pairwise_mergeSort trans total _).imp fun h => by simpa using h
  · -- Implementations of one priority are in order already, so sorting leaves them as they are.
    have level : ((n.implementations.filter (applies vars)).filter (·.priority = p)).Pairwise
        fun a b => decide (a.priority ≤ b.priority) = true := by
      refine List.Pairwise.imp_of_mem (fun {a b} ha hb _ => ?_) (List.pairwise_of_forall (R := fun _ _ => True) fun _ _ => trivial)
      simp only [List.mem_filter, decide_eq_true_eq] at ha hb ⊢
      omega
    have kept := (List.sublist_mergeSort trans total level List.filter_sublist).filter (·.priority = p)
    have twice : ((n.implementations.filter (applies vars)).filter (·.priority = p)).filter (·.priority = p) =
        (n.implementations.filter (applies vars)).filter (·.priority = p) := by
      simp [List.filter_filter]
    rw [twice] at kept
    exact (kept.eq_of_length (perm.filter _).length_eq.symm).symm

theorem Ranked.subset {n : Node} {vars : Keyed Json} {ranked : List Implementation} (h : Ranked n vars ranked) :
    ranked ⊆ n.implementations :=
  fun _ ha => List.mem_of_mem_filter (h.perm.mem_iff.mp ha)

/-! ## Fallbacks -/

/-- What an id means at a node: the first implementation that is declared with it. -/
def Means (n : Node) (id : String) (a : Implementation) : Prop :=
  ∃ before behind, n.implementations = before ++ a :: behind ∧ a.id = id ∧ ∀ b ∈ before, b.id ≠ id

/-- What some ids mean, in their order. Those without an implementation are left out. -/
inductive Resolves (n : Node) : List String → List Implementation → Prop
  | nil : Resolves n [] []
  | found {id : String} {ids : List String} {a : Implementation} {as : List Implementation} :
      Means n id a → Resolves n ids as → Resolves n (id :: ids) (a :: as)
  | missing {id : String} {ids : List String} {as : List Implementation} :
      (∀ a ∈ n.implementations, a.id ≠ id) → Resolves n ids as → Resolves n (id :: ids) as

theorem means_iff : Means n id a ↔ n.implementations.find? (·.id = id) = some a := by
  rw [List.find?_eq_some_iff_append, Means]
  simp only [decide_eq_true_eq, Bool.not_eq_true', decide_eq_false_iff_not]
  exact ⟨fun ⟨before, behind, parts, ha, hb⟩ => ⟨ha, before, behind, parts, hb⟩,
    fun ⟨ha, before, behind, parts, hb⟩ => ⟨before, behind, parts, ha, hb⟩⟩

theorem undeclared_iff : (∀ a ∈ n.implementations, a.id ≠ id) ↔ n.implementations.find? (·.id = id) = none := by
  simp only [List.find?_eq_none, decide_eq_true_eq, ne_eq]

theorem resolves_iff : Resolves n ids as ↔ as = ids.filterMap fun id => n.implementations.find? (·.id = id) := by
  constructor
  · intro h
    induction h with
    | nil => rfl
    | found ha _ ih => simp only [List.filterMap_cons, means_iff.mp ha, ih]
    | missing ha _ ih => simp only [List.filterMap_cons, undeclared_iff.mp ha, ih]
  · rintro rfl
    induction ids with
    | nil => exact .nil
    | cons id ids ih =>
      cases ha : n.implementations.find? (·.id = id) with
      | none =>
        simp only [List.filterMap_cons, ha]
        exact .missing (undeclared_iff.mpr ha) ih
      | some a =>
        simp only [List.filterMap_cons, ha]
        exact .found (means_iff.mpr ha) ih

theorem resolves_fallbacks_iff : Resolves n a.fallbacks as ↔ as = fallbacksOf n a := resolves_iff

/-- What one of the ids means is among what they mean. -/
theorem Resolves.mem (h : Resolves n ids as) (hid : id ∈ ids) (ha : Means n id a) : a ∈ as := by
  rw [resolves_iff.mp h]
  exact List.mem_filterMap.mpr ⟨id, hid, means_iff.mp ha⟩

/-! ## Explorations -/

/-- From a list of implementations, when some skills were attempted before, implementations are
    attempted in some order, after which some skills were attempted. -/
inductive Explored (n : Node) : List String → List Implementation → List Implementation → List String → Prop
  | nil {attempted : List String} : Explored n attempted [] [] attempted
  | pass {attempted after : List String} {a : Implementation} {queue order : List Implementation} :
      a.skillId ∈ attempted → Explored n attempted queue order after → Explored n attempted (a :: queue) order after
  /-- Behind an implementation come its fallbacks, and then the rest of the list. -/
  | attempt {attempted between after : List String} {a : Implementation}
      {queue fallbacks below behind : List Implementation} :
      a.skillId ∉ attempted → Resolves n a.fallbacks fallbacks →
      Explored n (a.skillId :: attempted) fallbacks below between → Explored n between queue behind after →
      Explored n attempted (a :: queue) (a :: below ++ behind) after

theorem untried_le {attempted more : List String} (h : attempted ⊆ more) : untried n more ≤ untried n attempted := by
  refine (List.monotone_filter_right n.implementations fun a ha => ?_).length_le
  simp only [Bool.not_eq_true', List.contains_eq_mem, decide_eq_false_iff_not] at ha ⊢
  exact fun hm => ha (h hm)

namespace Explored

variable {attempted between after : List String} {queue rest order behind : List Implementation}

/-- The skills that were attempted afterwards are those attempted before and those of the order. -/
theorem mem_iff (h : Explored n attempted queue order after) {skill : String} :
    skill ∈ after ↔ skill ∈ attempted ∨ ∃ a ∈ order, a.skillId = skill := by
  induction h with
  | nil => simp
  | pass _ _ ih => exact ih
  | @attempt _ _ _ a _ _ _ _ _ _ _ _ ihb ih =>
    simp only [ih, ihb, List.cons_append, List.mem_cons, List.mem_append, or_and_right, exists_or, exists_eq_left]
    rw [eq_comm (a := skill), or_assoc, or_assoc]
    exact or_left_comm

theorem subset (h : Explored n attempted queue order after) : attempted ⊆ after := fun _ hs => h.mem_iff.mpr (.inl hs)

/-- A list is explored in one way. -/
theorem unique {order' : List Implementation} {after' : List String} (h : Explored n attempted queue order after)
    (h' : Explored n attempted queue order' after') : order = order' ∧ after = after' := by
  induction h generalizing order' after' with
  | nil =>
    cases h'
    exact ⟨rfl, rfl⟩
  | pass hs _ ih =>
    cases h' with
    | pass _ h' => exact ih h'
    | attempt hs' => exact absurd hs hs'
  | attempt hs hf _ _ ihb ih =>
    cases h' with
    | pass hs' => exact absurd hs' hs
    | attempt _ hf' hb' h' =>
      obtain rfl := (resolves_iff.mp hf').trans (resolves_iff.mp hf).symm
      obtain ⟨rfl, rfl⟩ := ihb hb'
      obtain ⟨rfl, rfl⟩ := ih h'
      exact ⟨rfl, rfl⟩

/-- One list is explored after another. -/
theorem append (h : Explored n attempted queue order between) (h' : Explored n between rest behind after) :
    Explored n attempted (queue ++ rest) (order ++ behind) after := by
  induction h with
  | nil => exact h'
  | pass hs _ ih => exact .pass hs (ih h')
  | attempt hs hf hb _ _ ih =>
    rw [List.cons_append, List.append_assoc]
    exact .attempt hs hf hb (ih h')

/-- What is passed over at the front does not matter. -/
theorem dropWhile (h : Explored n attempted queue order after) :
    Explored n attempted (queue.dropWhile fun a => attempted.contains a.skillId) order after := by
  induction h with
  | nil => exact .nil
  | pass hs _ ih =>
    rw [List.dropWhile_cons_of_pos (by simpa using hs)]
    exact ih
  | attempt hs hf hb h _ _ =>
    rw [List.dropWhile_cons_of_neg (by simpa using hs)]
    exact .attempt hs hf hb h

/-- Each implementation of the order has a skill of its own that was not attempted before. -/
theorem nodup (h : Explored n attempted queue order after) :
    (order.map (·.skillId)).Nodup ∧ ∀ a ∈ order, a.skillId ∉ attempted := by
  induction h with
  | nil => simp
  | pass _ _ ih => exact ih
  | @attempt _ _ _ a _ _ below behind hs _ hb _ ihb ih =>
    have fresh : ∀ c ∈ behind, ∀ skill, skill = a.skillId ∨ (∃ b ∈ below, b.skillId = skill) → c.skillId ≠ skill := by
      rintro c hc skill hskill rfl
      refine ih.2 c hc (hb.mem_iff.mpr ?_)
      rcases hskill with hskill | hskill
      · exact .inl (hskill ▸ .head _)
      · exact .inr hskill
    refine ⟨?_, ?_⟩
    · rw [List.map_append, List.map_cons, List.nodup_append, List.nodup_cons]
      refine ⟨⟨fun hm => ?_, ihb.1⟩, ih.1, ?_⟩
      · obtain ⟨b, hbm, he⟩ := List.mem_map.mp hm
        exact ihb.2 b hbm (he ▸ .head _)
      · rintro skill hm _ hc rfl
        obtain ⟨c, hc, hcs⟩ := List.mem_map.mp hc
        refine fresh c hc skill ?_ hcs
        simpa using hm
    · intro c hc hm
      rcases List.mem_append.mp hc with hc | hc
      · rcases List.mem_cons.mp hc with rfl | hc
        · exact hs hm
        · exact ihb.2 c hc (.tail _ hm)
      · exact ih.2 c hc (hb.subset (.tail _ hm))

/-- All skills of the list were attempted afterwards, and those of what is meant by the fallbacks of
    whatever is attempted. -/
theorem exhausted (h : Explored n attempted queue order after) :
    (∀ a ∈ queue, a.skillId ∈ after) ∧ ∀ b ∈ order, ∀ id ∈ b.fallbacks, ∀ a, Means n id a → a.skillId ∈ after := by
  induction h with
  | nil => simp
  | pass hs h ih =>
    refine ⟨fun c hc => ?_, ih.2⟩
    rcases List.mem_cons.mp hc with rfl | hc
    · exact h.subset hs
    · exact ih.1 c hc
  | attempt hs hf hb h ihb ih =>
    refine ⟨fun c hc => ?_, fun b hbm id hid c hc => ?_⟩
    · rcases List.mem_cons.mp hc with rfl | hc
      · exact h.subset (hb.subset (.head _))
      · exact ih.1 c hc
    · rcases List.mem_append.mp hbm with hbm | hbm
      · rcases List.mem_cons.mp hbm with rfl | hbm
        · exact h.subset (ihb.1 c (hf.mem hid hc))
        · exact h.subset (ihb.2 b hbm id hid c hc)
      · exact ih.2 b hbm id hid c hc

theorem order_subset (h : Explored n attempted queue order after) (hq : queue ⊆ n.implementations) : order ⊆ n.implementations := by
  induction h with
  | nil => exact List.nil_subset _
  | pass _ _ ih => exact ih (List.cons_subset.mp hq).2
  | attempt _ hf _ _ ihb ih =>
    obtain rfl := resolves_fallbacks_iff.mp hf
    obtain ⟨ha, hq⟩ := List.cons_subset.mp hq
    exact List.cons_subset.mpr ⟨ha, List.append_subset.mpr ⟨ihb fun b hb => mem_of_fallbacksOf hb, ih hq⟩⟩

end Explored

/-- Every list of implementations is explored, by induction on how many of them have a skill that was
    not attempted: there is one less below and behind an attempt. -/
theorem exists_exploration (attempted : List String) {queue : List Implementation} (hq : queue ⊆ n.implementations) :
    ∃ order after, Explored n attempted queue order after := by
  generalize hm : untried n attempted = m
  induction m using Nat.strongRecOn generalizing attempted queue with
  | ind m ih =>
    subst hm
    induction queue with
    | nil => exact ⟨[], attempted, .nil⟩
    | cons a queue ihq =>
      obtain ⟨ha, hq⟩ := List.cons_subset.mp hq
      by_cases hs : a.skillId ∈ attempted
      · obtain ⟨order, after, h⟩ := ihq hq
        exact ⟨order, after, .pass hs h⟩
      · have fewer := untried_cons_lt ha hs
        obtain ⟨below, between, hb⟩ := ih _ fewer _ (fun b hb => mem_of_fallbacksOf hb) rfl
        obtain ⟨behind, after, h⟩ := ih _ ((untried_le hb.subset).trans_lt fewer) _ hq rfl
        exact ⟨_, after, .attempt hs (resolves_fallbacks_iff.mpr rfl) hb h⟩

end Capability.Execution
