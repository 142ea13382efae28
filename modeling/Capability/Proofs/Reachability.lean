/-
  Capability.Proofs.Reachability — the breadth-first searches of a graph find what can be reached.

  A search takes ids from its queue one by one and queues what they lead to, each id once. As long as
  there is one round for every id that can be led to, its queue is used up in the end, so what it has
  seen leads nowhere else.

  (1) `mem_addFresh`, `nodup_addFresh`: each id that was not seen yet is added once.
  (2) `explore_sweeps`: a search with enough rounds comes to its end.
  (3) `Sweeps.closed`: it ends with ids that lead to no others.
  (4) `mem_closure_iff`: it finds an id just when the id can be reached.
  (5) `mem_reachable_iff`: so do the searches along edges.
-/

import Capability.Graph.Reach
import Mathlib.Data.Finset.Card
import Mathlib.Logic.Relation

namespace Capability.Graph

open Relation

/-! ## Rounds -/

section Explore

variable {next : String → List String} {seen queue : List String} {id x : String}

theorem mem_addFresh {ids : List String} : x ∈ addFresh seen ids ↔ x ∈ ids ∧ x ∉ seen := by
  induction ids generalizing seen with
  | nil => simp [addFresh]
  | cons y ids ih =>
    unfold addFresh
    by_cases hy : y ∈ seen
    · rw [if_pos (by simpa using hy), ih, List.mem_cons]
      constructor
      · rintro ⟨hx, hs⟩
        exact ⟨.inr hx, hs⟩
      · rintro ⟨rfl | hx, hs⟩
        · exact absurd hy hs
        · exact ⟨hx, hs⟩
    · rw [if_neg (by simpa using hy), List.mem_cons, List.mem_cons, ih, List.mem_cons]
      by_cases e : x = y
      · subst e
        simp [hy]
      · simp [e]

theorem nodup_addFresh (seen ids : List String) : (addFresh seen ids).Nodup := by
  induction ids generalizing seen with
  | nil => exact List.nodup_nil
  | cons y ids ih =>
    unfold addFresh
    split
    · exact ih seen
    · refine List.nodup_cons.mpr ⟨fun hy => ?_, ih _⟩
      exact (mem_addFresh.mp hy).2 List.mem_cons_self

/-- A search takes the ids in its queue one by one until none is left, and has then seen all of these
    ids. -/
inductive Sweeps (next : String → List String) : List String → List String → List String → Prop
  | done {seen : List String} : Sweeps next seen [] seen
  | round {seen queue all : List String} {id : String} :
      Sweeps next (seen ++ addFresh seen (next id)) (queue ++ addFresh seen (next id)) all →
      Sweeps next seen (id :: queue) all

/-- Every id that is added is one less that may still be. -/
theorem card_sdiff_addFresh {U : Finset String} (seen : List String) {ids : List String} (h : ∀ x ∈ ids, x ∈ U) :
    (U \ (seen ++ addFresh seen ids).toFinset).card + (addFresh seen ids).length = (U \ seen.toFinset).card := by
  have fresh : (addFresh seen ids).toFinset ⊆ U \ seen.toFinset := by
    intro b hb
    obtain ⟨hb, hn⟩ := mem_addFresh.mp (List.mem_toFinset.mp hb)
    exact Finset.mem_sdiff.mpr ⟨h b hb, fun hs => hn (List.mem_toFinset.mp hs)⟩
  rw [List.toFinset_append, ← Finset.sup_eq_union, ← sdiff_sdiff_left, ← List.toFinset_card_of_nodup (nodup_addFresh seen ids)]
  exact Finset.card_sdiff_add_card_eq_card fresh

/-- With a round for every id that is queued or may still be queued, a search comes to its end. -/
theorem explore_sweeps {U : Finset String} (hU : ∀ a, ∀ b ∈ next a, b ∈ U) {fuel : Nat}
    (hf : queue.length + (U \ seen.toFinset).card ≤ fuel) : Sweeps next seen queue (explore next fuel seen queue) := by
  induction fuel generalizing seen queue with
  | zero =>
    obtain rfl : queue = [] := List.length_eq_zero_iff.mp (by omega)
    exact .done
  | succ fuel ih =>
    cases queue with
    | nil => exact .done
    | cons y queue =>
      refine .round (ih ?_)
      have shrinks := card_sdiff_addFresh seen (hU y)
      simp only [List.length_append, List.length_cons] at hf ⊢
      omega

theorem Sweeps.subset {all : List String} (h : Sweeps next seen queue all) : ∀ x ∈ seen, x ∈ all := by
  induction h with
  | done => exact fun x hx => hx
  | round _ ih => exact fun x hx => ih x (List.mem_append_left _ hx)

/-- What a search has seen can be reached. -/
theorem Sweeps.reaches {all : List String} (h : Sweeps next seen queue all)
    (hs : ∀ x ∈ seen, ReflTransGen (fun a b => b ∈ next a) id x) (hq : ∀ x ∈ queue, x ∈ seen) :
    ∀ x ∈ all, ReflTransGen (fun a b => b ∈ next a) id x := by
  induction h with
  | done => exact hs
  | @round seen queue all y _ ih =>
    refine ih (fun x hx => ?_) (fun x hx => ?_)
    · rcases List.mem_append.mp hx with hx | hx
      · exact hs x hx
      · exact (hs y (hq y (.head _))).tail (mem_addFresh.mp hx).1
    · rcases List.mem_append.mp hx with hx | hx
      · exact List.mem_append_left _ (hq x (.tail _ hx))
      · exact List.mem_append_right _ hx

/-- A search ends with ids that lead to no others. -/
theorem Sweeps.closed {all : List String} (h : Sweeps next seen queue all)
    (hs : ∀ a ∈ seen, a ∈ queue ∨ ∀ b ∈ next a, b ∈ seen) : ∀ a ∈ all, ∀ b ∈ next a, b ∈ all := by
  induction h with
  | done =>
    intro a ha
    exact (hs a ha).resolve_left List.not_mem_nil
  | @round seen queue all y _ ih =>
    refine ih fun a ha => ?_
    rcases List.mem_append.mp ha with ha | ha
    · rcases hs a ha with hq | hn
      · rcases List.mem_cons.mp hq with rfl | hq
        · right
          intro b hb
          by_cases h : b ∈ seen
          · exact List.mem_append_left _ h
          · exact List.mem_append_right _ (mem_addFresh.mpr ⟨hb, h⟩)
        · exact .inl (List.mem_append_left _ hq)
      · exact .inr fun b hb => List.mem_append_left _ (hn b hb)
    · exact .inl (List.mem_append_right _ ha)

variable {U : Finset String} {bound : Nat}

theorem closure_sweeps (hU : ∀ a, ∀ b ∈ next a, b ∈ U) (hb : U.card ≤ bound) (id : String) :
    Sweeps next [id] [id] (closure next bound id) := by
  refine explore_sweeps hU ?_
  have fewer : (U \ [id].toFinset).card ≤ U.card := Finset.card_le_card Finset.sdiff_subset
  simp only [List.length_singleton]
  omega

/-- A search finds an id just when it can be reached. -/
theorem mem_closure_iff (hU : ∀ a, ∀ b ∈ next a, b ∈ U) (hb : U.card ≤ bound) :
    x ∈ closure next bound id ↔ ReflTransGen (fun a b => b ∈ next a) id x := by
  have sweeps := closure_sweeps hU hb id
  constructor
  · intro hx
    refine sweeps.reaches (fun y hy => ?_) (fun y hy => hy) x hx
    rw [List.mem_singleton.mp hy]
  · intro hx
    induction hx with
    | refl => exact sweeps.subset id (.head _)
    | tail _ hbc ih => exact sweeps.closed (fun a ha => .inl ha) _ ih _ hbc

end Explore

/-! ## Edges -/

/-- An edge from one id to another is declared that is accepted. -/
def Edged (g : Graph) (accept : Edge → Bool) (a b : String) : Prop :=
  ∃ e ∈ g.outgoing a, accept e = true ∧ e.target = b

instance (g : Graph) (accept : Edge → Bool) (a b : String) : Decidable (g.Edged accept a b) :=
  inferInstanceAs (Decidable (∃ e ∈ g.outgoing a, accept e = true ∧ e.target = b))

variable {g : Graph} {accept : Edge → Bool} {id x : String}

theorem mem_outgoing {e : Edge} : e ∈ g.outgoing id ↔ e ∈ g.edges ∧ e.source = id := by
  simp [outgoing, List.mem_filter]

/-- An id is found along edges just when it can be reached along them. -/
theorem mem_reachable_iff : x ∈ g.reachable accept id ↔ ReflTransGen (g.Edged accept) id x := by
  have leads : ∀ a b, b ∈ ((g.outgoing a).filter accept).map (·.target) ↔ g.Edged accept a b := by
    intro a b
    simp only [List.mem_map, List.mem_filter, and_assoc, Edged]
  have targets : (g.edges.map (·.target)).toFinset.card ≤ g.edges.length := by
    have h := List.toFinset_card_le (g.edges.map (·.target))
    rwa [List.length_map] at h
  have bounded : ∀ a, ∀ b ∈ ((g.outgoing a).filter accept).map (·.target), b ∈ (g.edges.map (·.target)).toFinset := by
    intro a b hb
    obtain ⟨e, he, -, rfl⟩ := (leads a b).mp hb
    exact List.mem_toFinset.mpr (List.mem_map.mpr ⟨e, (mem_outgoing.mp he).1, rfl⟩)
  unfold reachable
  rw [mem_closure_iff bounded targets]
  simp only [leads]

end Capability.Graph
