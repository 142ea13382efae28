/-
  Capability.Proofs.Rounds — the rounds in which the branches of a split move.

  In whatever order the branches move, each of them moves once in a round, from where it stands,
  and those that move to their ends have the chance to win in that order.

  (1) `moveInOrder_follows`: a round takes a split along a course to where its branches stand then.
  (2) `movingOrder_nodup`, `unwindingOrder_perm`: every branch has one place in the orders.
-/

import Capability.Proofs.Stands
import Mathlib.Data.List.Nodup

namespace Capability.Execution

variable {σ : Type} {limit : Nat} {α : Type} {b : Bool}

section Rounds

variable {joining : Joining} {count : Nat} {branches : Fin count → Activity Outcome}
  {standings : Fin count → Standing Outcome} {round : Round} {st : Stage σ}

/-- How a round leaves the branches of a split. -/
structure Round.Leaves (round : Round) (joining : Joining) {count : Nat} (branches : Fin count → Activity Outcome)
    (standings : Fin count → Standing Outcome) : Prop where
  stands : ∀ i, (branches i).Stands (standings i)
  elected : Elected joining standings round.winner
  nodup : round.again.Nodup
  places : ∀ i ∈ round.again, i < count

/-- `move` takes a branch from where it stands along a course. If it is `forced`, the branch is
    called off and comes to its end. -/
def Moves (limit : Nat) (forced : Bool) (s : Standing Outcome)
    (move : Bool → Stage σ → Activity Outcome × Stage σ) : Prop :=
  ∀ (b stopped : Bool) (st : Stage σ), forced = true ∨ stopped = b → (forced = true → (b || st.cancelled) = true) →
    Reaches limit b s st (move stopped st) ∧ (forced = true → (move stopped st).1.isDone = true)

theorem Round.winner_after {a : Activity Outcome} {t : Standing Outcome} (h : a.Stands t) (cancelled : Bool) (i : Nat)
    (before : Option Nat) : (round.after joining cancelled i before a).winner = t.elect joining round.winner i := by
  cases h <;> rfl

theorem Round.again_after (round : Round) (joining : Joining) (cancelled : Bool) (i : Nat) (before : Option Nat)
    (a : Activity Outcome) :
    (round.after joining cancelled i before a).again = round.again ∨
      a.isDone = false ∧ (round.after joining cancelled i before a).again = round.again ++ [i] := by
  unfold Round.after
  cases a with
  | done => exact .inl rfl
  | _ =>
    dsimp only
    split
    · exact .inr ⟨rfl, rfl⟩
    · exact .inl rfl

/-- Branches that begin one after another stand in order. -/
theorem Round.again_lt_after {i : Nat} (h : round.again.Nodup ∧ ∀ j ∈ round.again, j < i) (cancelled : Bool)
    (before : Option Nat) (a : Activity Outcome) :
    (round.after joining cancelled i before a).again.Nodup ∧
      ∀ j ∈ (round.after joining cancelled i before a).again, j < i + 1 := by
  rcases round.again_after joining cancelled i before a with e | ⟨-, e⟩ <;> rw [e]
  · exact ⟨h.1, fun j hj => Nat.lt_succ_of_lt (h.2 j hj)⟩
  · refine ⟨by simpa using List.Nodup.concat (fun hi => Nat.lt_irrefl i (h.2 i hi)) h.1, fun j hj => ?_⟩
    rcases List.mem_append.mp hj with hj | hj
    · exact Nat.lt_succ_of_lt (h.2 j hj)
    · obtain rfl := List.mem_singleton.mp hj
      exact Nat.lt_succ_self j

theorem Round.Leaves.after (h : round.Leaves joining branches standings) (i : Fin count)
    {a : Activity Outcome} (hi : a.isDone = true ∨ i.val ∉ round.again) {t : Standing Outcome} (ha : a.Stands t)
    (cancelled : Bool) (before : Option Nat) :
    (round.after joining cancelled i before a).Leaves joining (Function.update branches i a)
      (Function.update standings i t) where
  stands j := by
    by_cases e : j = i
    · subst e; simpa using ha
    · simpa [Function.update_of_ne e] using h.stands j
  elected := by
    rw [Round.winner_after ha]
    exact h.elected.move i t
  nodup := by
    rcases round.again_after joining cancelled i.val before a with e | ⟨ha, e⟩ <;> rw [e]
    · exact h.nodup
    · simpa using List.Nodup.concat (hi.resolve_left (by simp [ha])) h.nodup
  places j hj := by
    rcases round.again_after joining cancelled i.val before a with e | ⟨-, e⟩ <;> rw [e] at hj
    · exact h.places j hj
    · rcases List.mem_append.mp hj with hj | hj
      · exact h.places j hj
      · obtain rfl := List.mem_singleton.mp hj
        exact i.isLt

theorem set_ofFn {β : Type*} (f : Fin count → β) (i : Fin count) (x : β) :
    (List.ofFn f).set i x = List.ofFn (Function.update f i x) := by
  refine List.ext_getElem (by simp) fun j h₁ h₂ => ?_
  have hj : j < count := by simpa using h₂
  by_cases e : i.val = j
  · obtain rfl : i = ⟨j, hj⟩ := Fin.ext e
    simp
  · have hne : (⟨j, hj⟩ : Fin count) ≠ i := fun he => e (congrArg Fin.val he).symm
    simp [List.getElem_set_ne e, Function.update_of_ne hne]

/-- Moving one after another, branches take the split around them along a course. -/
theorem moveInOrder_follows {forced stopped : Bool} {movers : List (Bool → Stage σ → Activity Outcome × Stage σ)}
    {order : List Nat} (next : Gathered → Process α) (hs : forced = true ∨ stopped = b)
    (hr : round.Leaves joining branches standings) (hnodup : order.Nodup)
    (hagain : forced = true ∨ ∀ i ∈ order, i ∉ round.again)
    (hm : ∀ i ∈ order, ∃ (h : i < count) (move : _), movers[i]? = some move ∧ Moves limit forced (standings ⟨i, h⟩) move)
    (hc : forced = true → (b || round.winner.isSome || st.cancelled) = true) :
    ∃ r, moveInOrder stopped joining movers order (List.ofFn branches) round st = r ∧
      ∃ branches' standings' acts, r.1 = List.ofFn branches' ∧ r.2.1.Leaves joining branches' standings' ∧
        Course limit b (.fork joining count standings round.winner next) st.shared acts
          (.fork joining count standings' r.2.1.winner next) r.2.2.shared ∧
        (∀ i : Fin count, i.val ∉ order → branches' i = branches i) ∧
        (forced = true → ∀ i : Fin count, i.val ∈ order → (branches' i).isDone = true) := by
  induction order generalizing branches standings round st with
  | nil => exact ⟨_, rfl, branches, standings, [], rfl, hr, .stay, fun _ _ => rfl, fun _ _ h => by cases h⟩
  | cons i order ih =>
    obtain ⟨hi, move, hmove, hmoves⟩ := hm i List.mem_cons_self
    obtain ⟨hio, hnodup⟩ := List.nodup_cons.mp hnodup
    have hs' : forced = true ∨ (stopped || round.winner.isSome) = (b || round.winner.isSome) :=
      hs.imp_right fun e => by rw [e]
    obtain ⟨⟨acts, t, hcourse, ht⟩, hdone⟩ := hmoves (b || round.winner.isSome) _ st hs' hc
    generalize hp : move (stopped || round.winner.isSome) st = p at hcourse ht hdone
    obtain ⟨a, st'⟩ := p
    let round' := round.after joining (stopped || st'.cancelled) i (branches ⟨i, hi⟩).split? a
    have hr' : round'.Leaves joining (Function.update branches ⟨i, hi⟩ a) (Function.update standings ⟨i, hi⟩ t) :=
      hr.after ⟨i, hi⟩ (hagain.imp hdone fun h => h i List.mem_cons_self) ht _ _
    have hwin : round'.winner = t.elect joining round.winner i := Round.winner_after ht _ _ _
    have hothers : ∀ j ∈ order, j ≠ i := fun j hj e => hio (e ▸ hj)
    obtain ⟨r, hmoved, branches', standings', acts', hl, hr'', hcourse', hsame, hdone'⟩ := ih hr' hnodup
      (hagain.imp_right fun h j hj => by
        have hj' := h j (List.mem_cons_of_mem _ hj)
        rcases round.again_after joining (stopped || st'.cancelled) i (branches ⟨i, hi⟩).split? a with e | ⟨-, e⟩
        · rwa [e]
        · rw [e]
          simp [hj', hothers j hj])
      (fun j hj => by
        obtain ⟨hj', move', hmove', hmoves'⟩ := hm j (List.mem_cons_of_mem _ hj)
        refine ⟨hj', move', hmove', ?_⟩
        rwa [Function.update_of_ne fun e => hothers j hj (congrArg Fin.val e)])
      (fun hf => by
        have hcalled : (b || round.winner.isSome || st'.cancelled) = true := hcourse.called_off (hc hf)
        rw [hwin]
        cases hw : round.winner with
        | none =>
          rw [hw, Option.isSome_none, Bool.or_false] at hcalled
          rw [Bool.or_right_comm, hcalled, Bool.true_or]
        | some k => simp [Standing.elect_some])
    refine ⟨r, ?_, branches', standings', acts.map (Act.inside i) ++ acts', hl, hr'', ?_, fun j hj => ?_, fun hf j hj => ?_⟩
    · have hbranch : (List.ofFn branches)[i]? = some (branches ⟨i, hi⟩) := by simp [hi]
      rw [← hmoved, moveInOrder, hbranch, hmove]
      dsimp only
      rw [hp, ← set_ofFn]
    · rw [hwin] at hcourse'
      exact (Course.within hr.elected ⟨i, hi⟩ hcourse).trans hcourse'
    · obtain ⟨hji, hj⟩ := not_or.mp (mt List.mem_cons.mpr hj)
      rw [hsame j hj, Function.update_of_ne fun e => hji (congrArg Fin.val e)]
    · rcases List.mem_cons.mp hj with hji | hj
      · obtain rfl : j = ⟨i, hi⟩ := Fin.ext hji
        rw [hsame _ hio, Function.update_self]
        exact hdone hf
      · exact hdone' hf j hj

/-! ## Orders -/

theorem insertBy_perm {β : Type} (key : β → Int) (x : β) (l : List β) : (insertBy key x l).Perm (x :: l) := by
  induction l with
  | nil => exact .rfl
  | cons y l ih =>
    unfold insertBy
    split
    · exact .rfl
    · exact (ih.cons y).trans (.swap x y l)

theorem sortBy_perm {β : Type} (key : β → Int) (l : List β) : (sortBy key l).Perm l := by
  induction l with
  | nil => exact .rfl
  | cons x l ih => exact (insertBy_perm key x _).trans (ih.cons x)

theorem zipIdx_places {β : Type*} (l : List β) : l.zipIdx.map (·.2) = List.range l.length := by
  rw [List.zipIdx_map_snd]
  exact (List.range_eq_range' ..).symm

theorem filterMap_sublist_map {β γ : Type*} {f : β → Option γ} {g : β → γ} (h : ∀ x y, f x = some y → y = g x)
    (l : List β) : (l.filterMap f).Sublist (l.map g) := by
  induction l with
  | nil => exact .refl _
  | cons x l ih =>
    cases hx : f x with
    | none => simpa [hx] using ih.cons _
    | some y => simpa [hx, h x y hx] using ih

/-- Every branch has one place at the most among those that move. -/
theorem movingOrder_nodup (joining : Joining) (now : Nat) (as : List (Activity Outcome)) :
    (movingOrder joining now as).Nodup ∧ ∀ i ∈ movingOrder joining now as, i < as.length := by
  unfold movingOrder
  split
  · exact ⟨List.nodup_range, fun i hi => List.mem_range.mp hi⟩
  · dsimp only
    generalize hm : as.zipIdx.filterMap (fun p => (p.1.waitsOver now).min?.map fun since => (since, p.2)) = moving
    have hsub : (moving.map (·.2)).Sublist (List.range as.length) := by
      rw [← hm, ← zipIdx_places, List.map_filterMap]
      refine filterMap_sublist_map (fun p i hi => ?_) _
      obtain ⟨since, -, rfl⟩ : ∃ since, (p.1.waitsOver now).min? = some since ∧ p.2 = i := by simpa using hi
      rfl
    have hperm := (sortBy_perm (fun p => (p.1 : Int)) moving).map (·.2)
    exact ⟨hperm.nodup_iff.mpr (hsub.nodup List.nodup_range),
      fun i hi => List.mem_range.mp (hsub.subset (hperm.mem_iff.mp hi))⟩

/-- Every branch has one place among those that are unwound. -/
theorem unwindingOrder_perm (fromWithin : Bool) (joining : Joining) (waits : Nat) {queue : List Nat} (seats : List Nat)
    (as : List (Activity Outcome)) (hq : queue.Nodup) (hlt : ∀ i ∈ queue, i < as.length) :
    (unwindingOrder fromWithin joining waits queue seats as).Perm (List.range as.length) := by
  unfold unwindingOrder
  split
  · exact .rfl
  · dsimp only
    have hothers : ((as.zipIdx.filter fun p => !queue.contains p.2).map (·.2)) =
        (List.range as.length).filter fun i => !queue.contains i := by
      rw [← zipIdx_places, List.filter_map]
      rfl
    have hperm := (sortBy_perm (·.1) ((as.zipIdx.filter fun p => !queue.contains p.2).map fun p =>
      (p.1.turn fromWithin waits seats p.2, p.2))).map (·.2)
    rw [List.map_map] at hperm
    refine (List.Perm.append_left queue (hperm.trans (.of_eq hothers))).trans ?_
    refine (List.perm_ext_iff_of_nodup ?_ List.nodup_range).mpr fun i => ?_
    · refine List.nodup_append.mpr ⟨hq, List.nodup_range.filter _, fun i hi j hj e => ?_⟩
      subst e
      simp [hi] at hj
    · by_cases hi : i ∈ queue
      · simp [hi, hlt i hi]
      · simp [hi]

theorem Round.queue_nodup (round : Round) (joining : Joining) (hnodup : round.again.Nodup)
    (hplaces : ∀ i ∈ round.again, i < count)
    (as : List (Activity Outcome)) (now : Nat) :
    (round.queue joining as now).Nodup ∧ ∀ i ∈ round.queue joining as now, i < count := by
  unfold Round.queue
  split
  · exact ⟨hnodup.sublist (List.drop_sublist _ _), fun i hi => hplaces i (List.mem_of_mem_drop hi)⟩
  · exact ⟨List.nodup_nil, fun i hi => by cases hi⟩

end Rounds

end Capability.Execution
