/-
  Capability.Proofs.Termination — every course comes to an end.

  A process is a tree, of which a move goes down one of the branches; at a split, one of the strands
  does. Nothing else makes a standing move, so it cannot move for ever, and it moves as long as it
  is not over. All that it needs is that the calls it waits for are answered.

  (1) `Standing.acc`: no standing moves for ever.
  (2) `Standing.moves_on`: what is not over can move.
  (3) `Standing.has_end`: so whatever is under way can come to its end.
-/

import Capability.Proofs.Course
import Mathlib.Data.Fin.Tuple.Basic
import Mathlib.Order.GameAdd
import Mathlib.Order.WellFounded

namespace Capability.Execution

/-- Some move leads from the second standing to the first one. -/
def Standing.Follows (limit : Nat) {α : Type} (s' s : Standing α) : Prop := ∃ b w act w', Move limit b s w act s' w'

/-! ## Families -/

/-- One member of the second family is replaced in the first one, by a smaller one. -/
def Lowered {α : Type*} (r : α → α → Prop) {count : Nat} (f' f : Fin count → α) : Prop :=
  ∃ i a, r a (f i) ∧ f' = Function.update f i a

/-- If no member can be lowered for ever, the family cannot either. -/
theorem acc_lowered {α : Type*} {r : α → α → Prop} : ∀ {count : Nat} {f : Fin count → α}, (∀ i, Acc r (f i)) →
    Acc (Lowered r) f
  | 0, f, _ => ⟨f, fun _ ⟨i, _⟩ => i.elim0⟩
  | count + 1, f, h => by
    -- A family is its first member and the others, and only one of these is lowered at a time.
    have parts : Acc (Prod.GameAdd r (Lowered r)) (f 0, Fin.tail f) :=
      (h 0).prod_gameAdd (acc_lowered fun i => h i.succ)
    have lowered : Subrelation (Lowered r) (InvImage (Prod.GameAdd r (Lowered r)) fun f : Fin (count + 1) → α => (f 0, Fin.tail f)) := by
      rintro _ g ⟨i, a, ha, rfl⟩
      refine Prod.gameAdd_mk_iff.mpr ?_
      induction i using Fin.cases with
      | zero => exact .inl ⟨by simpa using ha, by simp⟩
      | succ i => exact .inr ⟨⟨i, a, ha, by simp⟩, Function.update_of_ne (Fin.succ_ne_zero i).symm ..⟩
    exact lowered.accessible (InvImage.accessible _ parts)

/-! ## Moves -/

namespace Standing

variable {limit : Nat} {α : Type}

theorem acc_finished (a : α) : Acc (Follows limit) (.finished a) :=
  ⟨_, fun _ ⟨_, _, _, _, hm⟩ => by cases hm⟩

theorem acc_calling {k : Call} {l : Option Duration} {next : Answer → Process α}
    (h : ∀ a, Acc (Follows limit) (.at (next a))) : Acc (Follows limit) (.calling k l next) := by
  refine ⟨_, fun _ ⟨_, _, _, _, hm⟩ => ?_⟩
  cases hm <;> exact h _

/-- A split is over sometime if its branches are, and what comes behind it. -/
theorem acc_fork {joining : Joining} {count : Nat} {branches : Fin count → Standing Outcome} {next : Gathered → Process α}
    (hb : ∀ i, Acc (Follows limit) (branches i)) (hn : ∀ g, Acc (Follows limit) (.at (next g))) (winner : Option Nat) :
    Acc (Follows limit) (.fork joining count branches winner next) := by
  have family := acc_lowered hb
  induction family generalizing winner with
  | intro branches _ ih =>
    refine ⟨_, fun _ ⟨_, _, _, _, hm⟩ => ?_⟩
    cases hm with
    | @branch _ _ _ _ _ _ _ _ _ i _ s hm =>
      have moved : Acc (Follows limit) s := (hb i).inv ⟨_, _, _, _, hm⟩
      refine ih _ ⟨i, s, ⟨_, _, _, _, hm⟩, rfl⟩ (fun j => ?_) _
      by_cases e : j = i
      · subst e; simpa using moved
      · simpa [Function.update_of_ne e] using hb j
    | gather outcomes ho => exact hn _

theorem acc_at (p : Process α) : Acc (Follows limit) (.at p) := by
  induction p with
  | done a =>
    refine ⟨_, fun _ ⟨_, _, _, _, hm⟩ => ?_⟩
    cases hm
    exact acc_finished a
  | ask q next ih =>
    refine ⟨_, fun _ ⟨_, _, _, _, hm⟩ => ?_⟩
    cases hm with
    | call => exact acc_calling ih
    | _ => exact ih _
  | split joining count branch next ihb ih =>
    refine ⟨_, fun _ ⟨_, _, _, _, hm⟩ => ?_⟩
    cases hm
    exact acc_fork ihb ih none

/-- No standing moves for ever. -/
theorem acc (s : Standing α) : Acc (Follows limit) s := by
  induction s with
  | «at» p => exact acc_at p
  | calling k l next => exact acc_calling fun a => acc_at _
  | fork joining count branches winner next ih => exact acc_fork ih (fun g => acc_at _) winner
  | finished a => exact acc_finished a

/-- There is no infinite sequence of moves. -/
theorem not_for_ever (f : Nat → Standing α) : ¬∀ i, (f (i + 1)).Follows limit (f i) :=
  fun h => not_acc_iff_exists_descending_chain.mpr ⟨f, rfl, h⟩ (f 0).acc

/-- What is not over can move, and if it waits for the answer to a call it can with any. -/
theorem moves_on (s : Standing α) (b : Bool) (w : Shared) :
    (∃ a, s = .finished a) ∨ ∃ act s' w', Move limit b s w act s' w' := by
  induction s generalizing b w with
  | «at» p =>
    cases p with
    | done a => exact .inr ⟨_, _, _, .finish a⟩
    | ask q next =>
      cases q with
      | visit => exact .inr ⟨_, _, _, .visit next⟩
      | stopped => exact .inr ⟨_, _, _, .stopped next⟩
      | notify n => exact .inr ⟨_, _, _, .notify n next false⟩
      | call k l =>
        cases hc : b || w.cancelled with
        | false => exact .inr ⟨_, _, _, .call k l next hc⟩
        | true => exact .inr ⟨_, _, _, .skip k l next hc⟩
      | pause d => exact .inr ⟨_, _, _, .pause d next⟩
    | split joining count branch next => exact .inr ⟨_, _, _, .open joining count branch next⟩
  | calling k l next =>
    cases hc : b || w.cancelled with
    | false => exact .inr ⟨_, _, _, .answer k l next (.ok .null) false hc⟩
    | true => exact .inr ⟨_, _, _, .interrupt k l next hc⟩
  | fork joining count branches winner next ih =>
    by_cases hover : ∀ i, ∃ o, branches i = .finished o
    · choose outcomes ho using hover
      exact .inr ⟨_, _, _, .gather outcomes ho⟩
    · obtain ⟨i, hi⟩ := not_forall.mp hover
      obtain ⟨act, s', w', hm⟩ := (ih i (b || winner.isSome) w).resolve_left hi
      exact .inr ⟨_, _, _, .branch i hm⟩
  | finished a => exact .inl ⟨a, rfl⟩

/-- Whatever is under way can come to its end. -/
theorem has_end (s : Standing α) (b : Bool) (w : Shared) : ∃ acts a w', Course limit b s w acts (.finished a) w' := by
  have terminates : Acc (Follows limit) s := s.acc
  induction terminates generalizing w with
  | intro s _ ih =>
    have further : (∃ a, s = .finished a) ∨ ∃ act s' w', Move limit b s w act s' w' := s.moves_on b w
    obtain ⟨a, rfl⟩ | ⟨act, s', w₁, hm⟩ := further
    · exact ⟨[], a, w, .stay⟩
    · obtain ⟨acts, a, w', h⟩ := ih s' ⟨_, _, _, _, hm⟩ w₁
      exact ⟨act :: acts, a, w', .move hm h⟩

end Standing

/-- So does every course that has begun. -/
theorem Course.goes_on {limit : Nat} {α : Type} {b : Bool} {s s' : Standing α} {w w' : Shared} {acts : List Act}
    (h : Course limit b s w acts s' w') : ∃ post a w'', Course limit b s w (acts ++ post) (.finished a) w'' := by
  obtain ⟨post, a, w'', rest⟩ := s'.has_end b w'
  exact ⟨post, a, w'', h.trans rest⟩

end Capability.Execution
