/-
  Capability.Proofs.Stands — where the activities of a clock stand in the courses of a run.

  The leaves of an activity wait for answers or for the ends of pauses, and its groups are the
  splits under way. What the clock lets it do is related to courses by where it stands before
  and afterwards.

  (1) `Course.within`: what a branch does takes the split around it along a course.
  (2) `branches_begin`: so does the beginning of all branches, one after another.
-/

import Capability.Execution.Clock
import Capability.Proofs.Course

namespace Capability.Execution

variable {σ : Type} {c : Collaborators σ} {limit : Nat} {α : Type} {b : Bool}

/-- What the strands share on a stage. -/
def Stage.shared (st : Stage σ) : Shared := ⟨st.visits, st.cancelled⟩

theorem Stage.shared_tell (st : Stage σ) (n : Notice) :
    (st.tell c n).shared = { st.shared with cancelled := st.shared.cancelled || (c.told n st.now st.memory).1 } := by
  simp [shared, tell, Stage.cancelled, Bool.or_right_comm]

/-- Where an activity stands. Nobody has won in a group under way, for then all of its branches
    would be over. -/
inductive Activity.Stands : {α : Type} → Activity α → Standing α → Prop
  | done {α : Type} (a : α) : Stands (.done a) (.finished a)
  | calling {α : Type} {since : Nat} {due expiry : Option Nat} {response : Response} {k : Call} {l : Option Duration}
      {next : Answer → Process α} : (expiry.isSome = true → l.isSome = true) →
      Stands (.calling since due expiry response next) (.calling k l next)
  | pausing {α : Type} {since due : Nat} {d : Duration} {next : Bool → Process α} :
      Stands (.pausing since due next) (.at (.ask (.pause d) next))
  | group {α : Type} {since : Nat} {joining : Joining} {last : Round} {count : Nat}
      {branches : Fin count → Activity Outcome} {standings : Fin count → Standing Outcome}
      {next : Gathered → Process α} : (∀ i, Stands (branches i) (standings i)) →
      (∀ i o, standings i = .finished o → elect joining none i o = none) →
      last.again.Nodup → (∀ i ∈ last.again, i < count) →
      Stands (.group since joining last (List.ofFn branches) next) (.fork joining count standings none next)

/-- A course leads to where an activity stands. -/
def Reaches (limit : Nat) (b : Bool) (s : Standing α) (st : Stage σ) (r : Activity α × Stage σ) : Prop :=
  ∃ acts t, Course limit b s st.shared acts t r.2.shared ∧ r.1.Stands t

/-- A course leads to an end. -/
def Ends (limit : Nat) (b : Bool) (s : Standing α) (st : Stage σ) (r : α × Stage σ) : Prop :=
  ∃ acts, Course limit b s st.shared acts (.finished r.1) r.2.shared

theorem Reaches.after {s t : Standing α} {st st' : Stage σ} {r : Activity α × Stage σ} {acts : List Act}
    (hc : Course limit b s st.shared acts t st'.shared) : Reaches limit b t st' r → Reaches limit b s st r := by
  rintro ⟨acts', u, hc', hu⟩
  exact ⟨_, u, hc.trans hc', hu⟩

theorem Ends.after {s t : Standing α} {st st' : Stage σ} {r : α × Stage σ} {acts : List Act}
    (hc : Course limit b s st.shared acts t st'.shared) : Ends limit b t st' r → Ends limit b s st r := by
  rintro ⟨acts', hc'⟩
  exact ⟨_, hc.trans hc'⟩

/-- Who is called off stays so. -/
theorem Course.called_off {s t : Standing α} {st st' : Stage σ} {acts : List Act}
    (h : Course limit b s st.shared acts t st'.shared) (hc : (b || st.cancelled) = true) :
    (b || st'.cancelled) = true := by
  have hst : st'.cancelled = (st.cancelled || acts.any Act.cancels) := h.cancelled
  rw [hst, ← Bool.or_assoc, hc, Bool.true_or]

/-! ## Branches -/

/-- The branches that are over have had their chance to win. -/
def Elected (joining : Joining) {count : Nat} (standings : Fin count → Standing Outcome) (winner : Option Nat) : Prop :=
  (joining = .all → winner = none) ∧ ∀ i o, standings i = .finished o → elect joining winner i o = winner

/-- Once somebody has won, nobody else does. -/
theorem elect_some (joining : Joining) (i j : Nat) (o : Outcome) : elect joining (some i) j o = some i := by
  cases joining <;> rfl

theorem Standing.elect_some (joining : Joining) (i j : Nat) (t : Standing Outcome) :
    t.elect joining (some i) j = some i := by
  cases t with
  | finished o => exact Execution.elect_some joining i j o
  | _ => rfl

/-- A branch has one chance to win, and leaves the others none if it does. -/
theorem elect_elect {joining : Joining} {winner : Option Nat} {i j : Nat} {o o' : Outcome}
    (h : j = i ∧ o' = o ∨ elect joining winner j o' = winner) :
    elect joining (elect joining winner i o) j o' = elect joining winner i o := by
  cases he : elect joining winner i o with
  | some k => exact elect_some joining k j o'
  | none =>
    obtain rfl : winner = none := by
      cases winner with
      | none => rfl
      | some k => rw [elect_some] at he; cases he
    rcases h with ⟨rfl, rfl⟩ | h
    · exact he
    · exact h

theorem Elected.start (joining : Joining) {count : Nat} (branch : Fin count → Process Outcome) :
    Elected joining (fun i => .at (branch i)) none :=
  ⟨fun _ => rfl, fun _ _ h => by cases h⟩

theorem Elected.move {joining : Joining} {count : Nat} {standings : Fin count → Standing Outcome} {winner : Option Nat}
    (h : Elected joining standings winner) (i : Fin count) (t : Standing Outcome) :
    Elected joining (Function.update standings i t) (t.elect joining winner i) := by
  refine ⟨fun hj => ?_, fun j o ho => ?_⟩
  · subst hj
    cases t <;> exact h.1 rfl
  · by_cases e : j = i
    · subst e
      obtain rfl : t = .finished o := by simpa using ho
      exact elect_elect (.inl ⟨rfl, rfl⟩)
    · rw [Function.update_of_ne e] at ho
      cases t with
      | finished o' => exact elect_elect (.inr (h.2 j o ho))
      | _ => exact h.2 j o ho

/-- A branch takes its course inside a split, also if it is over already. -/
theorem Course.within {joining : Joining} {count : Nat} {standings : Fin count → Standing Outcome}
    {winner : Option Nat} {next : Gathered → Process α} (he : Elected joining standings winner) (i : Fin count)
    {t : Standing Outcome} {w w' : Shared} {acts : List Act}
    (h : Course limit (b || winner.isSome) (standings i) w acts t w') :
    Course limit b (.fork joining count standings winner next) w (acts.map (Act.inside i))
      (.fork joining count (Function.update standings i t) (t.elect joining winner i) next) w' := by
  by_cases ho : ∃ o, standings i = .finished o
  · obtain ⟨o, ho⟩ := ho
    rw [ho] at h
    obtain rfl := h.finished
    rw [← ho, Function.update_eq_self, ho, show (Standing.finished o).elect joining winner i = winner from he.2 i o ho]
    exact h.beside _ i
  · exact h.lift i fun o e => ho ⟨o, e⟩

/-- What a fold over the places up to `n` keeps up step by step is true at its end. -/
theorem foldl_finRange {γ : Type*} {n : Nat} {f : γ → Fin n → γ} {a : γ} (P : Nat → γ → Prop) (start : P 0 a)
    (step : ∀ (i : Fin n) c, P i c → P (i + 1) (f c i)) : P n ((List.finRange n).foldl f a) := by
  induction n with
  | zero => exact start
  | succ n ih =>
    rw [List.finRange_succ_last, List.foldl_append, List.foldl_map]
    exact step (Fin.last n) _ (ih fun i c h => step i.castSucc c h)

section Beginning

variable {β : Type*} {joining : Joining} {count : Nat} {branch : Fin count → Process Outcome}
  {R : β → Standing Outcome → Prop} {xs : List β} {standings : Fin count → Standing Outcome} {winner : Option Nat}

/-- The first branches of a split have begun, and `xs` is what became of them. -/
structure Begun (joining : Joining) (branch : Fin count → Process Outcome) (R : β → Standing Outcome → Prop) (xs : List β)
    (standings : Fin count → Standing Outcome) (winner : Option Nat) : Prop where
  became : ∀ (i : Fin count) x, xs[i.val]? = some x → R x (standings i)
  others : ∀ i : Fin count, xs.length ≤ i.val → standings i = .at (branch i)
  elected : Elected joining standings winner

theorem Begun.next (h : Begun joining branch R xs standings winner) {i : Fin count} (hi : xs.length = i.val) {x : β}
    {t : Standing Outcome} (hx : R x t) :
    Begun joining branch R (xs ++ [x]) (Function.update standings i t) (t.elect joining winner i) := by
  refine ⟨fun j y hj => ?_, fun j hj => ?_, h.elected.move i t⟩
  · by_cases e : j = i
    · subst e
      obtain rfl : x = y := by simpa [← hi] using hj
      simpa using hx
    · rw [Function.update_of_ne e]
      refine h.became j y ?_
      have hne : j.val ≠ xs.length := fun hv => e (Fin.ext (hv.trans hi))
      rw [List.getElem?_append] at hj
      split at hj
      · exact hj
      · rw [List.getElem?_singleton, if_neg (by omega)] at hj
        cases hj
  · rw [List.length_append, List.length_singleton] at hj
    have e : j ≠ i := fun e => by subst e; omega
    rw [Function.update_of_ne e]
    exact h.others j (by omega)

/-- Branches begin one after another. `acc` tells how far that has come: what became of the first
    of them, who has won and the stage. -/
theorem branches_begin {γ : Type*} (joining : Joining) (branch : Fin count → Process Outcome)
    (next : Gathered → Process α) (R : β → Standing Outcome → Prop) (became : γ → List β) (winner : γ → Option Nat)
    (stage : γ → Stage σ) (f : γ → Fin count → γ) (acc : γ) (hl : became acc = []) (hw : winner acc = none)
    (hf : ∀ g i, ((b || (stage acc).cancelled) = true → (b || (stage g).cancelled) = true) →
      ∃ x acts t, became (f g i) = became g ++ [x] ∧ winner (f g i) = t.elect joining (winner g) i ∧ R x t ∧
        Course limit (b || (winner g).isSome) (.at (branch i)) (stage g).shared acts t (stage (f g i)).shared) :
    ∃ g, (List.finRange count).foldl f acc = g ∧ ∃ xs standings acts, became g = List.ofFn xs ∧
      (∀ i : Fin count, R (xs i) (standings i)) ∧ Elected joining standings (winner g) ∧
      Course limit b (.fork joining count (fun i => .at (branch i)) none next) (stage acc).shared acts
        (.fork joining count standings (winner g) next) (stage g).shared := by
  obtain ⟨hlen, standings, acts, hb, hc⟩ := foldl_finRange (f := f) (a := acc) (fun k g =>
    (became g).length = k ∧ ∃ standings acts, Begun joining branch R (became g) standings (winner g) ∧
      Course limit b (.fork joining count (fun i => .at (branch i)) none next) (stage acc).shared acts
        (.fork joining count standings (winner g) next) (stage g).shared)
    ⟨by simp [hl], _, [], ⟨by simp [hl], fun _ _ => rfl, by rw [hw]; exact .start joining branch⟩,
      by rw [hw]; exact .stay⟩
    (by
      rintro i g ⟨hlen, standings, acts, hb, hc⟩
      obtain ⟨x, acts', t, hx, ht, hxt, hc'⟩ := hf g i hc.called_off
      rw [← hb.others i (Nat.le_of_eq hlen)] at hc'
      rw [hx, ht]
      exact ⟨by simp [hlen], _, _, hb.next hlen hxt, hc.trans (.within hb.elected i hc')⟩)
  refine ⟨_, rfl, ?_⟩
  generalize (List.finRange count).foldl f acc = g at hlen hb hc ⊢
  obtain ⟨xs, hxs⟩ : ∃ xs : Fin count → β, became g = List.ofFn xs := by
    generalize became g = l at hlen
    subst hlen
    exact ⟨_, List.ofFn_getElem.symm⟩
  exact ⟨xs, standings, acts, hxs, fun i => hb.became i _ (by simp [hxs]), hb.elected, hc⟩

end Beginning

end Capability.Execution
