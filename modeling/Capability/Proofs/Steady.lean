/-
  Capability.Proofs.Steady — runs that nothing disturbs: calls are answered by what is asked
  alone, nothing is cancelled, and no dispatch is refused.

  A process that waits for all branches of its splits then yields one thing only, in one
  number of dispatches, whatever the order in which its branches move.

  (1) `Course.yields`: a steady course ends with what its process yields.
  (2) `Yields.unique`: a process yields one thing.
  (3) `Yields.course`: there is a steady course to what a process yields, in which branches move
      one after another.
-/

import Capability.Proofs.Ensures
import Mathlib.Algebra.BigOperators.Fin
import Mathlib.Algebra.Order.BigOperators.Group.Finset

namespace Capability.Execution

/-- What everybody answers, by what is asked and the time there is for it. -/
abbrev Answers := Call → Option Duration → Answer

/-- Whether a call can be answered so as long as nothing is cancelled. -/
def Answer.IsProper (limit : Option Duration) : Answer → Prop
  | .given _ => True
  | .timedOut => limit.isSome = true
  | .cancelled => False

instance (limit : Option Duration) : (a : Answer) → Decidable (a.IsProper limit)
  | .given _ => .isTrue trivial
  | .timedOut => inferInstanceAs (Decidable (limit.isSome = true))
  | .cancelled => .isFalse id

/-- Nothing is cancelled or refused, and calls are answered by what is asked. -/
def Act.Steady (answers : Answers) : Act → Prop
  | .visited allowed => allowed = true
  | .told _ cancels => cancels = false
  | .answered k limit a cancels => a = answers k limit ∧ cancels = false
  | .within _ act => act.Steady answers
  | .elsewhere _ cancels => cancels = false
  | .asked _ | .called .. | .paused .. | .opened _ | .gathered _ | .ended => True

/-- What a process yields that nothing disturbs, and in how many dispatches: the branches of a
    split yield each on its own. -/
inductive Process.Yields (answers : Answers) : {α : Type} → Process α → α → Nat → Prop
  | done {α : Type} (a : α) : Yields answers (.done a) a 0
  | visit {α : Type} {next : Bool → Process α} {a : α} {n : Nat} :
      Yields answers (next true) a n → Yields answers (.ask .visit next) a (n + 1)
  | stopped {α : Type} {next : Bool → Process α} {a : α} {n : Nat} :
      Yields answers (next false) a n → Yields answers (.ask .stopped next) a n
  | notify {α : Type} {notice : Notice} {next : Unit → Process α} {a : α} {n : Nat} :
      Yields answers (next ()) a n → Yields answers (.ask (.notify notice) next) a n
  | call {α : Type} {k : Call} {l : Option Duration} {next : Answer → Process α} {a : α} {n : Nat} :
      (answers k l).IsProper l → Yields answers (next (answers k l)) a n →
      Yields answers (.ask (.call k l) next) a n
  | pause {α : Type} {d : Duration} {next : Bool → Process α} {a : α} {n : Nat} :
      Yields answers (next false) a n → Yields answers (.ask (.pause d) next) a n
  | split {α : Type} {count : Nat} {branch : Fin count → Process Outcome} {next : Gathered → Process α}
      {a : α} {n : Nat} (outcomes : Fin count → Outcome) (costs : Fin count → Nat) :
      (∀ i, Yields answers (branch i) (outcomes i) (costs i)) →
      Yields answers (next ⟨List.ofFn outcomes, none⟩) a n →
      Yields answers (.split .all count branch next) a (∑ i, costs i + n)

/-- What a standing yields that nothing disturbs. -/
inductive Standing.Yields (answers : Answers) : {α : Type} → Standing α → α → Nat → Prop
  | at {α : Type} {p : Process α} {a : α} {n : Nat} : p.Yields answers a n → Yields answers (.at p) a n
  | calling {α : Type} {k : Call} {l : Option Duration} {next : Answer → Process α} {a : α} {n : Nat} :
      (answers k l).IsProper l → (next (answers k l)).Yields answers a n →
      Yields answers (.calling k l next) a n
  | fork {α : Type} {count : Nat} {branches : Fin count → Standing Outcome} {next : Gathered → Process α}
      {a : α} {n : Nat} (outcomes : Fin count → Outcome) (costs : Fin count → Nat) :
      (∀ i, Yields answers (branches i) (outcomes i) (costs i)) →
      (next ⟨List.ofFn outcomes, none⟩).Yields answers a n →
      Yields answers (.fork .all count branches none next) a (∑ i, costs i + n)
  | finished {α : Type} (a : α) : Yields answers (.finished a) a 0

variable {answers : Answers} {limit : Nat} {α β : Type}

/-! ## What courses end with -/

theorem Act.Steady.cancels {act : Act} (h : act.Steady answers) : act.cancels = false := by
  induction act with
  | told n cancels => exact h
  | answered k l a cancels => exact h.2
  | within i act ih => exact ih h
  | elsewhere visits cancels => exact h
  | _ => rfl

/-- What a split under way yields before a branch moved, at the cost of that move. -/
theorem Standing.Yields.fork_of_update {count : Nat} {branches : Fin count → Standing Outcome}
    {next : Gathered → Process α} {i : Fin count} {t : Standing Outcome} {outcomes : Fin count → Outcome}
    {costs : Fin count → Nat} {a : α} {n m : Nat}
    (hbr : ∀ j, (Function.update branches i t j).Yields answers (outcomes j) (costs j))
    (hi : (branches i).Yields answers (outcomes i) (costs i + m))
    (hp : (next ⟨List.ofFn outcomes, none⟩).Yields answers a n) :
    (Standing.fork .all count branches none next).Yields answers a (∑ j, costs j + n + m) := by
  have hsum : ∑ j, costs j + n + m = ∑ j, Function.update costs i (costs i + m) j + n := by
    rw [Finset.sum_update_of_mem (Finset.mem_univ i), ← Finset.add_sum_erase _ costs (Finset.mem_univ i),
      ← Finset.sdiff_singleton_eq_erase]
    omega
  rw [hsum]
  refine .fork outcomes _ (fun j => ?_) hp
  by_cases e : j = i
  · subst e; simpa using hi
  · simpa [Function.update_of_ne e] using hbr j

/-- A steady move does not change what a standing yields, and costs what it dispatches. -/
theorem Move.yields {b : Bool} {s s' : Standing α} {w w' : Shared} {act : Act} (h : Move limit b s w act s' w')
    (hb : b = false) (hw : w.cancelled = false) (hact : act.Steady answers) {Q : α → Prop}
    (hs : s.Ensures (· = .all) Q) {a : α} {n : Nat} (hy : s'.Yields answers a n) :
    ∃ m, s.Yields answers a (n + m) ∧ w'.visits = w.visits + m ∧ (m = 0 ∨ w'.visits ≤ limit) := by
  induction h generalizing n with
  | @visit _ _ w next =>
    have hl : w.visits < limit := of_decide_eq_true hact
    cases hy with
    | «at» hp =>
      rw [hact] at hp
      exact ⟨1, .at (.visit hp), rfl, .inr hl⟩
  | stopped next =>
    subst hb
    rw [hw] at hy
    cases hy with
    | «at» hp => exact ⟨0, .at (.stopped hp), rfl, .inl rfl⟩
  | notify notice next cancels =>
    obtain rfl : cancels = false := hact
    cases hy with
    | «at» hp => exact ⟨0, .at (.notify hp), rfl, .inl rfl⟩
  | call k l next hc =>
    cases hy with
    | calling hk hp => exact ⟨0, .at (.call hk hp), rfl, .inl rfl⟩
  | skip k l next hc => simp [hb, hw] at hc
  | answer k l next outcome cancels hc =>
    obtain ⟨hk, rfl⟩ := hact
    cases hy with
    | «at» hp =>
      rw [hk] at hp
      exact ⟨0, .calling (hk ▸ trivial) hp, rfl, .inl rfl⟩
  | expire k d next hc =>
    obtain ⟨hk, -⟩ := hact
    cases hy with
    | «at» hp =>
      rw [hk] at hp
      exact ⟨0, .calling (hk ▸ rfl) hp, rfl, .inl rfl⟩
  | interrupt k l next hc => simp [hb, hw] at hc
  | pause d next =>
    cases hy with
    | «at» hp => exact ⟨0, .at (.pause hp), rfl, .inl rfl⟩
  | cut d next hc => simp [hb, hw] at hc
  | «open» joining count branch next =>
    cases hy with
    | fork outcomes costs hbr hp =>
      refine ⟨0, .at (.split outcomes costs (fun i => ?_) hp), rfl, .inl rfl⟩
      cases hbr i with
      | «at» h => exact h
  | finish a' =>
    cases hy with
    | finished => exact ⟨0, .at (.done _), rfl, .inl rfl⟩
  | @branch _ b w w' joining count branches winner next i act t hm ih =>
    obtain ⟨rfl, hwin, P, hP, hn⟩ := hs
    obtain rfl := hwin rfl
    generalize hu : Function.update branches i t = branches' at hy
    generalize he : t.elect .all none i = winner' at hy
    cases hy with
    | @fork _ _ _ _ _ n outcomes costs hbr hp =>
      subst hu
      have hi : t.Yields answers (outcomes i) (costs i) := by simpa using hbr i
      obtain ⟨m, hm', hv, hl⟩ := ih (by simp [hb]) hw hact (hP i) hi
      exact ⟨m, .fork_of_update hbr hm' hp, hv, hl⟩
  | @gather _ _ _ _ count branches _ next outcomes ho =>
    obtain ⟨rfl, hwin, -⟩ := hs
    obtain rfl := hwin rfl
    cases hy with
    | «at» hp =>
      have hz : Standing.Yields answers (.fork .all _ branches none next) a (∑ _ : Fin count, 0 + n) := by
        refine .fork outcomes (fun _ => 0) (fun i => ?_) hp
        rw [ho i]
        exact .finished _
      exact ⟨0, by simpa using hz, rfl, .inl rfl⟩

/-- A steady course ends with what the standing yields, and no dispatch of it is refused. -/
theorem Course.yields {s : Standing α} {w w' : Shared} {acts : List Act} {a : α}
    (h : Course limit false s w acts (.finished a) w') (hw : w.cancelled = false)
    (hacts : ∀ act ∈ acts, act.Steady answers) {Q : α → Prop} (hs : s.Ensures (· = .all) Q) :
    ∃ n, s.Yields answers a n ∧ (n = 0 ∨ w.visits + n ≤ limit) := by
  generalize ht : Standing.finished a = t at h
  induction h with
  | stay => exact ⟨0, ht ▸ .finished a, .inl rfl⟩
  | @move _ _ _ w w₁ _ _ _ hm _ ih =>
    have hact := hacts _ List.mem_cons_self
    have hw₁ : w₁.cancelled = false := by rw [hm.cancelled, hw, hact.cancels]; rfl
    obtain ⟨n, hy, hn⟩ := ih hw₁ (fun act ha => hacts act (List.mem_cons_of_mem _ ha)) (hm.ensures hs) ht
    obtain ⟨m, hm', hv, hl⟩ := hm.yields rfl hw hact hs hy
    refine ⟨n + m, hm', ?_⟩
    omega
  | elsewhere visits cancels _ ih =>
    obtain rfl : cancels = false := hacts _ List.mem_cons_self
    obtain ⟨n, hy, hn⟩ := ih (by simpa using hw) (fun act ha => hacts act (List.mem_cons_of_mem _ ha)) hs ht
    refine ⟨n, hy, ?_⟩
    simp only at hn
    omega

/-! ## What processes yield -/

namespace Process

/-- A process yields one thing. -/
theorem Yields.unique {p : Process α} {a a' : α} {n n' : Nat} (h : p.Yields answers a n)
    (h' : p.Yields answers a' n') : a = a' ∧ n = n' := by
  induction h generalizing n' with
  | done => cases h'; exact ⟨rfl, rfl⟩
  | visit _ ih =>
    cases h' with
    | visit h' =>
      obtain ⟨rfl, rfl⟩ := ih h'
      exact ⟨rfl, rfl⟩
  | stopped _ ih => cases h' with | stopped h' => exact ih h'
  | notify _ ih => cases h' with | notify h' => exact ih h'
  | call _ _ ih => cases h' with | call _ h' => exact ih h'
  | pause _ ih => cases h' with | pause h' => exact ih h'
  | split outcomes costs _ _ ihb ih =>
    cases h' with
    | split outcomes' costs' hb' h' =>
      have ho : outcomes = outcomes' := funext fun i => (ihb i (hb' i)).1
      have hc : costs = costs' := funext fun i => (ihb i (hb' i)).2
      subst ho hc
      obtain ⟨rfl, rfl⟩ := ih h'
      exact ⟨rfl, rfl⟩

/-- Computes what a process yields that waits for all branches of its splits. -/
def yield? (answers : Answers) : {α : Type} → Process α → Option (α × Nat)
  | _, .done a => some (a, 0)
  | _, .ask .visit next => (yield? answers (next true)).map fun p => (p.1, p.2 + 1)
  | _, .ask .stopped next => yield? answers (next false)
  | _, .ask (.notify _) next => yield? answers (next ())
  | _, .ask (.call k l) next =>
    if (answers k l).IsProper l then yield? answers (next (answers k l)) else none
  | _, .ask (.pause _) next => yield? answers (next false)
  | _, .split .first _ _ _ => none
  | _, .split .all _ branch next =>
    if h : ∀ i, (yield? answers (branch i)).isSome = true then
      (yield? answers (next ⟨List.ofFn fun i => ((yield? answers (branch i)).get (h i)).1, none⟩)).map fun p =>
        (p.1, ∑ i, ((yield? answers (branch i)).get (h i)).2 + p.2)
    else none

theorem yields_of_yield? {p : Process α} {a : α} {n : Nat} (h : p.yield? answers = some (a, n)) :
    p.Yields answers a n := by
  induction p generalizing n with
  | done a => cases h; exact .done _
  | ask q next ih =>
    cases q with
    | visit =>
      obtain ⟨⟨a', m⟩, hm, he⟩ := Option.map_eq_some_iff.mp h
      cases he
      exact .visit (ih _ hm)
    | stopped => exact .stopped (ih _ h)
    | notify n => exact .notify (ih _ h)
    | call k l =>
      unfold yield? at h
      split at h
      next hk => exact .call hk (ih _ h)
      next => cases h
    | pause d => exact .pause (ih _ h)
  | split joining count branch next ihb ih =>
    cases joining with
    | first => cases h
    | all =>
      unfold yield? at h
      split at h
      next hb =>
        obtain ⟨⟨a', m⟩, hm, he⟩ := Option.map_eq_some_iff.mp h
        cases he
        exact .split _ _ (fun i => ihb i (Option.some_get (hb i)).symm) (ih _ hm)
      next => cases h

/-- What a process ensures is true of what it yields. -/
theorem Yields.ensured {J : Joining → Prop} {p : Process α} {a : α} {n : Nat} (h : p.Yields answers a n)
    {Q : α → Prop} (hp : p.Ensures J Q) : Q a := by
  induction h with
  | done => exact hp
  | visit _ ih | stopped _ ih | notify _ ih | call _ _ ih | pause _ ih => exact ih (hp _)
  | split outcomes costs _ _ ihb ih =>
    obtain ⟨-, P, hP, hn⟩ := hp
    exact ih (hn outcomes none fun i => ihb i (hP i))

/-- A process that goes on with another one yields what that yields. -/
theorem yields_bind {p : Process α} {f : α → Process β} {b : β} {n : Nat} :
    (p.bind f).Yields answers b n ↔
      ∃ a k m, p.Yields answers a k ∧ (f a).Yields answers b m ∧ n = k + m := by
  constructor
  · intro h
    induction p generalizing n with
    | done a => exact ⟨a, 0, n, .done a, h, by omega⟩
    | ask q next ih =>
      cases h with
      | visit h =>
        obtain ⟨a, k, m, hk, hm, rfl⟩ := ih _ h
        exact ⟨a, k + 1, m, .visit hk, hm, by omega⟩
      | stopped h =>
        obtain ⟨a, k, m, hk, hm, rfl⟩ := ih _ h
        exact ⟨a, k, m, .stopped hk, hm, rfl⟩
      | notify h =>
        obtain ⟨a, k, m, hk, hm, rfl⟩ := ih _ h
        exact ⟨a, k, m, .notify hk, hm, rfl⟩
      | call hc h =>
        obtain ⟨a, k, m, hk, hm, rfl⟩ := ih _ h
        exact ⟨a, k, m, .call hc hk, hm, rfl⟩
      | pause h =>
        obtain ⟨a, k, m, hk, hm, rfl⟩ := ih _ h
        exact ⟨a, k, m, .pause hk, hm, rfl⟩
    | split joining count branch next _ ih =>
      cases h with
      | split outcomes costs hb h =>
        obtain ⟨a, k, m, hk, hm, rfl⟩ := ih _ h
        exact ⟨a, _, m, .split outcomes costs hb hk, hm, by omega⟩
  · rintro ⟨a, k, m, hp, hf, rfl⟩
    induction hp with
    | done => simpa using hf
    | visit _ ih => simpa only [Nat.add_right_comm] using .visit (ih hf)
    | stopped _ ih => exact .stopped (ih hf)
    | notify _ ih => exact .notify (ih hf)
    | call hc _ ih => exact .call hc (ih hf)
    | pause _ ih => exact .pause (ih hf)
    | split outcomes costs hb _ _ ih =>
      simpa only [Nat.add_assoc] using .split outcomes costs hb (ih hf)

end Process

/-! ## Courses one branch after another -/

/-- The branches in `S` are over, the others have not begun. -/
def branchesDone {count : Nat} (branch : Fin count → Process Outcome) (outcomes : Fin count → Outcome)
    (S : Finset (Fin count)) (i : Fin count) : Standing Outcome :=
  if i ∈ S then .finished (outcomes i) else .at (branch i)

theorem branchesDone_insert {count : Nat} (branch : Fin count → Process Outcome) (outcomes : Fin count → Outcome)
    (S : Finset (Fin count)) (i : Fin count) :
    branchesDone branch outcomes (insert i S) =
      Function.update (branchesDone branch outcomes S) i (.finished (outcomes i)) := by
  funext j
  by_cases e : j = i
  · subst e; simp [branchesDone]
  · simp [branchesDone, e]

theorem Act.steady_inside {act : Act} (h : act.Steady answers) (i : Nat) : (act.inside i).Steady answers := by
  cases act <;> exact h

/-- A call under way can be answered properly. -/
theorem Move.answered {limit : Nat} {w : Shared} (hw : w.cancelled = false) {k : Call} {l : Option Duration}
    (hk : (answers k l).IsProper l) (next : Answer → Process α) :
    Move limit false (.calling k l next) w (.answered k l (answers k l) false) (.at (next (answers k l))) w := by
  have hb : (false || w.cancelled) = false := hw
  cases he : answers k l with
  | given outcome =>
    have hm : Move limit false (.calling k l next) w _ _ _ := .answer k l next outcome false hb
    rwa [Bool.or_false] at hm
  | timedOut =>
    rw [he] at hk
    obtain ⟨d, rfl⟩ := Option.isSome_iff_exists.mp hk
    exact .expire k d next hb
  | cancelled =>
    rw [he] at hk
    exact hk.elim

/-- Branch after branch of a split is taken to its end. -/
theorem Course.branches_done {count : Nat} {branch : Fin count → Process Outcome} {outcomes : Fin count → Outcome}
    {costs : Fin count → Nat} {limit : Nat} {w : Shared} (hw : w.cancelled = false)
    (hn : ∑ i, costs i = 0 ∨ w.visits + ∑ i, costs i ≤ limit)
    (hb : ∀ i v, v.cancelled = false → costs i = 0 ∨ v.visits + costs i ≤ limit →
      ∃ acts, Course limit false (.at (branch i)) v acts (.finished (outcomes i)) ⟨v.visits + costs i, false⟩ ∧
        ∀ act ∈ acts, act.Steady answers)
    (next : Gathered → Process α) (S : Finset (Fin count)) :
    ∃ acts, Course limit false (.fork .all count (fun i => .at (branch i)) none next) w acts
        (.fork .all count (branchesDone branch outcomes S) none next) ⟨w.visits + ∑ i ∈ S, costs i, false⟩ ∧
      ∀ act ∈ acts, act.Steady answers := by
  induction S using Finset.induction_on with
  | empty =>
    obtain ⟨visits, cancelled⟩ := w
    obtain rfl : cancelled = false := hw
    have he : branchesDone branch outcomes ∅ = fun i => .at (branch i) := by
      funext i
      exact if_neg (Finset.notMem_empty i)
    rw [he]
    exact ⟨[], .stay, by simp⟩
  | @insert i S hi ihS =>
    obtain ⟨acts, hc, hs⟩ := ihS
    have le : costs i + ∑ j ∈ S, costs j ≤ ∑ j, costs j := by
      rw [← Finset.sum_insert hi]
      exact Finset.sum_le_univ_sum_of_nonneg fun _ => Nat.zero_le _
    obtain ⟨acts', hc', hs'⟩ := hb i ⟨w.visits + ∑ j ∈ S, costs j, false⟩ rfl (by dsimp only; omega)
    have hi' : branchesDone branch outcomes S i = .at (branch i) := if_neg hi
    rw [← hi'] at hc'
    have lifted : Course limit false (.fork .all count (branchesDone branch outcomes S) none next) _ _ _ _ :=
      Course.lift i hc' fun o e => by rw [hi'] at e; cases e
    refine ⟨acts ++ acts'.map (Act.inside i), hc.trans ?_, ?_⟩
    · rw [branchesDone_insert, Finset.sum_insert hi, Nat.add_comm (costs i), ← Nat.add_assoc]
      exact lifted
    · intro act ha
      rcases List.mem_append.mp ha with ha | ha
      · exact hs act ha
      · obtain ⟨act', ha', rfl⟩ := List.mem_map.mp ha
        exact Act.steady_inside (hs' act' ha') i

/-- There is a steady course to what a process yields: its branches may move one after
    another. -/
theorem Process.Yields.course {p : Process α} {a : α} {n : Nat} (h : p.Yields answers a n) (limit : Nat) (w : Shared)
    (hw : w.cancelled = false) (hn : n = 0 ∨ w.visits + n ≤ limit) :
    ∃ acts, Course limit false (.at p) w acts (.finished a) ⟨w.visits + n, false⟩ ∧
      ∀ act ∈ acts, act.Steady answers := by
  induction h generalizing w with
  | done a =>
    obtain ⟨visits, cancelled⟩ := w
    subst hw
    exact ⟨[.ended], .single (.finish a), by simp [Act.Steady]⟩
  | @visit _ next a n _ ih =>
    have hl : w.visits < limit := by omega
    have hm : Move limit false (.at (.ask .visit next)) w (.visited true) (.at (next true))
        { w with visits := w.visits + 1 } := by
      rw [← decide_eq_true hl]
      exact .visit next
    obtain ⟨acts, hc, hs⟩ := ih { w with visits := w.visits + 1 } hw (.inr (by dsimp only; omega))
    rw [show w.visits + (n + 1) = w.visits + 1 + n by omega]
    exact ⟨_, .move hm hc, List.forall_mem_cons.mpr ⟨rfl, hs⟩⟩
  | @stopped _ next a n _ ih =>
    obtain ⟨acts, hc, hs⟩ := ih w hw hn
    have hm : Move limit false (.at (.ask .stopped next)) w (.asked false) (.at (next false)) w := by
      have hm : Move limit false (.at (.ask .stopped next)) w _ _ _ := .stopped next
      rwa [hw] at hm
    exact ⟨_, .move hm hc, List.forall_mem_cons.mpr ⟨trivial, hs⟩⟩
  | @notify _ notice next a n _ ih =>
    obtain ⟨acts, hc, hs⟩ := ih w hw hn
    have hm : Move limit false (.at (.ask (.notify notice) next)) w (.told notice false) (.at (next ())) w := by
      have hm : Move limit false (.at (.ask (.notify notice) next)) w _ _ _ := .notify notice next false
      rwa [Bool.or_false] at hm
    exact ⟨_, .move hm hc, List.forall_mem_cons.mpr ⟨rfl, hs⟩⟩
  | @call _ k l next a n hk _ ih =>
    obtain ⟨acts, hc, hs⟩ := ih w hw hn
    exact ⟨_, .move (.call k l next hw) (.move (.answered hw hk next) hc),
      List.forall_mem_cons.mpr ⟨trivial, List.forall_mem_cons.mpr ⟨⟨rfl, rfl⟩, hs⟩⟩⟩
  | pause _ ih =>
    obtain ⟨acts, hc, hs⟩ := ih w hw hn
    exact ⟨_, .move (.pause _ _) hc, List.forall_mem_cons.mpr ⟨trivial, hs⟩⟩
  | @split _ count branch next a n outcomes costs hb hy ihb ih =>
    obtain ⟨acts, hc, hs⟩ := Course.branches_done hw (by omega) (fun i v => ihb i v) next Finset.univ
    obtain ⟨acts', hc', hs'⟩ := ih ⟨w.visits + ∑ i, costs i, false⟩ rfl (by dsimp only; omega)
    have gather : Move limit false (.fork .all count (branchesDone branch outcomes Finset.univ) none next)
        ⟨w.visits + ∑ i, costs i, false⟩ _ _ _ := .gather outcomes fun i => if_pos (Finset.mem_univ i)
    rw [← Nat.add_assoc]
    refine ⟨_, .move (.open ..) (hc.trans (.move gather hc')), ?_⟩
    intro act ha
    rcases List.mem_cons.mp ha with rfl | ha
    · trivial
    · rcases List.mem_append.mp ha with ha | ha
      · exact hs act ha
      · rcases List.mem_cons.mp ha with rfl | ha
        · trivial
        · exact hs' act ha

end Capability.Execution
