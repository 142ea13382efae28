/-
  Capability.Proofs.Heeding — processes that heed a cancellation.

  A strand learns of a cancellation only where it looks for one: at a checkpoint, where it is about
  to make a call, and while it waits for an answer or for the end of a pause. A process heeds
  cancellations if from each of these places on it begins nothing any more, and neither does it
  after an answer during which the run was cancelled. It may still tell that steps are over.

  (1) `Standing.Heeds.unwinds`: a run that rests and heeds cancellations begins nothing once it is
      cancelled; `Move.answers`: nor once it is cancelled during an answer.
  (2) `Standing.Unwinds.subsides`: it comes to its end without that.
  (3) `Course.subsides`: nothing begins in a split that a branch has won, while it is under way.
  (4) `Activity.Stands.atRest`: whenever a clock has nothing left to do at a moment, the run rests.
-/

import Capability.Proofs.Plays
import Capability.Proofs.Replies

namespace Capability

/-- Whether a notice tells that something begins. -/
def Notice.Begins : Notice → Prop
  | .started _ _ | .event (.runStarted _ _) | .event (.nodeStarted _ _) => True
  | .completed _ _ | .event (.nodeCompleted _ _) | .event (.nodeRetrying _ _ _) | .event (.fallbackUsed _ _)
  | .event (.conditionFailed _) | .event (.questionAsked _ _) | .event (.runFinished _) => False

namespace Execution

/-- Whether something begins in an act, in whichever branch: the dispatch of a node, a step, a
    call of a skill or a question, or the branches of a split. -/
def Act.Begins : Act → Prop
  | .visited _ | .called _ _ | .opened _ => True
  | .told n _ => n.Begins
  | .within _ act => act.Begins
  | .asked _ | .answered _ _ _ _ | .paused _ _ | .gathered _ | .ended | .elsewhere _ _ => False

/-! ## Processes -/

/-- Once it is cancelled, the process begins nothing and ends with something that satisfies `Q`. -/
def Process.Unwinds : {α : Type} → Process α → (α → Prop) → Prop
  | _, .done a, Q => Q a
  | _, .ask .visit _, _ => False
  | _, .ask .stopped next, Q => (next true).Unwinds Q
  | _, .ask (.notify n) next, Q => ¬n.Begins ∧ (next ()).Unwinds Q
  | _, .ask (.call _ _) next, Q => (next .cancelled).Unwinds Q
  | _, .ask (.pause _) next, Q => (next true).Unwinds Q ∧ (next false).Unwinds Q
  | _, .split _ _ _ _, _ => False

/-- The process tells of ends, and of nothing else, until it ends with something that satisfies
    `Q`. -/
def Process.Tells : {α : Type} → Process α → (α → Prop) → Prop
  | _, .done a, Q => Q a
  | _, .ask (.notify n) next, Q => ¬n.Begins ∧ (next ()).Tells Q
  | _, _, _ => False

/-- What the process ends with satisfies `N`. It satisfies `Q` and nothing begins if the process
    is cancelled where it looks for that; and `A` if that happens during an answer. -/
def Process.Heeds : {α : Type} → Process α → (N Q : α → Prop) → (A : Call → Except Fault Json → α → Prop) → Prop
  | _, .done a, N, _, _ => N a
  | _, .ask .visit next, N, Q, A => ∀ r, (next r).Heeds N Q A
  | _, .ask .stopped next, N, Q, A => (next true).Unwinds Q ∧ ∀ r, (next r).Heeds N Q A
  | _, .ask (.notify _) next, N, Q, A => (next ()).Heeds N Q A
  | _, .ask (.call k _) next, N, Q, A =>
    (next .cancelled).Unwinds Q ∧ (∀ outcome, (next (.given outcome)).Unwinds (A k outcome)) ∧ ∀ a, (next a).Heeds N Q A
  | _, .ask (.pause _) next, N, Q, A => ((next true).Unwinds Q ∧ (next false).Unwinds Q) ∧ ∀ r, (next r).Heeds N Q A
  | _, .split _ count branch next, N, Q, A =>
    (∀ i : Fin count, (branch i).Heeds (fun _ => True) (fun _ => True) fun _ _ _ => True) ∧
      ∀ g, (next g).Unwinds Q ∧ (next g).Heeds N Q A

namespace Process

variable {α β : Type} {N N' Q Q' : α → Prop} {A A' : Call → Except Fault Json → α → Prop}

theorem Unwinds.mono {p : Process α} (h : p.Unwinds Q) (hQ : ∀ a, Q a → Q' a) : p.Unwinds Q' := by
  induction p with
  | done a => exact hQ a h
  | ask q next ih =>
    cases q with
    | visit => exact h
    | stopped => exact ih true h hQ
    | notify n => exact ⟨h.1, ih () h.2 hQ⟩
    | call k l => exact ih .cancelled h hQ
    | pause d => exact ⟨ih true h.1 hQ, ih false h.2 hQ⟩
  | split joining count branch next _ _ => exact h

theorem unwinds_bind {p : Process α} {f : α → Process β} {Q : β → Prop} :
    (p.bind f).Unwinds Q ↔ p.Unwinds fun a => (f a).Unwinds Q := by
  induction p with
  | done a => rfl
  | ask q next ih =>
    cases q with
    | visit => rfl
    | stopped => exact ih true
    | notify n => exact and_congr_right fun _ => ih ()
    | call k l => exact ih .cancelled
    | pause d => exact and_congr (ih true) (ih false)
  | split joining count branch next _ _ => rfl

theorem Heeds.mono {p : Process α} (h : p.Heeds N Q A) (hN : ∀ a, N a → N' a) (hQ : ∀ a, Q a → Q' a)
    (hA : ∀ k o a, A k o a → A' k o a) : p.Heeds N' Q' A' := by
  induction p with
  | done a => exact hN a h
  | ask q next ih =>
    cases q with
    | visit => exact fun r => ih r (h r) hN hQ hA
    | stopped => exact ⟨h.1.mono hQ, fun r => ih r (h.2 r) hN hQ hA⟩
    | notify n => exact ih () h hN hQ hA
    | call k l => exact ⟨h.1.mono hQ, fun o => (h.2.1 o).mono (hA k o), fun a => ih a (h.2.2 a) hN hQ hA⟩
    | pause d => exact ⟨⟨h.1.1.mono hQ, h.1.2.mono hQ⟩, fun r => ih r (h.2 r) hN hQ hA⟩
  | split joining count branch next _ ih =>
    exact ⟨h.1, fun g => ⟨(h.2 g).1.mono hQ, ih g (h.2 g).2 hN hQ hA⟩⟩

theorem heeds_bind {p : Process α} {f : α → Process β} {N Q : β → Prop} {A : Call → Except Fault Json → β → Prop} :
    (p.bind f).Heeds N Q A ↔ p.Heeds (fun a => (f a).Heeds N Q A) (fun a => (f a).Unwinds Q)
      fun k o a => (f a).Unwinds (A k o) := by
  induction p with
  | done a => rfl
  | ask q next ih =>
    cases q with
    | visit => exact forall_congr' fun r => ih r
    | stopped => exact and_congr unwinds_bind (forall_congr' fun r => ih r)
    | notify n => exact ih ()
    | call k l => exact and_congr unwinds_bind (and_congr (forall_congr' fun _ => unwinds_bind) (forall_congr' fun a => ih a))
    | pause d => exact and_congr (and_congr unwinds_bind unwinds_bind) (forall_congr' fun r => ih r)
  | split joining count branch next _ ih =>
    exact and_congr_right fun _ => forall_congr' fun g => and_congr unwinds_bind (ih g)

theorem Tells.unwinds {p : Process α} (h : p.Tells Q) : p.Unwinds Q := by
  induction p with
  | done a => exact h
  | ask q next ih =>
    cases q with
    | notify n => exact ⟨h.1, ih () h.2⟩
    | _ => exact h.elim
  | split joining count branch next _ _ => exact h.elim

/-- What only tells of ends never looks for a cancellation. -/
theorem Tells.heeds {p : Process α} (h : p.Tells N) : p.Heeds N Q A := by
  induction p with
  | done a => exact h
  | ask q next ih =>
    cases q with
    | notify n => exact ih () h.2
    | _ => exact h.elim
  | split joining count branch next _ _ => exact h.elim

theorem tells_bind {p : Process α} {f : α → Process β} {Q : β → Prop} :
    (p.bind f).Tells Q ↔ p.Tells fun a => (f a).Tells Q := by
  induction p with
  | done a => rfl
  | ask q next ih =>
    cases q with
    | notify n => exact and_congr_right fun _ => ih ()
    | _ => rfl
  | split joining count branch next _ _ => rfl

theorem Tells.mono {p : Process α} (h : p.Tells Q) (hQ : ∀ a, Q a → Q' a) : p.Tells Q' := by
  induction p with
  | done a => exact hQ a h
  | ask q next ih =>
    cases q with
    | notify n => exact ⟨h.1, ih () h.2 hQ⟩
    | _ => exact h
  | split joining count branch next _ _ => exact h

end Process

/-! ## Standings -/

/-- Once it is cancelled, whatever becomes of the standing begins nothing and ends with something
    that satisfies `Q`. -/
def Standing.Unwinds : {α : Type} → Standing α → (α → Prop) → Prop
  | _, .at p, Q => p.Unwinds Q
  | _, .calling _ _ next, Q => (next .cancelled).Unwinds Q
  | _, .fork _ count branches _ next, Q =>
    (∀ i : Fin count, (branches i).Unwinds fun _ => True) ∧ ∀ g, (next g).Unwinds Q
  | _, .finished a, Q => Q a

def Standing.Heeds : {α : Type} → Standing α → (N Q : α → Prop) → (A : Call → Except Fault Json → α → Prop) → Prop
  | _, .at p, N, Q, A => p.Heeds N Q A
  | _, .calling k _ next, N, Q, A =>
    (next .cancelled).Unwinds Q ∧ (∀ outcome, (next (.given outcome)).Unwinds (A k outcome)) ∧ ∀ a, (next a).Heeds N Q A
  | _, .fork _ count branches _ next, N, Q, A =>
    (∀ i : Fin count, (branches i).Heeds (fun _ => True) (fun _ => True) fun _ _ _ => True) ∧
      ∀ g, (next g).Unwinds Q ∧ (next g).Heeds N Q A
  | _, .finished a, N, _, _ => N a

/-- Whether a strand waits, or is where it looks for a cancellation. -/
def Process.Looks {α : Type} : Process α → Prop
  | .ask .stopped _ | .ask (.call _ _) _ | .ask (.pause _) _ => True
  | .done _ | .ask .visit _ | .ask (.notify _) _ | .split _ _ _ _ => False

/-- Whether all strands wait, are over, or are where they look for a cancellation. -/
def Standing.AtRest : {α : Type} → Standing α → Prop
  | _, .at p => p.Looks ∨ ∃ a, p = .done a
  | _, .calling _ _ _ => True
  | _, .fork _ count branches _ _ => ∀ i : Fin count, (branches i).AtRest
  | _, .finished _ => True

/-- Whether a strand that has not split rests before its end. -/
def Standing.Waits {α : Type} : Standing α → Prop
  | .at p => p.Looks
  | .calling _ _ _ => True
  | .fork _ _ _ _ _ | .finished _ => False

/-- Whether somebody has won the split at a path, which is still under way. A path tells at each
    split which branch to look into. -/
def Standing.WonAt : {α : Type} → List Nat → Standing α → Prop
  | _, [], .fork _ _ _ winner _ => winner.isSome
  | _, i :: path, .fork _ count branches _ _ => ∃ h : i < count, (branches ⟨i, h⟩).WonAt path
  | _, _, _ => False

/-- Whether somebody has won the split at a path, and all of its branches unwind. -/
def Standing.SubsidesAt : {α : Type} → List Nat → Standing α → Prop
  | _, [], .fork _ _ branches winner _ => winner.isSome ∧ ∀ j, (branches j).Unwinds fun _ => True
  | _, i :: path, .fork _ count branches _ _ => ∃ h : i < count, (branches ⟨i, h⟩).SubsidesAt path
  | _, _, _ => False

/-- What an act is to the strand at a path. -/
def Act.under : List Nat → Act → Option Act
  | [], act => some act
  | i :: path, .within j act => if i = j then act.under path else none
  | _ :: _, _ => none

theorem Standing.Unwinds.mono {α : Type} {s : Standing α} {Q Q' : α → Prop} (h : s.Unwinds Q) (hQ : ∀ a, Q a → Q' a) :
    s.Unwinds Q' := by
  cases s with
  | «at» p => exact Process.Unwinds.mono h hQ
  | calling k l next => exact Process.Unwinds.mono h hQ
  | fork joining count branches winner next => exact ⟨h.1, fun g => (h.2 g).mono hQ⟩
  | finished a => exact hQ a h

section Courses

variable {limit : Nat} {α : Type} {b : Bool} {s s' : Standing α} {w w' : Shared} {act : Act} {acts : List Act}
  {N Q : α → Prop} {A : Call → Except Fault Json → α → Prop}

theorem Process.Heeds.unwinds {p : Process α} (h : p.Heeds N Q A) (hp : p.Looks) : p.Unwinds Q := by
  match p with
  | .ask .stopped next => exact h.1
  | .ask (.call k l) next => exact h.1
  | .ask (.pause d) next => exact h.1

/-- What rests and heeds cancellations begins nothing once it is cancelled. -/
theorem Standing.Heeds.unwinds (h : s.Heeds N Q A) (hr : s.AtRest) (hN : ∀ a, N a → Q a) : s.Unwinds Q := by
  induction s with
  | «at» p =>
    obtain hl | ⟨a, rfl⟩ := hr
    · exact Process.Heeds.unwinds h hl
    · exact hN a h
  | calling k l next => exact h.1
  | fork joining count branches winner next ih =>
    exact ⟨fun i => ih i (h.1 i) (hr i) fun _ _ => trivial, fun g => (h.2 g).1⟩
  | finished a => exact hN a h

theorem Standing.Waits.atRest (h : s.Waits) : s.AtRest := by
  cases s with
  | «at» p => exact .inl h
  | calling => trivial
  | fork => exact h.elim
  | finished => trivial

theorem Standing.Waits.unwinds (hw : s.Waits) (h : s.Heeds N Q A) : s.Unwinds Q := by
  cases s with
  | «at» p => exact Process.Heeds.unwinds h hw
  | calling k l next => exact h.1
  | fork => exact hw.elim
  | finished => exact hw.elim

theorem Move.heeds (h : Move limit b s w act s' w') (hs : s.Heeds N Q A) : s'.Heeds N Q A := by
  induction h with
  | visit => exact hs _
  | stopped => exact hs.2 _
  | notify => exact hs
  | call => exact hs
  | skip | answer | expire | interrupt => exact hs.2.2 _
  | pause | cut => exact hs.2 _
  | «open» => exact hs
  | finish => exact hs
  | branch i hm ih =>
    refine ⟨fun j => ?_, hs.2⟩
    by_cases e : j = i
    · subst e; simpa using ih (hs.1 j)
    · simpa [Function.update_of_ne e] using hs.1 j
  | gather => exact (hs.2 _).2

theorem Course.heeds (h : Course limit b s w acts s' w') (hs : s.Heeds N Q A) : s'.Heeds N Q A := by
  induction h with
  | stay => exact hs
  | move hm _ ih => exact ih (hm.heeds hs)
  | elsewhere _ _ _ ih => exact ih hs

/-- What is cancelled and unwinds begins nothing in its next move, and unwinds afterwards. -/
theorem Move.unwinds (h : Move limit b s w act s' w') (hc : (b || w.cancelled) = true) (hs : s.Unwinds Q) :
    ¬act.Begins ∧ s'.Unwinds Q := by
  induction h with
  | visit => exact hs.elim
  | stopped =>
    rw [hc]
    exact ⟨id, hs⟩
  | notify => exact hs
  | call _ _ _ hn | answer _ _ _ _ _ hn | expire _ _ _ hn => rw [hc] at hn; cases hn
  | skip | interrupt => exact ⟨id, hs⟩
  | pause => exact ⟨id, hs.2⟩
  | cut => exact ⟨id, hs.1⟩
  | «open» => exact hs.elim
  | finish => exact ⟨id, hs⟩
  | @branch _ b _ _ _ _ _ winner _ i _ _ hm ih =>
    obtain ⟨quiet, hi⟩ := ih (by rw [Bool.or_right_comm, hc, Bool.true_or]) (hs.1 i)
    refine ⟨quiet, fun j => ?_, hs.2⟩
    by_cases e : j = i
    · subst e; simpa using hi
    · simpa [Function.update_of_ne e] using hs.1 j
  | gather => exact ⟨id, hs.2 _⟩

/-- What is cancelled stays so. -/
theorem Course.still_cancelled (h : Course limit b s w acts s' w') (hc : (b || w.cancelled) = true) : (b || w'.cancelled) = true := by
  rw [h.cancelled, ← Bool.or_assoc, hc, Bool.true_or]

/-- What is cancelled and unwinds begins nothing any more. -/
theorem Course.begins_nothing (h : Course limit b s w acts s' w') (hc : (b || w.cancelled) = true) (hs : s.Unwinds Q) :
    (∀ act ∈ acts, ¬act.Begins) ∧ s'.Unwinds Q := by
  induction h with
  | stay => exact ⟨nofun, hs⟩
  | @move s₁ s₂ _ w₁ w₂ _ act _ hm _ ih =>
    obtain ⟨quiet, hs₂⟩ := hm.unwinds hc hs
    obtain ⟨others, hs'⟩ := ih ((Course.single hm).still_cancelled hc) hs₂
    exact ⟨List.forall_mem_cons.mpr ⟨quiet, others⟩, hs'⟩
  | @elsewhere _ _ w₁ _ _ visits cancels _ ih =>
    have hc₂ : (b || (w₁.cancelled || cancels)) = true := by rw [← Bool.or_assoc, hc, Bool.true_or]
    obtain ⟨others, hs'⟩ := ih hc₂ hs
    exact ⟨List.forall_mem_cons.mpr ⟨id, others⟩, hs'⟩

/-- Where the other strands rest, the strand that is answered begins nothing once it is cancelled
    during the answer. -/
theorem Move.answers (h : Move limit b s w act s' w') {k : Call} {l : Option Duration} {outcome : Except Fault Json}
    {cancels : Bool} (ha : act.core = .answered k l (.given outcome) cancels) (hr : s.AtRest) (hs : s.Heeds N Q A) :
    s'.Unwinds fun a => Q a ∨ A k outcome a := by
  induction h with
  | answer =>
    cases ha
    exact (hs.2.1 outcome).mono fun _ => .inr
  | branch i hm ih =>
    refine ⟨fun j => ?_, fun g => (hs.2 g).1.mono fun _ => .inl⟩
    by_cases e : j = i
    · subst e
      rw [Function.update_self]
      exact (ih ha (hr j) (hs.1 j)).mono fun _ _ => trivial
    · rw [Function.update_of_ne e]
      exact (hs.1 j).unwinds (hr j) fun _ _ => trivial
  | _ => cases ha

/-! ### Splits that somebody has won -/

theorem Act.under_within (i j : Nat) (path : List Nat) (act : Act) :
    (Act.within j act).under (i :: path) = if i = j then act.under path else none := rfl

theorem Standing.WonAt.subsides {path : List Nat} (h : s.WonAt path) (hr : s.AtRest) (hs : s.Heeds N Q A) :
    s.SubsidesAt path := by
  induction path generalizing α with
  | nil =>
    cases s with
    | fork joining count branches winner next => exact ⟨h, fun j => (hs.1 j).unwinds (hr j) fun _ _ => trivial⟩
    | _ => exact h
  | cons i path ih =>
    cases s with
    | fork joining count branches winner next =>
      obtain ⟨hi, h⟩ := h
      exact ⟨hi, ih h (hr _) (hs.1 _)⟩
    | _ => exact h

/-- As long as a split that somebody has won is under way, nothing begins in it. -/
theorem Move.subsides {path : List Nat} (h : Move limit b s w act s' w') (hs : s.SubsidesAt path)
    (hg : ∀ g, act.under path ≠ some (.gathered g)) : (∀ a, act.under path = some a → ¬a.Begins) ∧ s'.SubsidesAt path := by
  induction path generalizing α b s' act with
  | nil =>
    cases s with
    | fork joining count branches winner next =>
      obtain ⟨hw, hb⟩ := hs
      cases h with
      | gather outcomes _ => exact absurd rfl (hg _)
      | @branch _ _ _ _ _ _ _ _ _ j _ t hm =>
        obtain ⟨quiet, hj⟩ := hm.unwinds (by simp [hw]) (hb j)
        obtain ⟨k, rfl⟩ := Option.isSome_iff_exists.mp hw
        refine ⟨fun a ha => ?_, by rw [Standing.elect_some]; rfl, fun i => ?_⟩
        · cases ha
          exact quiet
        · by_cases e : i = j
          · subst e; simpa using hj
          · simpa [Function.update_of_ne e] using hb i
    | _ => exact hs.elim
  | cons i path ih =>
    cases s with
    | fork joining count branches winner next =>
      obtain ⟨hi, hs⟩ := hs
      cases h with
      | gather outcomes ho =>
        rw [ho] at hs
        cases path <;> exact hs.elim
      | @branch _ _ _ _ _ _ _ _ _ j _ t hm =>
        -- a move in another branch is nothing to the split at the path
        by_cases e : i = j.val
        · subst e
          rw [Act.under_within, if_pos rfl] at hg ⊢
          obtain ⟨quiet, hj⟩ := ih hm hs hg
          exact ⟨quiet, hi, by simpa using hj⟩
        · rw [Act.under_within, if_neg e]
          refine ⟨nofun, hi, ?_⟩
          rwa [Function.update_of_ne fun h => e (congrArg Fin.val h)]
    | _ => exact hs.elim

theorem Course.subsides {path : List Nat} (h : Course limit b s w acts s' w') (hs : s.SubsidesAt path)
    (hg : ∀ act ∈ acts, ∀ g, act.under path ≠ some (.gathered g)) :
    ∀ act ∈ acts, ∀ a, act.under path = some a → ¬a.Begins := by
  induction h with
  | stay => exact nofun
  | move hm _ ih =>
    obtain ⟨hhead, hrest⟩ := List.forall_mem_cons.mp hg
    obtain ⟨quiet, hs⟩ := hm.subsides hs hhead
    exact List.forall_mem_cons.mpr ⟨quiet, ih hs hrest⟩
  | elsewhere visits cancels _ ih =>
    refine List.forall_mem_cons.mpr ⟨fun a ha => ?_, ih hs (List.forall_mem_cons.mp hg).2⟩
    cases path with
    | nil => cases ha; exact id
    | cons => cases ha

/-! ### Ends -/

/-- A process that is cancelled can come to its end. -/
theorem Process.comes_to_end (p : Process α) (hc : (b || w.cancelled) = true) :
    ∃ acts a w', Course limit b (.at p) w acts (.finished a) w' := by
  let st : Stage Unit := { visits := w.visits, withdrawn := w.cancelled, memory := () }
  have hst : st.shared = w := by simp [st, Stage.shared, Stage.cancelled]
  let silent : Collaborators Unit := { respond := fun _ _ _ => ({ outcome := none }, ()), told := fun _ _ _ => (false, ()) }
  have ends : Ends limit b (.at p) st (p.unwind silent limit st) := p.ends (by simpa [st, Stage.cancelled] using hc)
  obtain ⟨acts, h⟩ := ends
  exact ⟨acts, _, _, hst ▸ h⟩

section Branches

variable {joining : Joining} {count : Nat} {branches : Fin count → Standing Outcome} {winner : Option Nat}
  {next : Gathered → Process α}
  (hb : ∀ i {b : Bool} {w : Shared}, (b || w.cancelled) = true → ∃ acts o w', Course limit b (branches i) w acts (.finished o) w')

include hb in
/-- If its branches can come to their ends, one after another does. -/
theorem Course.ends_branches (hc : (b || w.cancelled) = true) (k : Nat) (hk : k ≤ count) : ∃ standings winner' acts w',
    Course limit b (.fork joining count branches winner next) w acts (.fork joining count standings winner' next) w' ∧
      (∀ j : Fin count, j.val < k → ∃ o, standings j = .finished o) ∧
      ∀ j : Fin count, k ≤ j.val → standings j = branches j := by
  induction k with
  | zero => exact ⟨branches, winner, [], w, .stay, nofun, fun _ _ => rfl⟩
  | succ k ih =>
    obtain ⟨standings, winner₁, acts, w₁, hcourse, hover, hothers⟩ := ih (by omega)
    let i : Fin count := ⟨k, hk⟩
    have hi : standings i = branches i := hothers i (Nat.le_refl k)
    have before (j : Fin count) (hj : j.val < k + 1) (e : j ≠ i) : j.val < k :=
      Nat.lt_of_le_of_ne (Nat.lt_succ_iff.mp hj) fun h => e (Fin.ext h)
    by_cases ho : ∃ o, standings i = .finished o
    · refine ⟨standings, winner₁, acts, w₁, hcourse, fun j hj => ?_, fun j hj => hothers j (by omega)⟩
      by_cases e : j = i
      · exact e ▸ ho
      · exact hover j (before j hj e)
    · have called : (b || winner₁.isSome || w₁.cancelled) = true := by
        rw [Bool.or_right_comm, hcourse.still_cancelled hc, Bool.true_or]
      obtain ⟨_, o, w₂, h⟩ := hb i called
      refine ⟨_, _, _, w₂, hcourse.trans (.lift i (hi ▸ h) fun o h => ho ⟨o, h⟩), fun j hj => ?_, fun j hj => ?_⟩
      · by_cases e : j = i
        · exact ⟨o, by rw [e, Function.update_self]⟩
        · rw [Function.update_of_ne e]
          exact hover j (before j hj e)
      · rw [Function.update_of_ne fun e => Nat.not_succ_le_self k (by rwa [e] at hj)]
        exact hothers j (by omega)

end Branches

/-- Whatever is cancelled can come to its end. -/
theorem Standing.comes_to_end (s : Standing α) (hc : (b || w.cancelled) = true) :
    ∃ acts a w', Course limit b s w acts (.finished a) w' := by
  induction s generalizing b w with
  | «at» p => exact p.comes_to_end hc
  | calling k l next =>
    obtain ⟨acts, a, w', h⟩ := (next .cancelled).comes_to_end hc
    exact ⟨_, a, w', .move (.interrupt k l next hc) h⟩
  | finished a => exact ⟨[], a, w, .stay⟩
  | fork joining count branches winner next ih =>
    obtain ⟨standings, winner', acts, w₁, hcourse, hover, -⟩ := Course.ends_branches (fun i => ih i) hc count (Nat.le_refl _)
    choose outcomes ho using fun j : Fin count => hover j j.isLt
    obtain ⟨acts', a, w', h⟩ := (next ⟨List.ofFn outcomes, winner'⟩).comes_to_end (hcourse.still_cancelled hc)
    exact ⟨_, a, w', hcourse.trans (.move (.gather outcomes ho) h)⟩

/-- Nothing begins any more in whatever becomes of the standing, which comes to its end, with
    something that satisfies `Q`. -/
structure Standing.Subsides (limit : Nat) (b : Bool) (s : Standing α) (w : Shared) (Q : α → Prop) : Prop where
  quiet : ∀ {acts s' w'}, Course limit b s w acts s' w' → ∀ act ∈ acts, ¬act.Begins
  ends : ∃ acts a w', Course limit b s w acts (.finished a) w'
  outcome : ∀ {acts a w'}, Course limit b s w acts (.finished a) w' → Q a

/-- What is cancelled and unwinds subsides. -/
theorem Standing.Unwinds.subsides (h : s.Unwinds Q) (hc : (b || w.cancelled) = true) : s.Subsides limit b w Q where
  quiet hcourse := (hcourse.begins_nothing hc h).1
  ends := s.comes_to_end hc
  outcome hcourse := (hcourse.begins_nothing hc h).2

/-- Where the other strands rest, a standing subsides that is cancelled during the answer of a
    strand. -/
theorem Move.subsides_after (h : Move limit b s w act s' w') {k : Call} {l : Option Duration} {outcome : Except Fault Json}
    {cancels b' : Bool} (ha : act.core = .answered k l (.given outcome) cancels) (hr : s.AtRest) (hs : s.Heeds N Q A)
    (hc : (b' || w'.cancelled) = true) : s'.Subsides limit b' w' fun a => Q a ∨ A k outcome a :=
  (h.answers ha hr hs).subsides hc

/-! ## Moments of a clock -/

/-- Where an activity stands that has nothing left to do at a moment, everything rests. -/
theorem Activity.Stands.atRest {a : Activity α} (h : a.Stands s) : s.AtRest := by
  induction h with
  | done | calling => trivial
  | pausing => exact .inl trivial
  | group _ _ _ _ ih => exact ih

end Courses

/-! ## Walks -/

namespace Walk

variable {α β : Type} {s : Scope} {N Q : Except Halt α → Scope → Prop}
  {A : Call → Except Fault Json → Except Halt α → Scope → Prop}

/-- Once it is cancelled, the walk from a scope begins nothing and comes to something that
    satisfies `Q`. -/
def Unwinds (w : Walk α) (s : Scope) (Q : Except Halt α → Scope → Prop) : Prop :=
  (w.process s).Unwinds fun p => Q p.1 p.2

/-- The walk from a scope tells of ends, and of nothing else, and comes to something that
    satisfies `Q`. -/
def Tells (w : Walk α) (s : Scope) (Q : Except Halt α → Scope → Prop) : Prop := (w.process s).Tells fun p => Q p.1 p.2

/-- The walk from a scope heeds cancellations. -/
def Heeds (w : Walk α) (s : Scope) (N Q : Except Halt α → Scope → Prop)
    (A : Call → Except Fault Json → Except Halt α → Scope → Prop) : Prop :=
  (w.process s).Heeds (fun p => N p.1 p.2) (fun p => Q p.1 p.2) fun k o p => A k o p.1 p.2

/-! ### Cancelled walks -/

theorem Unwinds.mono {w : Walk α} {Q' : Except Halt α → Scope → Prop} (h : w.Unwinds s Q) (hQ : ∀ r s', Q r s' → Q' r s') :
    w.Unwinds s Q' :=
  Process.Unwinds.mono h fun p => hQ p.1 p.2

theorem unwinds_bind {w : Walk α} {f : α → Walk β} {Q : Except Halt β → Scope → Prop} :
    (w >>= f).Unwinds s Q ↔ w.Unwinds s fun r s' =>
      match r with
      | .ok a => (f a).Unwinds s' Q
      | .error h => Q (.error h) s' := by
  unfold Unwinds
  rw [process_bind, Process.unwinds_bind]
  constructor <;> intro h <;> refine h.mono fun p hp => ?_ <;> obtain ⟨_ | _, _⟩ := p <;> exact hp

@[simp] theorem unwinds_get {Q : Except Halt Scope → Scope → Prop} : (get : Walk Scope).Unwinds s Q ↔ Q (.ok s) s := Iff.rfl

@[simp] theorem unwinds_modify {f : Scope → Scope} {Q : Except Halt Unit → Scope → Prop} :
    (modify f : Walk Unit).Unwinds s Q ↔ Q (.ok ()) (f s) := Iff.rfl

@[simp] theorem unwinds_emit {e : Event} {Q : Except Halt Unit → Scope → Prop} :
    (emit e).Unwinds s Q ↔ ¬(Notice.event e).Begins ∧ Q (.ok ()) s := Iff.rfl

/-- A cancelled walk does not come past a checkpoint. -/
theorem unwinds_checkpoint {Q : Except Halt Unit → Scope → Prop} :
    checkpoint.Unwinds s Q ↔ Q (.error .cancelled) s := Iff.rfl

@[simp] theorem unwinds_call {node : String} {k : Call} {l : Option Duration}
    {Q : Except Halt (Except Fault Json) → Scope → Prop} :
    (call node k l).Unwinds s Q ↔ Q (.ok (.error .cancelled)) s := Iff.rfl

/-! ### Walks that tell of ends -/

theorem tells_bind {w : Walk α} {f : α → Walk β} {Q : Except Halt β → Scope → Prop} :
    (w >>= f).Tells s Q ↔ w.Tells s fun r s' =>
      match r with
      | .ok a => (f a).Tells s' Q
      | .error h => Q (.error h) s' := by
  unfold Tells
  rw [process_bind, Process.tells_bind]
  constructor <;> intro h <;> refine h.mono fun p hp => ?_ <;> obtain ⟨_ | _, _⟩ := p <;> exact hp

theorem Tells.mono {w : Walk α} {Q' : Except Halt α → Scope → Prop} (h : w.Tells s Q) (hQ : ∀ r s', Q r s' → Q' r s') :
    w.Tells s Q' :=
  Process.Tells.mono h fun p => hQ p.1 p.2

theorem Tells.unwinds {w : Walk α} (h : w.Tells s Q) : w.Unwinds s Q := Process.Tells.unwinds h

theorem Tells.heeds {w : Walk α} (h : w.Tells s N) : w.Heeds s N Q A := Process.Tells.heeds h

@[simp] theorem tells_modify {f : Scope → Scope} {Q : Except Halt Unit → Scope → Prop} :
    (modify f : Walk Unit).Tells s Q ↔ Q (.ok ()) (f s) := Iff.rfl

@[simp] theorem tells_throw {h : Halt} : (throw h : Walk α).Tells s Q ↔ Q (.error h) s := Iff.rfl

@[simp] theorem tells_emit {e : Event} {Q : Except Halt Unit → Scope → Prop} :
    (emit e).Tells s Q ↔ ¬(Notice.event e).Begins ∧ Q (.ok ()) s := Iff.rfl

@[simp] theorem tells_announceEnd {n : Node} {status : StepStatus} {Q : Except Halt Unit → Scope → Prop} :
    (announceEnd n status).Tells s Q ↔ Q (.ok ()) s :=
  ⟨fun h => h.2.2, fun h => ⟨id, id, h⟩⟩

@[simp] theorem tells_finishStep {n : Node} {step : OpenStep} {status : StepStatus} {report : StepReport}
    {Q : Except Halt Unit → Scope → Prop} :
    (finishStep n step status report).Tells s Q ↔ Q (.ok ()) (s.finishStep step status report) := by
  simp [finishStep, tells_bind]

@[simp] theorem tells_cancelStep {n : Node} {step : OpenStep} :
    (cancelStep n step : Walk α).Tells s Q ↔ Q (.error .cancelled) (s.cancelStep step) := by
  simp [cancelStep, tells_bind]

@[simp] theorem tells_failStep {n : Node} {step : OpenStep} {report : StepReport} {fault : Fault} :
    (failStep n step report fault : Walk α).Tells s Q ↔
      Q (.error (.failed n.id fault))
        (s.finishStep step .failed { report with error := some fault.message }) := by
  simp [failStep, tells_bind]

/-! ### Walks that heed cancellations -/

theorem Heeds.mono {w : Walk α} {N' Q' : Except Halt α → Scope → Prop}
    {A' : Call → Except Fault Json → Except Halt α → Scope → Prop} (h : w.Heeds s N Q A)
    (hN : ∀ r s', N r s' → N' r s') (hQ : ∀ r s', Q r s' → Q' r s')
    (hA : ∀ k o r s', A k o r s' → A' k o r s') : w.Heeds s N' Q' A' :=
  Process.Heeds.mono h (fun p => hN p.1 p.2) (fun p => hQ p.1 p.2) fun k o p => hA k o p.1 p.2

theorem heeds_bind {w : Walk α} {f : α → Walk β} {N Q : Except Halt β → Scope → Prop}
    {A : Call → Except Fault Json → Except Halt β → Scope → Prop} :
    (w >>= f).Heeds s N Q A ↔ w.Heeds s
      (fun r s' =>
        match r with
        | .ok a => (f a).Heeds s' N Q A
        | .error h => N (.error h) s')
      (fun r s' =>
        match r with
        | .ok a => (f a).Unwinds s' Q
        | .error h => Q (.error h) s')
      fun k o r s' =>
        match r with
        | .ok a => (f a).Unwinds s' (A k o)
        | .error h => A k o (.error h) s' := by
  unfold Heeds
  rw [process_bind, Process.heeds_bind]
  constructor <;> intro h <;> refine h.mono (fun p hp => ?_) (fun p hp => ?_) (fun k o p hp => ?_) <;>
    obtain ⟨_ | _, _⟩ := p <;> exact hp

@[simp] theorem heeds_modify {f : Scope → Scope} {N Q : Except Halt Unit → Scope → Prop}
    {A : Call → Except Fault Json → Except Halt Unit → Scope → Prop} :
    (modify f : Walk Unit).Heeds s N Q A ↔ N (.ok ()) (f s) := Iff.rfl

@[simp] theorem heeds_get {N Q : Except Halt Scope → Scope → Prop}
    {A : Call → Except Fault Json → Except Halt Scope → Scope → Prop} :
    (get : Walk Scope).Heeds s N Q A ↔ N (.ok s) s := Iff.rfl

@[simp] theorem heeds_emit {e : Event} {N Q : Except Halt Unit → Scope → Prop}
    {A : Call → Except Fault Json → Except Halt Unit → Scope → Prop} : (emit e).Heeds s N Q A ↔ N (.ok ()) s := Iff.rfl

@[simp] theorem heeds_beginStep {n : Node} {N Q : Except Halt OpenStep → Scope → Prop}
    {A : Call → Except Fault Json → Except Halt OpenStep → Scope → Prop} :
    (beginStep n).Heeds s N Q A ↔ N (.ok (s.nextStep n.id)) (s.beginStep n.id) := Iff.rfl

@[simp] theorem heeds_call {node : String} {k : Call} {l : Option Duration} {N Q : Except Halt (Except Fault Json) → Scope → Prop}
    {A : Call → Except Fault Json → Except Halt (Except Fault Json) → Scope → Prop} :
    (call node k l).Heeds s N Q A ↔
      Q (.ok (.error .cancelled)) s ∧ (∀ o, A k o (.ok o) s) ∧ ∀ a : Answer, N (.ok (a.outcome node l)) s := Iff.rfl

end Walk

end Execution

end Capability
