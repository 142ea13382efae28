/-
  Capability.Proofs.Invocations — which skills a process invokes, and after which.

  A skill is invoked when its call is made; a cancelled strand makes none. A rule tells which
  invocation may follow which others. A process keeps to a rule if each of its invocations follows
  those before it by the rule, whatever is replied.

  (1) `Move.invokes`, `Course.invokes`, `Course.invoked`: what keeps to a rule invokes by it, move by
      move and to its end.
  (2) `Process.invokes_bind`, `Walk.invokes_bind`: what was invoked first comes before the rest.
  (3) `Process.Asks.invokes`: what asks questions only invokes nothing.
  (4) `Process.undisturbed_course`: what an undisturbed process invokes is invoked in one of its courses.
-/

import Capability.Proofs.Terminal

namespace Capability.Execution

/-- The skill that is invoked with an act, in whichever branch. -/
def Act.invocation? (act : Act) : Option Invocation :=
  match act.core with
  | .called (.skill i) _ => some i
  | _ => none

/-- The skills that are invoked with some acts, in order. -/
def invocationsIn (acts : List Act) : List Invocation := acts.filterMap Act.invocation?

theorem invocationsIn_append (acts acts' : List Act) : invocationsIn (acts ++ acts') = invocationsIn acts ++ invocationsIn acts' :=
  List.filterMap_append

/-- Which invocation may follow which others. -/
abbrev Rule := List Invocation → Invocation → Prop

variable {P : Rule} {before : List Invocation}

/-! ## Processes -/

/-- Each skill the process invokes follows those before it by the rule. Where the process ends, `Q`
    holds of all of them and of what it ends with. It does not split. -/
def Process.Invokes (P : Rule) : {α : Type} → Process α → List Invocation → (List Invocation → α → Prop) → Prop
  | _, .done a, before, Q => Q before a
  | _, .ask .visit next, before, Q => ∀ r, (next r).Invokes P before Q
  | _, .ask .stopped next, before, Q => ∀ r, (next r).Invokes P before Q
  | _, .ask (.notify _) next, before, Q => (next ()).Invokes P before Q
  | _, .ask (.call (.skill i) _) next, before, Q =>
    -- The second part is about a strand that is cancelled and makes no call.
    P before i ∧ (next .cancelled).Invokes P before Q ∧ ∀ a, (next a).Invokes P (before ++ [i]) Q
  | _, .ask (.call (.question _) _) next, before, Q => ∀ a, (next a).Invokes P before Q
  | _, .ask (.pause _) next, before, Q => ∀ r, (next r).Invokes P before Q
  | _, .split .., _, _ => False

namespace Process

variable {α β : Type}

theorem Invokes.mono {p : Process α} {Q Q' : List Invocation → α → Prop} (h : p.Invokes P before Q)
    (hQ : ∀ is a, Q is a → Q' is a) : p.Invokes P before Q' := by
  induction p generalizing before with
  | done a => exact hQ before a h
  | ask q next ih =>
    match q with
    | .notify _ => exact ih () h hQ
    | .call (.skill i) _ =>
      obtain ⟨rule, skipped, called⟩ := h
      exact ⟨rule, ih _ skipped hQ, fun a => ih a (called a) hQ⟩
    | .visit | .stopped | .call (.question _) _ | .pause _ => exact fun r => ih r (h r) hQ
  | split joining count branch next _ _ => exact h.elim

theorem invokes_bind {p : Process α} {f : α → Process β} {Q : List Invocation → β → Prop} :
    (p.bind f).Invokes P before Q ↔ p.Invokes P before fun is a => (f a).Invokes P is Q := by
  induction p generalizing before with
  | done a => rfl
  | ask q next ih =>
    match q with
    | .notify _ => exact ih ()
    | .call (.skill i) _ => exact and_congr_right fun _ => and_congr (ih _) (forall_congr' fun a => ih a)
    | .visit | .stopped | .call (.question _) _ | .pause _ => exact forall_congr' fun r => ih r
  | split joining count branch next _ _ => rfl

/-- What asks questions only invokes nothing. -/
theorem Asks.invokes {p : Process α} {Q : List (Call × Answer) → α → Prop} (h : p.Asks Q)
    (hk : ∀ replies a, Q replies a → ∀ r ∈ replies, ¬r.1.IsSkill) :
    p.Invokes P before fun is a => is = before ∧ ∃ replies, Q replies a := by
  induction p with
  | done a => exact ⟨rfl, [], h⟩
  | ask q next ih =>
    match q with
    | .notify _ => exact ih () h hk
    | .call (.skill i) _ =>
      obtain ⟨replies, a, hQ⟩ := (h .cancelled).exists
      exact absurd trivial (hk _ a hQ _ (.head _))
    | .call (.question q) _ =>
      intro a
      have rest := ih a (h a) fun replies b hQ r hr => hk _ b hQ r (.tail _ hr)
      exact rest.mono fun is b ⟨his, replies, hQ⟩ => ⟨his, (.question q, a) :: replies, hQ⟩
    | .visit | .stopped | .pause _ => exact h.elim
  | split joining count branch next _ _ => exact h.elim

/-- Nor does what tells of ends alone. -/
theorem Tells.invokes {p : Process α} {Q : α → Prop} (h : p.Tells Q) :
    p.Invokes P before fun is a => is = before ∧ Q a := by
  refine (h.asks.invokes fun replies a hQ r hr => ?_).mono fun is a ⟨his, _, _, hQ⟩ => ⟨his, hQ⟩
  rw [hQ.1] at hr
  cases hr

end Process

/-! ## Courses -/

def Standing.Invokes (P : Rule) : {α : Type} → Standing α → List Invocation → (List Invocation → α → Prop) → Prop
  | _, .at p, before, Q => p.Invokes P before Q
  | _, .calling _ _ next, before, Q => ∀ a, (next a).Invokes P before Q
  | _, .fork .., _, _ => False
  | _, .finished a, before, Q => Q before a

section Courses

variable {limit : Nat} {α : Type} {b : Bool} {s s' : Standing α} {w w' : Shared} {Q : List Invocation → α → Prop}

/-- A move invokes by the rule if it invokes anything. -/
theorem Move.invokes {act : Act} (h : Move limit b s w act s' w') (hs : s.Invokes P before Q) :
    (∀ i, act.invocation? = some i → P before i) ∧ s'.Invokes P (before ++ act.invocation?.toList) Q := by
  have silent {t : Standing α} (none : act.invocation? = .none) (ht : t.Invokes P before Q) :
      (∀ i, act.invocation? = some i → P before i) ∧ t.Invokes P (before ++ act.invocation?.toList) Q := by
    rw [none]
    exact ⟨nofun, by simpa using ht⟩
  cases h with
  | visit | stopped | pause | cut => exact silent rfl (hs _)
  | notify | finish => exact silent rfl hs
  | call k l next =>
    cases k with
    | skill i =>
      obtain ⟨rule, -, called⟩ := hs
      exact ⟨fun j hj => by cases hj; exact rule, called⟩
    | question q => exact silent rfl hs
  | skip k l next =>
    cases k with
    | skill i => exact silent rfl hs.2.1
    | question q => exact silent rfl (hs _)
  | answer | expire | interrupt => exact silent rfl (hs _)
  | «open» | branch | gather => exact hs.elim

/-- So does a course, with each of its invocations, also if it is not at its end. -/
theorem Course.invokes {acts : List Act} (h : Course limit b s w acts s' w') (hs : s.Invokes P before Q)
    {first behind : List Invocation} {i : Invocation} (hi : invocationsIn acts = first ++ i :: behind) :
    P (before ++ first) i := by
  induction h generalizing before first with
  | stay => simp [invocationsIn] at hi
  | @move _ _ _ _ _ _ act acts hm _ ih =>
    obtain ⟨rule, rest⟩ := hm.invokes hs
    cases ha : act.invocation? with
    | none =>
      rw [ha, Option.toList_none, List.append_nil] at rest
      exact ih rest (by simpa [invocationsIn, List.filterMap_cons, ha] using hi)
    | some j =>
      rw [ha] at rest
      have found : j :: invocationsIn acts = first ++ i :: behind := by
        simpa [invocationsIn, List.filterMap_cons, ha] using hi
      cases first with
      | nil =>
        obtain ⟨rfl, -⟩ := List.cons.inj found
        simpa using rule j ha
      | cons k first =>
        obtain ⟨rfl, later⟩ := List.cons.inj found
        simpa using ih rest later
  | elsewhere _ _ _ ih => exact ih hs hi

/-- At the end of a course `Q` holds of all that was invoked. -/
theorem Course.invoked {a : α} {acts : List Act} (h : Course limit b s w acts (.finished a) w') (hs : s.Invokes P before Q) :
    Q (before ++ invocationsIn acts) a := by
  generalize ht : Standing.finished a = t at h
  induction h generalizing before with
  | stay =>
    subst ht
    show Q (before ++ []) a
    rwa [List.append_nil]
  | @move _ _ _ _ _ _ act acts hm _ ih =>
    have rest := ih (hm.invokes hs).2 ht
    cases ha : act.invocation? <;> simpa [invocationsIn, List.filterMap_cons, ha] using rest
  | elsewhere _ _ _ ih => exact ih hs ht

end Courses

/-! ## Walks -/

namespace Walk

variable {α β : Type} {s : Scope}

/-- The walk from a scope keeps to a rule. -/
def Invokes (P : Rule) (w : Walk α) (s : Scope) (before : List Invocation)
    (Q : List Invocation → Except Halt α → Scope → Prop) : Prop :=
  (w.process s).Invokes P before fun is p => Q is p.1 p.2

theorem Invokes.mono {w : Walk α} {Q Q' : List Invocation → Except Halt α → Scope → Prop} (h : w.Invokes P s before Q)
    (hQ : ∀ is r s', Q is r s' → Q' is r s') : w.Invokes P s before Q' :=
  Process.Invokes.mono h fun is p => hQ is p.1 p.2

theorem invokes_bind {w : Walk α} {f : α → Walk β} {Q : List Invocation → Except Halt β → Scope → Prop} :
    (w >>= f).Invokes P s before Q ↔ w.Invokes P s before fun is r s' =>
      match r with
      | .ok a => (f a).Invokes P s' is Q
      | .error h => Q is (.error h) s' := by
  unfold Invokes
  rw [process_bind, Process.invokes_bind]
  constructor <;> intro h <;> refine h.mono fun is p hp => ?_ <;> obtain ⟨_ | _, _⟩ := p <;> exact hp

/-- A walk that tells of ends alone invokes nothing. -/
theorem Tells.invokes {w : Walk α} {Q : Except Halt α → Scope → Prop} (h : w.Tells s Q) :
    w.Invokes P s before fun is r s' => is = before ∧ Q r s' :=
  Process.Tells.invokes h

@[simp] theorem invokes_beginStep {n : Node} {Q : List Invocation → Except Halt OpenStep → Scope → Prop} :
    (beginStep n).Invokes P s before Q ↔ Q before (.ok (s.nextStep n.id)) (s.beginStep n.id) := Iff.rfl

@[simp] theorem invokes_get {Q : List Invocation → Except Halt Scope → Scope → Prop} :
    (get : Walk Scope).Invokes P s before Q ↔ Q before (.ok s) s := Iff.rfl

@[simp] theorem invokes_skill {node : String} {i : Invocation} {l : Option Duration}
    {Q : List Invocation → Except Halt (Except Fault Json) → Scope → Prop} :
    (call node (.skill i) l).Invokes P s before Q ↔ P before i ∧ Q before (.ok (.error .cancelled)) s ∧
      ∀ a : Answer, Q (before ++ [i]) (.ok (a.outcome node l)) s := Iff.rfl

end Walk

/-! ## Undisturbed processes -/

/-- The skills a process invokes when its calls are answered by a function and nobody cancels it, and
    what it ends with; it is followed up to where it dispatches a node or splits. -/
def Process.undisturbed (answer : Call → Except Fault Json) : {α : Type} → Process α → List Invocation × Option α
  | _, .done a => ([], some a)
  | _, .ask .stopped next => (next false).undisturbed answer
  | _, .ask (.notify _) next => (next ()).undisturbed answer
  | _, .ask (.call (.skill i) _) next =>
    ((next (.given (answer (.skill i)))).undisturbed answer).map (i :: ·) id
  | _, .ask (.call (.question q) _) next => (next (.given (answer (.question q)))).undisturbed answer
  | _, .ask (.pause _) next => (next false).undisturbed answer
  | _, .ask .visit _ | _, .split .. => ([], none)

section Undisturbed

variable {α β : Type} {answer : Call → Except Fault Json} {is : List Invocation} {a : α}

/-- A process goes on undisturbed behind what it began with. -/
theorem Process.undisturbed_bind {p : Process α} (h : p.undisturbed answer = (is, some a)) (f : α → Process β) :
    (p.bind f).undisturbed answer = ((f a).undisturbed answer).map (is ++ ·) id := by
  induction p generalizing is with
  | done a' => cases h; rfl
  | ask q next ih =>
    match q with
    | .stopped | .notify _ | .call (.question _) _ | .pause _ => exact ih _ h f
    | .call (.skill i) _ =>
      generalize hr : (next (.given (answer (.skill i)))).undisturbed answer = r
      obtain ⟨js, o⟩ := r
      have began : (i :: js, o) = (is, some a) := by rw [← h, undisturbed, hr]; rfl
      cases began
      have rest := ih (.given (answer (.skill i))) hr f
      rw [bind, undisturbed, rest]
      rfl
    | .visit => cases h
  | split joining count branch next _ _ => cases h

/-- It invokes at least what it began with. -/
theorem Process.undisturbed_bind_subset (p : Process α) (f : α → Process β) :
    (p.undisturbed answer).1 ⊆ ((p.bind f).undisturbed answer).1 := by
  induction p with
  | done a => exact List.nil_subset _
  | ask q next ih =>
    match q with
    | .stopped | .notify _ | .call (.question _) _ | .pause _ => exact ih _ f
    | .call (.skill i) _ => exact List.cons_subset_cons i (ih _ f)
    | .visit => exact List.nil_subset _
  | split joining count branch next _ _ => exact List.nil_subset _

/-- What tells of ends alone ends undisturbed. -/
theorem Process.Tells.undisturbed {p : Process α} {Q : α → Prop} (h : p.Tells Q) :
    ∃ a, p.undisturbed answer = ([], some a) ∧ Q a := by
  induction p with
  | done a => exact ⟨a, rfl, h⟩
  | ask q next ih =>
    match q with
    | .notify _ => exact ih () h.2
    | .visit | .stopped | .call _ _ | .pause _ => exact h.elim
  | split joining count branch next _ _ => exact h.elim

/-- What an undisturbed process invokes is invoked in one of its courses. -/
theorem Process.undisturbed_course (p : Process α) (answer : Call → Except Fault Json) (limit : Nat) {w : Shared}
    (hw : w.cancelled = false) :
    ∃ acts s, Course limit false (.at p) w acts s w ∧ invocationsIn acts = (p.undisturbed answer).1 := by
  have uncancelled : (⟨w.visits, w.cancelled || false⟩ : Shared) = w := by simp
  have calm : (false || w.cancelled) = false := hw
  induction p with
  | done a => exact ⟨[], _, .stay, rfl⟩
  | ask q next ih =>
    match q with
    | .visit => exact ⟨[], _, .stay, rfl⟩
    | .stopped =>
      have hm : Move limit false (.at (.ask .stopped next)) w _ (.at (next (false || w.cancelled))) w := .stopped next
      rw [calm] at hm
      obtain ⟨acts, s, hc, hi⟩ := ih false
      exact ⟨_, s, .move hm hc, hi⟩
    | .notify n =>
      have hm : Move limit false (.at (.ask (.notify n) next)) w _ (.at (next ())) ⟨w.visits, w.cancelled || false⟩ :=
        .notify n next false
      rw [uncancelled] at hm
      obtain ⟨acts, s, hc, hi⟩ := ih ()
      exact ⟨_, s, .move hm hc, hi⟩
    | .call k l =>
      have ha : Move limit false (.calling k l next) w _ (.at (next (.given (answer k)))) ⟨w.visits, w.cancelled || false⟩ :=
        .answer k l next (answer k) false calm
      rw [uncancelled] at ha
      obtain ⟨acts, s, hc, hi⟩ := ih (.given (answer k))
      refine ⟨_, s, .move (.call k l next calm) (.move ha hc), ?_⟩
      cases k with
      | skill i => exact congrArg (i :: ·) hi
      | question q => exact hi
    | .pause d =>
      obtain ⟨acts, s, hc, hi⟩ := ih false
      exact ⟨_, s, .move (.pause d next) hc, hi⟩
  | split joining count branch next _ _ => exact ⟨[], _, .stay, rfl⟩

end Undisturbed

namespace Walk

variable {α β : Type} {answer : Call → Except Fault Json} {s s' : Scope} {is : List Invocation} {a : α}

/-- What a walk from a scope invokes undisturbed, and what it comes to. -/
def undisturbed (answer : Call → Except Fault Json) (w : Walk α) (s : Scope) :
    List Invocation × Option (Except Halt α × Scope) :=
  (w.process s).undisturbed answer

theorem undisturbed_bind {w : Walk α} (h : w.undisturbed answer s = (is, some (.ok a, s'))) (f : α → Walk β) :
    (w >>= f).undisturbed answer s = ((f a).undisturbed answer s').map (is ++ ·) id := by
  unfold undisturbed
  rw [process_bind]
  exact Process.undisturbed_bind h _

theorem undisturbed_bind_subset (w : Walk α) (f : α → Walk β) (s : Scope) :
    (w.undisturbed answer s).1 ⊆ ((w >>= f).undisturbed answer s).1 := by
  unfold undisturbed
  rw [process_bind]
  exact Process.undisturbed_bind_subset _ _

/-- What is decided by looking at conditions invokes nothing. -/
theorem Decides.undisturbed {w : Walk α} {v : Keyed Json → α} (hv : w.Decides v) (hw : w.Ponders) (s : Scope) :
    ∃ fs, w.undisturbed answer s = ([], some (.ok (v s.context.vars), s.noting fs)) := by
  obtain ⟨⟨r, s'⟩, hr, ⟨a, rfl, rfl⟩, fs, rfl⟩ := Process.Tells.undisturbed (hw.decided hv s)
  exact ⟨fs, hr⟩

end Walk

end Capability.Execution
