/-
  Capability.Proofs.Terminal — what becomes of a node that was answered with a terminal fault.

  A process asks if it tells and makes calls and does nothing else; it faces terminal faults if it
  only asks wherever such a fault is the answer to an attempt at a skill, or to its first call.

  (1) `Course.asked`, `Course.faced`: what is certain of courses of such processes.
  (2) `recover_pursues`: a terminal fault is the last answer to the attempts at a skill node.
  (3) `handleFailure_asks`: what a node that failed for good is left by, step and all.
-/

import Capability.Proofs.Cancellation
import Capability.Proofs.Failures
import Capability.Proofs.Termination

namespace Capability.Execution

/-! ## Answers -/

/-- Whether a call is an attempt at a skill. -/
def Call.IsSkill : Call → Prop
  | .skill _ => True
  | .question _ => False

/-- The call that is over with an act, and its answer. -/
def Act.reply? : Act → Option (Call × Answer)
  | .answered k _ a _ => some (k, a)
  | _ => none

/-- The calls that are over after some acts, and their answers. -/
def repliesIn (acts : List Act) : List (Call × Answer) := acts.filterMap Act.reply?

/-! ## Processes -/

/-- The process tells and makes calls, and nothing else. It ends with something that satisfies `Q`
    together with the answers it was given. -/
def Process.Asks : {α : Type} → Process α → (List (Call × Answer) → α → Prop) → Prop
  | _, .done a, Q => Q [] a
  | _, .ask (.notify _) next, Q => (next ()).Asks Q
  | _, .ask (.call k _) next, Q => ∀ a, (next a).Asks fun replies => Q ((k, a) :: replies)
  | _, _, _ => False

/-- Where a terminal fault is the answer to an attempt at a skill, or to the first call of a process
    that is fresh, the process only asks from there on, in accordance with `Q`. `N` holds of what
    it ends with, and of whether it is still fresh then. -/
def Process.Faces : {α : Type} → Process α → (fresh : Bool) → (N : Bool → α → Prop) →
    (Q : Fault → List (Call × Answer) → α → Prop) → Prop
  | _, .done a, fresh, N, _ => N fresh a
  | _, .ask .visit next, fresh, N, Q => ∀ r, (next r).Faces fresh N Q
  | _, .ask .stopped next, fresh, N, Q => ∀ r, (next r).Faces fresh N Q
  | _, .ask (.notify _) next, fresh, N, Q => (next ()).Faces fresh N Q
  | _, .ask (.call k _) next, fresh, N, Q =>
    (∀ e, e.isTerminal = true → fresh = true ∨ k.IsSkill → (next (.given (.error e))).Asks (Q e)) ∧
      ∀ a, (next a).Faces false N Q
  | _, .ask (.pause _) next, fresh, N, Q => ∀ r, (next r).Faces fresh N Q
  | _, .split _ _ _ next, fresh, N, Q => ∀ g, (next g).Faces fresh N Q

namespace Process

variable {α β : Type} {fresh : Bool} {N N' : Bool → α → Prop} {Q Q' : Fault → List (Call × Answer) → α → Prop}

theorem Asks.mono {p : Process α} {Q Q' : List (Call × Answer) → α → Prop} (h : p.Asks Q)
    (hQ : ∀ replies a, Q replies a → Q' replies a) : p.Asks Q' := by
  induction p with
  | done a => exact hQ [] a h
  | ask q next ih =>
    cases q with
    | notify n => exact ih () h hQ
    | call k l => exact fun a => ih a (h a) fun replies => hQ ((k, a) :: replies)
    | _ => exact h.elim
  | split joining count branch next _ _ => exact h.elim

theorem asks_bind {p : Process α} {f : α → Process β} {Q : List (Call × Answer) → β → Prop} :
    (p.bind f).Asks Q ↔ p.Asks fun replies a => (f a).Asks fun more => Q (replies ++ more) := by
  induction p generalizing Q with
  | done a => rfl
  | ask q next ih =>
    cases q with
    | notify n => exact ih ()
    | call k l => exact forall_congr' fun a => ih a
    | _ => rfl
  | split joining count branch next _ _ => rfl

/-- Some end of a process that only asks satisfies what all of them do. -/
theorem Asks.exists {p : Process α} {Q : List (Call × Answer) → α → Prop} (h : p.Asks Q) : ∃ replies a, Q replies a := by
  induction p with
  | done a => exact ⟨[], a, h⟩
  | ask q next ih =>
    cases q with
    | notify n => exact ih () h
    | call k l =>
      obtain ⟨replies, a, hQ⟩ := ih .cancelled (h .cancelled)
      exact ⟨_, a, hQ⟩
    | _ => exact h.elim
  | split joining count branch next _ _ => exact h.elim

/-- What asks only is followed by its answers to whatever it ends with. -/
theorem Asks.ensures {J : Joining → Prop} {p : Process α} {Q : List (Call × Answer) → α → Prop} (h : p.Asks Q) :
    p.Ensures J fun a => ∃ replies, Q replies a := by
  induction p with
  | done a => exact ⟨[], h⟩
  | ask q next ih =>
    match q with
    | .notify _ => exact fun r => ih r h
    | .call k _ =>
      intro a
      refine (ih a (h a)).mono fun b hb => ?_
      obtain ⟨replies, hQ⟩ := hb
      exact ⟨(k, a) :: replies, hQ⟩
    | .visit | .stopped | .pause _ => exact h.elim
  | split joining count branch next _ _ => exact h.elim

/-- What tells of ends alone is given no answers. -/
theorem Tells.asks {p : Process α} {Q : α → Prop} (h : p.Tells Q) : p.Asks fun replies a => replies = [] ∧ Q a := by
  induction p with
  | done a => exact ⟨rfl, h⟩
  | ask q next ih =>
    cases q with
    | notify n => exact ih () h.2
    | _ => exact h.elim
  | split joining count branch next _ _ => exact h.elim

/-- What is ensured of the end of a process that tells of ends is true of it as well. -/
theorem Tells.and {J : Joining → Prop} {p : Process α} {Q Q' : α → Prop} (h : p.Tells Q) (h' : p.Ensures J Q') :
    p.Tells fun a => Q a ∧ Q' a := by
  induction p with
  | done a => exact ⟨h, h'⟩
  | ask q next ih =>
    cases q with
    | notify n => exact ⟨h.1, ih () h.2 (h' ())⟩
    | _ => exact h.elim
  | split joining count branch next _ _ => exact h.elim

theorem Faces.mono {p : Process α} (h : p.Faces fresh N Q) (hN : ∀ fresh a, N fresh a → N' fresh a)
    (hQ : ∀ e, e.isTerminal = true → ∀ replies a, Q e replies a → Q' e replies a) : p.Faces fresh N' Q' := by
  induction p generalizing fresh with
  | done a => exact hN fresh a h
  | ask q next ih =>
    cases q with
    | notify n => exact ih () h hN hQ
    | call k l => exact ⟨fun e he hk => (h.1 e he hk).mono (hQ e he), fun a => ih a (h.2 a) hN hQ⟩
    | visit | stopped | pause d => exact fun r => ih r (h r) hN hQ
  | split joining count branch next _ ih => exact fun g => ih g (h g) hN hQ

theorem faces_bind {p : Process α} {f : α → Process β} {N : Bool → β → Prop} {Q : Fault → List (Call × Answer) → β → Prop} :
    (p.bind f).Faces fresh N Q ↔ p.Faces fresh (fun fresh a => (f a).Faces fresh N Q)
      fun e replies a => (f a).Asks fun more => Q e (replies ++ more) := by
  induction p generalizing fresh with
  | done a => rfl
  | ask q next ih =>
    cases q with
    | notify n => exact ih ()
    | call k l =>
      refine and_congr (forall_congr' fun e => ?_) (forall_congr' fun a => ih a)
      exact imp_congr_right fun _ => imp_congr_right fun _ => asks_bind
    | visit | stopped | pause d => exact forall_congr' fun r => ih r
  | split joining count branch next _ ih => exact forall_congr' fun g => ih g

/-- What tells of ends alone meets no faults and stays fresh. -/
theorem Tells.faces {p : Process α} {P : α → Prop} (h : p.Tells P) : p.Faces fresh (fun fresh' a => fresh' = fresh ∧ P a) Q := by
  induction p with
  | done a => exact ⟨rfl, h⟩
  | ask q next ih =>
    cases q with
    | notify n => exact ih () h.2
    | _ => exact h.elim
  | split joining count branch next _ _ => exact h.elim

/-- The faults that questions meet later on do not count. -/
theorem Asks.faces {p : Process α} {P : List (Call × Answer) → α → Prop} (h : p.Asks P)
    (hk : ∀ replies a, P replies a → ∀ r ∈ replies, ¬r.1.IsSkill) : p.Faces false (fun _ _ => True) Q := by
  induction p with
  | done a => trivial
  | ask q next ih =>
    cases q with
    | notify n => exact ih () h hk
    | call k l =>
      refine ⟨fun e _ hs => ?_, fun a => ih a (h a) fun replies b hP r hr => hk _ b hP r (.tail _ hr)⟩
      obtain ⟨replies, b, hP⟩ := (h .cancelled).exists
      exact absurd (hs.resolve_left Bool.false_ne_true) (hk _ b hP _ (.head _))
    | _ => exact h.elim
  | split joining count branch next _ _ => exact h.elim

end Process

/-! ## Courses -/

def Standing.Asks : {α : Type} → Standing α → (List (Call × Answer) → α → Prop) → Prop
  | _, .at p, Q => p.Asks Q
  | _, .calling k _ next, Q => ∀ a, (next a).Asks fun replies => Q ((k, a) :: replies)
  | _, .fork _ _ _ _ _, _ => False
  | _, .finished a, Q => Q [] a

def Standing.Faces : {α : Type} → Standing α → (fresh : Bool) → (Q : Fault → List (Call × Answer) → α → Prop) → Prop
  | _, .at p, fresh, Q => p.Faces fresh (fun _ _ => True) Q
  | _, .calling k _ next, fresh, Q =>
    (∀ e, e.isTerminal = true → fresh = true ∨ k.IsSkill → (next (.given (.error e))).Asks (Q e)) ∧
      ∀ a, (next a).Faces false (fun _ _ => True) Q
  | _, .fork _ _ _ _ next, fresh, Q => ∀ g, (next g).Faces fresh (fun _ _ => True) Q
  | _, .finished _, _, _ => True

section Courses

variable {limit : Nat} {α : Type} {b : Bool} {s s' : Standing α} {w w' : Shared} {act : Act} {acts : List Act} {a : α}

/-- A call that somebody waits for is over before the end. -/
theorem Course.reply_of_calling {k : Call} {l : Option Duration} {next : Answer → Process α}
    (h : Course limit b (.calling k l next) w acts (.finished a) w') : ∃ reply, (k, reply) ∈ repliesIn acts := by
  generalize hs : Standing.calling k l next = t at h
  generalize hu : Standing.finished a = u at h
  induction h with
  | stay => subst hs; cases hu
  | move hm _ _ => subst hs; cases hm <;> exact ⟨_, .head _⟩
  | elsewhere _ _ _ ih => exact ih hs hu

/-- So is every call that is made. -/
theorem Course.reply_of_called {k : Call} {l : Option Duration} (h : Course limit b s w acts (.finished a) w')
    (hk : Act.called k l ∈ acts) : ∃ reply, (k, reply) ∈ repliesIn acts := by
  generalize hu : Standing.finished a = u at h
  induction h with
  | stay => cases hk
  | @move _ s₁ _ _ _ _ act acts hm hc ih =>
    subst hu
    have rest : (∃ reply, (k, reply) ∈ repliesIn acts) → ∃ reply, (k, reply) ∈ repliesIn (act :: acts) := by
      rintro ⟨reply, hr⟩
      obtain ⟨act', hact, hr⟩ := List.mem_filterMap.mp hr
      exact ⟨reply, List.mem_filterMap.mpr ⟨act', .tail _ hact, hr⟩⟩
    cases hk with
    | head =>
      cases hm
      exact rest hc.reply_of_calling
    | tail _ hk => exact rest (ih hk rfl)
  | elsewhere _ _ _ ih =>
    cases hk with
    | tail _ hk => exact ih hk hu

/-- What is certain of a standing that only asks is true at its end. -/
theorem Course.asked {Q : List (Call × Answer) → α → Prop} (h : Course limit b s w acts (.finished a) w') (hs : s.Asks Q) :
    Q (repliesIn acts) a := by
  generalize hu : Standing.finished a = u at h
  induction h generalizing Q with
  | stay => subst hu; exact hs
  | move hm _ ih =>
    cases hm with
    | notify | call | finish => exact ih hs hu
    | skip | answer | expire | interrupt => exact ih (hs _) hu
    | _ => exact hs.elim
  | elsewhere _ _ _ ih => exact ih hs hu

/-- So is what is certain of it after a terminal fault that it faces. -/
theorem Course.faced {Q : Fault → List (Call × Answer) → α → Prop} {fresh : Bool} {pre post : List Act} {k : Call}
    {l : Option Duration} {e : Fault} {cancels : Bool}
    (h : Course limit b s w (pre ++ .answered k l (.given (.error e)) cancels :: post) (.finished a) w')
    (hs : s.Faces fresh Q) (he : e.isTerminal = true) (hk : k.IsSkill ∨ fresh = true ∧ repliesIn pre = []) :
    Q e (repliesIn post) a ∧ ∀ k l, Act.called k l ∈ post → ∃ reply, (k, reply) ∈ repliesIn post := by
  generalize hu : Standing.finished a = u at h
  generalize hacts : pre ++ .answered k l (.given (.error e)) cancels :: post = acts at h
  induction h generalizing pre fresh with
  | stay => simp at hacts
  | move hm hc ih =>
    subst hu
    cases pre with
    | nil =>
      obtain ⟨rfl, rfl⟩ := List.cons.inj hacts
      cases hm
      have asks := hs.1 e he (hk.symm.imp_left And.left)
      exact ⟨hc.asked (s := .at _) asks, fun _ _ => hc.reply_of_called⟩
    | cons act pre =>
      obtain ⟨rfl, rfl⟩ := List.cons.inj hacts
      have still (h : act.reply? = none) : k.IsSkill ∨ fresh = true ∧ repliesIn pre = [] := by
        simpa [repliesIn, List.filterMap_cons, h] using hk
      have spent {r : Call × Answer} (h : act.reply? = some r) : k.IsSkill := by
        simpa [repliesIn, List.filterMap_cons, h] using hk
      cases hm with
      | visit | stopped | pause | cut | gather => exact ih (hs _) (still rfl) rfl rfl
      | notify | call | «open» | branch => exact ih hs (still rfl) rfl rfl
      | finish a =>
        have ended : (Standing.finished a).Faces fresh Q := trivial
        exact ih ended (still rfl) rfl rfl
      | skip | answer | expire | interrupt => exact ih (hs.2 _) (.inl (spent rfl)) rfl rfl
  | elsewhere visits cancels _ ih =>
    cases pre with
    | nil => cases (List.cons.inj hacts).1
    | cons act pre =>
      obtain ⟨rfl, rfl⟩ := List.cons.inj hacts
      exact ih hs (by simpa [repliesIn, List.filterMap_cons, Act.reply?] using hk) hu rfl

end Courses

/-! ## Walks -/

namespace Walk

variable {α β : Type} {s : Scope} {fresh : Bool} {P : Fault → α → Prop}

/-- The walk from a scope tells and makes calls, and nothing else. -/
def Asks (w : Walk α) (s : Scope) (Q : List (Call × Answer) → Except Halt α → Scope → Prop) : Prop :=
  (w.process s).Asks fun replies p => Q replies p.1 p.2

/-- The walk from a scope faces terminal faults. -/
def Faces (w : Walk α) (s : Scope) (fresh : Bool) (N : Bool → Except Halt α → Scope → Prop)
    (Q : Fault → List (Call × Answer) → Except Halt α → Scope → Prop) : Prop :=
  (w.process s).Faces fresh (fun fresh p => N fresh p.1 p.2) fun e replies p => Q e replies p.1 p.2

theorem asks_bind {w : Walk α} {f : α → Walk β} {Q : List (Call × Answer) → Except Halt β → Scope → Prop} :
    (w >>= f).Asks s Q ↔ w.Asks s fun replies r s' =>
      match r with
      | .ok a => (f a).Asks s' fun more => Q (replies ++ more)
      | .error h => Q replies (.error h) s' := by
  unfold Asks
  rw [process_bind, Process.asks_bind]
  constructor <;> intro h <;> refine h.mono fun replies p hp => ?_ <;> obtain ⟨_ | _, _⟩ := p
  all_goals simpa only [Process.Asks, List.append_nil] using hp

theorem faces_bind {w : Walk α} {f : α → Walk β} {N : Bool → Except Halt β → Scope → Prop}
    {Q : Fault → List (Call × Answer) → Except Halt β → Scope → Prop} :
    (w >>= f).Faces s fresh N Q ↔ w.Faces s fresh
      (fun fresh r s' =>
        match r with
        | .ok a => (f a).Faces s' fresh N Q
        | .error h => N fresh (.error h) s')
      fun e replies r s' =>
        match r with
        | .ok a => (f a).Asks s' fun more => Q e (replies ++ more)
        | .error h => Q e replies (.error h) s' := by
  unfold Faces
  rw [process_bind, Process.faces_bind]
  constructor <;> intro h <;> refine h.mono (fun fresh p hp => ?_) fun e _ replies p hp => ?_ <;> obtain ⟨_ | _, _⟩ := p
  all_goals first | exact hp | simpa only [Process.Asks, List.append_nil] using hp

theorem Asks.mono {w : Walk α} {Q Q' : List (Call × Answer) → Except Halt α → Scope → Prop} (h : w.Asks s Q)
    (hQ : ∀ replies r s', Q replies r s' → Q' replies r s') : w.Asks s Q' :=
  Process.Asks.mono h fun replies p => hQ replies p.1 p.2

theorem Faces.mono {w : Walk α} {N N' : Bool → Except Halt α → Scope → Prop}
    {Q Q' : Fault → List (Call × Answer) → Except Halt α → Scope → Prop} (h : w.Faces s fresh N Q)
    (hN : ∀ fresh r s', N fresh r s' → N' fresh r s')
    (hQ : ∀ e, e.isTerminal = true → ∀ replies r s', Q e replies r s' → Q' e replies r s') : w.Faces s fresh N' Q' :=
  Process.Faces.mono h (fun fresh p => hN fresh p.1 p.2) fun e he replies p => hQ e he replies p.1 p.2

theorem Asks.ensures {J : Joining → Prop} {w : Walk α} {Q : List (Call × Answer) → Except Halt α → Scope → Prop}
    (h : w.Asks s Q) : w.Ensures J s fun r s' => ∃ replies, Q replies r s' :=
  Process.Asks.ensures h

theorem Tells.asks {w : Walk α} {Q : Except Halt α → Scope → Prop} (h : w.Tells s Q) :
    w.Asks s fun replies r s' => replies = [] ∧ Q r s' :=
  Process.Tells.asks h

/-- What tells of ends alone meets no faults. -/
theorem Tells.faces {w : Walk α} {P : Except Halt α → Scope → Prop}
    {Q : Fault → List (Call × Answer) → Except Halt α → Scope → Prop} (h : w.Tells s P) :
    w.Faces s fresh (fun _ _ _ => True) Q :=
  Process.Faces.mono (Process.Tells.faces h) (fun _ _ _ => trivial) fun _ _ _ _ => id

@[simp] theorem asks_pure {a : α} {Q : List (Call × Answer) → Except Halt α → Scope → Prop} :
    (pure a : Walk α).Asks s Q ↔ Q [] (.ok a) s := Iff.rfl

@[simp] theorem asks_modify {f : Scope → Scope} {Q : List (Call × Answer) → Except Halt Unit → Scope → Prop} :
    (modify f : Walk Unit).Asks s Q ↔ Q [] (.ok ()) (f s) := Iff.rfl

@[simp] theorem asks_get {Q : List (Call × Answer) → Except Halt Scope → Scope → Prop} :
    (get : Walk Scope).Asks s Q ↔ Q [] (.ok s) s := Iff.rfl

@[simp] theorem asks_emit {e : Event} {Q : List (Call × Answer) → Except Halt Unit → Scope → Prop} :
    (emit e).Asks s Q ↔ Q [] (.ok ()) s := Iff.rfl

@[simp] theorem asks_call {node : String} {k : Call} {l : Option Duration}
    {Q : List (Call × Answer) → Except Halt (Except Fault Json) → Scope → Prop} :
    (call node k l).Asks s Q ↔ ∀ a : Answer, Q [(k, a)] (.ok (a.outcome node l)) s := Iff.rfl

@[simp] theorem faces_beginStep {n : Node} {N : Bool → Except Halt OpenStep → Scope → Prop}
    {Q : Fault → List (Call × Answer) → Except Halt OpenStep → Scope → Prop} :
    (beginStep n).Faces s fresh N Q ↔ N fresh (.ok (s.nextStep n.id)) (s.beginStep n.id) := Iff.rfl

@[simp] theorem faces_modify {f : Scope → Scope} {N : Bool → Except Halt Unit → Scope → Prop}
    {Q : Fault → List (Call × Answer) → Except Halt Unit → Scope → Prop} :
    (modify f : Walk Unit).Faces s fresh N Q ↔ N fresh (.ok ()) (f s) := Iff.rfl

@[simp] theorem faces_get {N : Bool → Except Halt Scope → Scope → Prop}
    {Q : Fault → List (Call × Answer) → Except Halt Scope → Scope → Prop} :
    (get : Walk Scope).Faces s fresh N Q ↔ N fresh (.ok s) s := Iff.rfl

@[simp] theorem faces_emit {e : Event} {N : Bool → Except Halt Unit → Scope → Prop}
    {Q : Fault → List (Call × Answer) → Except Halt Unit → Scope → Prop} :
    (emit e).Faces s fresh N Q ↔ N fresh (.ok ()) s := Iff.rfl

@[simp] theorem faces_call {node : String} {k : Call} {l : Option Duration}
    {N : Bool → Except Halt (Except Fault Json) → Scope → Prop}
    {Q : Fault → List (Call × Answer) → Except Halt (Except Fault Json) → Scope → Prop} :
    (call node k l).Faces s fresh N Q ↔
      (∀ e, e.isTerminal = true → fresh = true ∨ k.IsSkill → Q e [] (.ok (.error e)) s) ∧
        ∀ a : Answer, N false (.ok (a.outcome node l)) s := Iff.rfl

/-- What is decided by a walk that only tells is what it comes to. -/
theorem Ponders.decided {w : Walk α} (h : w.Ponders) {v : Keyed Json → α} (hv : w.Decides v) (s : Scope) :
    w.Tells s (Noted s (· = v s.context.vars)) := by
  refine Process.Tells.mono (Process.Tells.and (h s) (hv (fun _ => True) s)) ?_
  rintro ⟨r, s'⟩ ⟨⟨-, hs⟩, hr, -⟩
  exact ⟨⟨_, hr, rfl⟩, hs⟩

/-! ## Attempts -/

/-- The walk makes attempts at skills and calls nothing else. It comes to a value in accordance with
    `P` as soon as one of them is answered with a terminal fault. -/
def Pursues (w : Walk α) (fresh : Bool) (P : Fault → α → Prop) : Prop :=
  ∀ s, w.Faces s fresh (fun fresh r s' => fresh = false ∧ Noted s (fun _ => True) r s')
    fun e replies r s' => replies = [] ∧ Noted s (P e) r s'

theorem Pursues.pure (a : α) : (pure a : Walk α).Pursues false P := fun _ => ⟨rfl, .pure trivial⟩

theorem Pursues.bind {w : Walk β} {P' : Fault → β → Prop} (h : w.Pursues fresh P') {f : β → Walk α}
    (hf : ∀ a, (f a).Pursues false P) (hP : ∀ e a, e.isTerminal = true → P' e a → ∃ b, f a = Pure.pure b ∧ P e b) :
    (w >>= f).Pursues fresh P := by
  intro s
  refine faces_bind.mpr ((h s).mono (fun fresh r s' hr => ?_) fun e he replies r s' hr => ?_)
  · obtain ⟨rfl, ⟨a, rfl, -⟩, fs, hs⟩ := hr
    exact (hf a s').mono (fun _ _ _ ⟨hfresh, h⟩ => ⟨hfresh, .trans hs h⟩) fun _ _ _ _ _ ⟨hreplies, h⟩ => ⟨hreplies, .trans hs h⟩
  · obtain ⟨rfl, ⟨a, rfl, ha⟩, fs, hs⟩ := hr
    obtain ⟨b, hb, hPb⟩ := hP e a he ha
    dsimp only
    rw [hb]
    exact ⟨rfl, ⟨b, rfl, hPb⟩, fs, hs⟩

theorem Pursues.ite {c : Prop} [Decidable c] {w w' : Walk α} (h : w.Pursues fresh P) (h' : w'.Pursues fresh P) :
    (if c then w else w').Pursues fresh P := by
  split
  · exact h
  · exact h'

theorem Ponders.pursues_bind {w : Walk β} (h : w.Ponders) {f : β → Walk α} (hf : ∀ a, (f a).Pursues fresh P) :
    (w >>= f).Pursues fresh P := by
  intro s
  refine faces_bind.mpr (Process.Faces.mono (Process.Tells.faces (h s) (Q := fun _ _ _ => False)) ?_ fun _ _ _ _ => False.elim)
  rintro _ ⟨r, s'⟩ ⟨rfl, ⟨a, rfl, -⟩, fs, hs⟩
  exact (hf a s').mono (fun _ _ _ ⟨hfresh, h⟩ => ⟨hfresh, .trans hs h⟩) fun _ _ _ _ _ ⟨hreplies, h⟩ => ⟨hreplies, .trans hs h⟩

theorem Pursues.emit_bind (e : Event) {f : Unit → Walk α} (hf : ∀ a, (f a).Pursues fresh P) :
    (emit e >>= f).Pursues fresh P :=
  fun s => hf () s

theorem Pursues.pause_bind (d : Duration) {f : Bool → Walk α} (hf : ∀ r, (f r).Pursues fresh P) :
    (request (.pause d) >>= f).Pursues fresh P :=
  fun s r => hf r s

theorem Pursues.call (node : String) (i : Invocation) (l : Option Duration) :
    (Execution.call node (.skill i) l).Pursues fresh fun e r => r = .error e :=
  fun _ => ⟨fun _ _ _ => ⟨rfl, .pure rfl⟩, fun _ => ⟨rfl, .pure trivial⟩⟩

end Walk

theorem not_retryable_of_terminal {e : Fault} (h : e.isTerminal = true) : e.isRetryable = false := by
  cases e <;> first | rfl | cases h

section Recovery

variable {st : Setting} {n : Node} {fresh : Bool}

/-- A terminal fault is not retried. -/
theorem attempts_pursue {a : Attempts Walk Json} (ha : ∀ fresh i, (a.attempt i).Pursues fresh fun e r => r = .error e)
    (hn : ∀ i d, a.announce i d = Walk.emit (.nodeRetrying n.id i d)) (hp : ∀ d, a.pause d = Walk.request (.pause d))
    (backoff : Backoff) (retries i : Nat) : (a.run backoff retries i).Pursues fresh fun e r => r.outcome = .error e := by
  induction retries generalizing fresh i with
  | zero =>
    unfold Attempts.run
    refine (ha fresh i).bind (fun r => ?_) fun e r _ hr => ?_
    · cases r <;> exact .pure _
    · subst hr
      exact ⟨_, rfl, rfl⟩
  | succ retries ih =>
    unfold Attempts.run
    simp only [hn, hp]
    refine (ha fresh i).bind (fun r => ?_) fun e r he hr => ?_
    · cases r with
      | ok v => exact .pure _
      | error fault =>
        exact .ite (.emit_bind _ fun _ => .pause_bind _ fun _ => .ite (.pure _) (ih _)) (.pure _)
    · subst hr
      simp only [not_retryable_of_terminal he, Bool.false_eq_true, if_false]
      exact ⟨_, rfl, rfl⟩

theorem attemptSkill_pursues (skill : String) (implementation : Option String) :
    (attemptSkill st n skill implementation).Pursues fresh fun e r => r.outcome = .error e :=
  Walk.Ponders.get.pursues_bind fun _ => attempts_pursue (fun _ _ => .call _ _ _) (fun _ _ => rfl) (fun _ => rfl) _ _ _

/-- Nor is an alternative tried behind it. -/
theorem tryAlternatives_pursues (room : Nat) (attempted : List String) (queue : List Implementation) (retries : Nat)
    (last : Fault) :
    (tryAlternatives st n room attempted queue retries last).Pursues false fun e r => r.outcome = .error e := by
  induction room generalizing attempted queue retries last with
  | zero => unfold tryAlternatives; split <;> exact .pure _
  | succ room ih =>
    unfold tryAlternatives
    split
    · exact .pure _
    · refine .emit_bind _ fun _ => (attemptSkill_pursues _ _).bind (fun r => ?_) fun e r he hr => ?_
      · split
        · exact .pure _
        · exact .ite (.pure _) (ih _ _ _ _)
      · simp only [hr, he, if_true]
        exact ⟨_, rfl, rfl⟩

/-- A terminal fault is the last answer to the attempts at a skill node. -/
theorem recover_pursues (skill : String) : (recover st n skill).Pursues fresh fun e r => r.outcome = .error e := by
  refine (attemptSkill_pursues skill none).bind (fun r => ?_) fun e r he hr => ?_
  · split
    · exact .pure _
    · exact .ite (.pure _) ((rankedImplementations_ponders n).pursues_bind fun _ => tryAlternatives_pursues _ _ _ _ _)
  · simp only [hr, he, if_true]
    exact ⟨_, rfl, rfl⟩

end Recovery

/-! ## Failures -/

/-- Whether a fallback edge is taken under variables that tell of the failure. -/
def fires (vars : Keyed Json) (e : Edge) : Bool :=
  match e.trigger with
  | some t => isTrue vars t
  | none => true

/-- The fallback edge along which a node is left that failed under some variables. -/
def wayOut (s : Setting) (n : Node) (fault : Fault) (vars : Keyed Json) : Option Edge :=
  ((s.graph.outgoing n.id).filter (·.kind = .fallback)).find? (fires (triggerVariables vars n fault))

/-- The step of a node was closed with a fault. -/
def ClosedAs (u : Scope) (n : Node) (fault : Fault) (status : StepStatus) (fallbackUsed : Bool) (u' : Scope) : Prop :=
  ∃ e : Step, u'.context.history = u.context.history ++ [e] ∧ e.node = n.id ∧ e.status = status ∧
    e.fallbackUsed = fallbackUsed ∧ e.error = some fault.message

/-- Whether a failed node is skipped, which somebody is asked if the graph wants that. -/
inductive Skipping (s : Setting) (n : Node) (fault : Fault) : List (Call × Answer) → Except Halt Bool → Prop
  | never : s.graph.strategy = .abort ∨ s.graph.strategy = .firstSuccess → Skipping s n fault [] (.ok false)
  | always : s.graph.strategy = .skip → Skipping s n fault [] (.ok true)
  | answered {a : Answer} {v : Json} : s.graph.strategy = .retryThenAsk → a.outcome n.id none = .ok v →
      Skipping s n fault [(.question (skipQuestion n fault), a)] (.ok (Condition.isTruthy v))
  | unanswered {a : Answer} {f : Fault} : s.graph.strategy = .retryThenAsk → a.outcome n.id none = .error f →
      f ≠ .cancelled → Skipping s n fault [(.question (skipQuestion n fault), a)] (.ok false)
  | cancelled {a : Answer} : s.graph.strategy = .retryThenAsk → a.outcome n.id none = .error .cancelled →
      Skipping s n fault [(.question (skipQuestion n fault), a)] (.error .cancelled)

/-- What becomes of a node that failed for good: it is left along a fallback edge, or it is skipped
    or not. -/
inductive Aftermath (s : Setting) (n : Node) (fault : Fault) (u : Scope) :
    List (Call × Answer) → Except Halt Next → Scope → Prop
  | rerouted {e : Edge} {u' : Scope} : wayOut s n fault u.context.vars = some e → ClosedAs u n fault .failed true u' →
      Aftermath s n fault u [] (.ok (.node e.target)) u'
  | skipped {replies : List (Call × Answer)} {u' : Scope} : wayOut s n fault u.context.vars = none →
      Skipping s n fault replies (.ok true) → ClosedAs u n fault .skipped false u' →
      Aftermath s n fault u replies (.ok (goesOn s n.id u.context.vars)) u'
  | halted {replies : List (Call × Answer)} {u' : Scope} : wayOut s n fault u.context.vars = none →
      Skipping s n fault replies (.ok false) → ClosedAs u n fault .failed false u' →
      Aftermath s n fault u replies (.error (.failed n.id fault)) u'
  | cancelled {replies : List (Call × Answer)} {u' : Scope} : wayOut s n fault u.context.vars = none →
      Skipping s n fault replies (.error .cancelled) → Interrupted u n u' →
      Aftermath s n fault u replies (.error .cancelled) u'

section Steps

variable {st : Setting} {n : Node} {u t : Scope} {fault : Fault}

theorem Open.closedAs (h : Open u n t) (status : StepStatus) {report : StepReport} (he : report.error = some fault.message) :
    ClosedAs u n fault status report.fallbackUsed (t.finishStep (u.nextStep n.id) status report) := by
  obtain ⟨e, hn, hh⟩ := h.during.history_finish status report
  exact ⟨_, hh, hn, rfl, rfl, he⟩

theorem triggers_decides (vars : Keyed Json) (n : Node) (e : Edge) : (triggers vars n e).Decides fun _ => fires vars e := by
  unfold triggers fires
  cases e.trigger with
  | none => exact .pure true
  | some t => exact Walk.holdsUnder_decides _ _ _

/-- Nothing is closed while it is decided whether to skip, unless that is cancelled. -/
theorem skips_asks (h : Open u n t) : (skips st n (u.nextStep n.id) fault).Asks t fun replies r t' =>
    Skipping st n fault replies r ∧ ((∃ b, r = .ok b) ∧ Open u n t' ∨ CutShort u n r t') := by
  cases hs : st.graph.strategy with
  | abort | firstSuccess =>
    simp only [skips, hs]
    exact ⟨.never (by simp [hs]), .inl ⟨⟨_, rfl⟩, h⟩⟩
  | skip =>
    simp only [skips, hs]
    exact ⟨.always hs, .inl ⟨⟨_, rfl⟩, h⟩⟩
  | retryThenAsk =>
    simp only [skips, hs, Walk.asks_bind, Walk.asks_modify, Walk.asks_emit, Walk.asks_call]
    intro a
    have still := h.awaitStep
    cases ho : a.outcome n.id none with
    | ok v => exact ⟨.answered hs ho, .inl ⟨⟨_, rfl⟩, still⟩⟩
    | error f =>
      cases f with
      | cancelled =>
        refine (Walk.Tells.asks (Walk.tells_cancelStep.mpr still.cancel)).mono fun replies r t' hr => ?_
        obtain ⟨rfl, rfl, hi⟩ := hr
        exact ⟨.cancelled hs ho, .inr ⟨rfl, hi⟩⟩
      | _ => exact ⟨.unanswered hs ho nofun, .inl ⟨⟨_, rfl⟩, still⟩⟩

/-- A failed node that is skipped goes on, one that is not breaks off. -/
theorem closeFailed_settles (h : Open u n t) (skipped : Bool) (retries : Nat) :
    (if skipped then do
        Walk.finishStep n (u.nextStep n.id) .skipped { error := some fault.message, retryCount := retries }
        advance st n.id
      else Walk.failStep n (u.nextStep n.id) { error := some fault.message, retryCount := retries } fault :
        Walk Next).Tells t fun r u' =>
          r = (if skipped then .ok (goesOn st n.id u.context.vars) else .error (.failed n.id fault)) ∧
            ClosedAs u n fault (if skipped then .skipped else .failed) false u' := by
  cases skipped with
  | true =>
    simp only [if_true, Walk.tells_bind, Walk.tells_finishStep]
    refine ((advance_ponders st n.id).decided (advance_decides st n.id) _).mono fun r u' hr => ?_
    obtain ⟨⟨next, rfl, hnext⟩, fs, rfl⟩ := hr
    exact ⟨congrArg Except.ok (hnext.trans (congrArg _ h.vars)), h.closedAs .skipped rfl⟩
  | false =>
    simp only [Bool.false_eq_true, if_false, Walk.tells_failStep]
    exact ⟨trivial, h.closedAs .failed rfl⟩

/-- What a node that failed for good is left by, which does not depend on its fault being terminal. -/
theorem handleFailure_asks (h : Open u n t) (retries : Nat) :
    (handleFailure st n (u.nextStep n.id) fault retries).Asks t (Aftermath st n fault u) := by
  unfold handleFailure
  simp only [Walk.asks_bind, Walk.asks_get, List.nil_append]
  have triggered := Walk.firstWhere_decides (triggers_decides (triggerVariables t.context.vars n fault) n)
    ((st.graph.outgoing n.id).filter (·.kind = .fallback))
  refine ((Walk.firstWhere_ponders (triggers_ponders _ n) _).decided triggered t).asks.mono fun replies r t' hr => ?_
  obtain ⟨rfl, ⟨reroute, rfl, hw⟩, fs, rfl⟩ := hr
  have way : wayOut st n fault u.context.vars = reroute := by rw [hw, wayOut, h.vars]
  have still := h.noting fs
  cases reroute with
  | some e =>
    have left : (do
        Walk.emit (.fallbackUsed n.id e.target)
        Walk.finishStep n (u.nextStep n.id) .failed { error := some fault.message, fallbackUsed := true, retryCount := retries }
        pure (.node e.target) : Walk Next).Tells (t.noting fs) fun r u' =>
          r = .ok (.node e.target) ∧ ClosedAs u n fault .failed true u' := by
      simp only [Walk.tells_bind, Walk.tells_emit, Walk.tells_finishStep]
      exact ⟨id, rfl, still.closedAs .failed rfl⟩
    refine left.asks.mono fun replies r u' hr => ?_
    obtain ⟨rfl, rfl, hc⟩ := hr
    exact .rerouted way hc
  | none =>
    refine Walk.asks_bind.mpr ((skips_asks still).mono fun replies r t' hr => ?_)
    obtain ⟨hskip, ⟨⟨skipped, rfl⟩, ho⟩ | ⟨rfl, hi⟩⟩ := hr
    · refine (closeFailed_settles ho skipped retries).asks.mono fun more r u' hr => ?_
      obtain ⟨rfl, rfl, hc⟩ := hr
      rw [List.append_nil]
      cases skipped with
      | true => exact .skipped way hskip hc
      | false => exact .halted way hskip hc
    · exact .cancelled way hskip hi

theorem Skipping.of_never {replies : List (Call × Answer)} {r : Except Halt Bool} (h : Skipping st n fault replies r)
    (hs : st.graph.strategy = .abort ∨ st.graph.strategy = .firstSuccess) : replies = [] ∧ r = .ok false := by
  cases h <;> simp_all

theorem Skipping.of_always {replies : List (Call × Answer)} {r : Except Halt Bool} (h : Skipping st n fault replies r)
    (hs : st.graph.strategy = .skip) : r = .ok true := by
  cases h <;> simp_all

theorem Skipping.of_asked {replies : List (Call × Answer)} {r : Except Halt Bool} (h : Skipping st n fault replies r)
    (hs : st.graph.strategy = .retryThenAsk) : ∃ a, replies = [(.question (skipQuestion n fault), a)] := by
  cases h <;> simp_all

/-- A node that is not skipped although nobody was asked is one that never is. -/
theorem Skipping.never_of {r : Except Halt Bool} (h : Skipping st n fault [] r) (hr : r = .ok false) :
    st.graph.strategy = .abort ∨ st.graph.strategy = .firstSuccess := by
  cases h with
  | never hs => exact hs
  | always => cases hr

/-- Nothing but the question is asked. -/
theorem Skipping.questions {replies : List (Call × Answer)} {r : Except Halt Bool} (h : Skipping st n fault replies r) :
    ∀ reply ∈ replies, ¬reply.1.IsSkill := by
  cases h <;> simp [Call.IsSkill]

section Aftermath

variable {replies : List (Call × Answer)} {r : Except Halt Next} {u' : Scope}

theorem Aftermath.questions (h : Aftermath st n fault u replies r u') : ∀ reply ∈ replies, ¬reply.1.IsSkill := by
  cases h with
  | rerouted => simp
  | skipped _ hs | halted _ hs | cancelled _ hs => exact hs.questions

/-- A node breaks off without a question just when there is no way out of it and the strategy does
    not skip. -/
theorem Aftermath.breaks_off_iff (h : Aftermath st n fault u replies r u') :
    replies = [] ∧ r = .error (.failed n.id fault) ∧ ClosedAs u n fault .failed false u' ↔
      wayOut st n fault u.context.vars = none ∧ (st.graph.strategy = .abort ∨ st.graph.strategy = .firstSuccess) := by
  cases h with
  | rerouted way => simp [way]
  | skipped _ hskip =>
    refine ⟨fun hr => (nomatch hr.2.1), fun hw => ?_⟩
    cases (hskip.of_never hw.2).2
  | halted way hskip hclosed =>
    refine ⟨fun hr => ⟨way, ?_⟩, fun hw => ⟨(hskip.of_never hw.2).1, rfl, hclosed⟩⟩
    obtain rfl := hr.1
    exact hskip.never_of rfl
  | cancelled _ hskip =>
    refine ⟨fun hr => (nomatch hr.2.1), fun hw => ?_⟩
    cases (hskip.of_never hw.2).2

/-- It is left along the way out if there is one. -/
theorem Aftermath.goes_along (h : Aftermath st n fault u replies r u') {f : Edge} (hf : wayOut st n fault u.context.vars = some f) :
    r = .ok (.node f.target) ∧ ClosedAs u n fault .failed true u' := by
  cases h with
  | rerouted way hclosed =>
    cases way.symm.trans hf
    exact ⟨rfl, hclosed⟩
  | skipped way | halted way | cancelled way => cases way.symm.trans hf

/-- Otherwise the strategy may skip it -/
theorem Aftermath.skips (h : Aftermath st n fault u replies r u') (hw : wayOut st n fault u.context.vars = none)
    (hs : st.graph.strategy = .skip) : r = .ok (goesOn st n.id u.context.vars) ∧ ClosedAs u n fault .skipped false u' := by
  cases h with
  | rerouted way => cases way.symm.trans hw
  | skipped _ _ hclosed => exact ⟨rfl, hclosed⟩
  | halted _ hskip | cancelled _ hskip => cases hskip.of_always hs

/-- or have somebody asked whether to. -/
theorem Aftermath.asks (h : Aftermath st n fault u replies r u') (hw : wayOut st n fault u.context.vars = none)
    (hs : st.graph.strategy = .retryThenAsk) : ∃ a, replies = [(.question (skipQuestion n fault), a)] := by
  cases h with
  | rerouted way => cases way.symm.trans hw
  | skipped _ hskip | halted _ hskip | cancelled _ hskip => exact hskip.of_asked hs

end Aftermath

/-- What becomes of a node behind a terminal fault. -/
def Fate (s : Setting) (n : Node) (u : Scope) (e : Fault) (replies : List (Call × Answer)) (r : Except Halt Next)
    (u' : Scope) : Prop :=
  e = .cancelled ∧ replies = [] ∧ CutShort u n r u' ∨ e ≠ .cancelled ∧ Aftermath s n e u replies r u'

theorem handleFailure_faces (h : Open u n t) (retries : Nat)
    {Q : Fault → List (Call × Answer) → Except Halt Next → Scope → Prop} :
    (handleFailure st n (u.nextStep n.id) fault retries).Faces t false (fun _ _ _ => True) Q :=
  Process.Asks.faces (handleFailure_asks h retries) fun _ _ ha => ha.questions

theorem visitSkill_faces (st : Setting) (n : Node) (u : Scope) :
    (visitSkill st n).Faces u true (fun _ _ _ => True) (Fate st n u) := by
  unfold visitSkill
  refine Walk.faces_bind.mpr (Walk.faces_beginStep.mpr ?_)
  dsimp only
  split
  next => exact (Walk.tells_failStep (Q := fun _ _ => True).mpr trivial).faces
  next skill _ =>
    refine Walk.faces_bind.mpr ((recover_pursues skill _).mono (fun fresh r t hr => ?_) fun e he replies r t hr => ?_)
    · obtain ⟨rfl, ⟨⟨outcome, retries⟩, rfl, -⟩, fs, rfl⟩ := hr
      have still := (Open.start u n).noting fs
      dsimp only
      split
      next value implementation =>
        have bound := bindOutputs_during still.during n value
        exact Walk.Tells.faces (Walk.tells_bind.mpr (Walk.tells_modify.mpr (complete_tells bound rfl)))
      next => exact (Walk.tells_cancelStep (Q := fun _ _ => True).mpr trivial).faces
      next fault _ => exact handleFailure_faces still retries
    · obtain ⟨rfl, ⟨⟨outcome, retries⟩, rfl, hr⟩, fs, rfl⟩ := hr
      obtain rfl : outcome = .error e := hr
      have still := (Open.start u n).noting fs
      dsimp only
      split
      next ho => cases ho
      next ho =>
        cases ho
        refine (Walk.Tells.asks (Walk.tells_cancelStep.mpr still.cancel)).mono fun replies r u' hr => .inl ⟨rfl, hr⟩
      next hf ho =>
        cases ho
        exact (handleFailure_asks still retries).mono fun replies r u' hr => .inr ⟨fun he => hf (he ▸ rfl), hr⟩

theorem visitQuestion_faces (st : Setting) (n : Node) (u : Scope) :
    (visitQuestion st n).Faces u true (fun _ _ _ => True) (Fate st n u) := by
  unfold visitQuestion
  refine Walk.faces_bind.mpr (Walk.faces_beginStep.mpr ?_)
  dsimp only
  split
  next => exact (Walk.tells_failStep (Q := fun _ _ => True).mpr trivial).faces
  next kind _ =>
    simp only [Walk.faces_bind, Walk.faces_modify, Walk.faces_get, Walk.faces_emit, Walk.faces_call]
    have still := (Open.start u n).awaitStep
    refine ⟨fun e _ _ => ?_, fun a => ?_⟩
    · split
      next ho => cases ho
      next ho =>
        cases ho
        refine (Walk.Tells.asks (Walk.tells_cancelStep.mpr still.cancel)).mono fun replies r u' hr => .inl ⟨rfl, hr⟩
      next hf ho =>
        cases ho
        exact (handleFailure_asks still 0).mono fun replies r u' hr => .inr ⟨fun he => hf (he ▸ rfl), hr⟩
    · split
      next value _ =>
        exact Walk.Tells.faces (Walk.tells_bind.mpr (Walk.tells_modify.mpr (complete_tells (still.during.set _ value) rfl)))
      next => exact (Walk.tells_cancelStep (Q := fun _ _ => True).mpr trivial).faces
      next fault _ => exact handleFailure_faces still 0

/-- A visit of a skill or question node that is answered with a terminal fault. -/
theorem visit_faces (st : Setting) (inner : Inner) {n : Node} (hk : n.kind = .skill ∨ n.kind.isInteraction = true) (u : Scope) :
    (visit st inner n).Faces u true (fun _ _ _ => True) (Fate st n u) := by
  unfold visit
  split
  case h_9 => exact visitSkill_faces st n u
  case h_10 | h_11 | h_12 => exact visitQuestion_faces st n u
  all_goals simp_all [NodeKind.isInteraction]

end Steps

/-! ## Visits -/

/-- Behind a terminal fault a skill or question node makes no attempt. Cancelled, it is cut short
    there and then. Any other terminal fault breaks it off without further calls just when none of
    its fallback edges is triggered and the strategy is to abort or to let branches race; otherwise
    the node is left along the edge, is skipped, or it is asked whether to skip it. -/
theorem terminal_faults_end_attempts_but_not_recovery {s : Setting} {inner : Inner} {n : Node}
    (hk : n.kind = .skill ∨ n.kind.isInteraction = true) {limit : Nat} {b : Bool} {w w' : Shared} {u u' : Scope}
    {pre post : List Act} {k : Call} {l : Option Duration} {e : Fault} {cancels : Bool} {r : Except Halt Next}
    (h : Course limit b (.at ((visit s inner n).process u)) w (pre ++ .answered k l (.given (.error e)) cancels :: post)
      (.finished (r, u')) w')
    (he : e.isTerminal = true) (hown : k.IsSkill ∨ repliesIn pre = []) :
    (∀ i l, Act.called (.skill i) l ∉ post) ∧
    (e = .cancelled → repliesIn post = [] ∧ CutShort u n r u') ∧
    (e ≠ .cancelled →
      (repliesIn post = [] ∧ r = .error (.failed n.id e) ∧ ClosedAs u n e .failed false u' ↔
        wayOut s n e u.context.vars = none ∧ (s.graph.strategy = .abort ∨ s.graph.strategy = .firstSuccess)) ∧
      (∀ f, wayOut s n e u.context.vars = some f → r = .ok (.node f.target) ∧ ClosedAs u n e .failed true u') ∧
      (wayOut s n e u.context.vars = none → s.graph.strategy = .skip →
        r = .ok (goesOn s n.id u.context.vars) ∧ ClosedAs u n e .skipped false u') ∧
      (wayOut s n e u.context.vars = none → s.graph.strategy = .retryThenAsk →
        ∃ a, repliesIn post = [(.question (skipQuestion n e), a)])) := by
  have faces : (Standing.at ((visit s inner n).process u)).Faces true fun e replies p => Fate s n u e replies p.1 p.2 :=
    Process.Faces.mono (visit_faces s inner hk u) (fun _ _ => id) fun _ _ _ _ => id
  obtain ⟨fate, replied⟩ := h.faced faces he (hown.imp_right fun hr => ⟨rfl, hr⟩)
  refine ⟨fun i l hcalled => ?_, fun hc => ?_, fun hc => ?_⟩
  · obtain ⟨reply, hr⟩ := replied _ _ hcalled
    obtain ⟨-, hnone, -⟩ | ⟨-, aftermath⟩ := fate
    · rw [hnone] at hr
      cases hr
    · exact aftermath.questions _ hr trivial
  · obtain ⟨-, hreplies, hcut⟩ | ⟨hne, -⟩ := fate
    · exact ⟨hreplies, hcut⟩
    · exact absurd hc hne
  · obtain ⟨he', -⟩ | ⟨-, aftermath⟩ := fate
    · exact absurd he' hc
    · exact ⟨aftermath.breaks_off_iff, fun _ => aftermath.goes_along, aftermath.skips, aftermath.asks⟩

/-- A fault that no attempt can mend. -/
def unmendable : Fault := .invalid ["no such tow"]

/-- The drill answers with that fault. -/
def brokenDrill : Rehearsal.Script :=
  { Rehearsal.Script.simulated with skills := [("drill", [{ content := .fault fun _ _ => unmendable }])] }

/-- Whether the first call of a process, behind nothing but notices, is an attempt at a skill. -/
def Process.attempts {α : Type} : Process α → Bool
  | .ask (.notify _) next => (next ()).attempts
  | .ask (.call (.skill _) _) _ => true
  | _ => false

theorem Process.comes_to_attempt {α : Type} {p : Process α} (h : p.attempts = true) (limit visits : Nat) :
    ∃ acts i l next, Course limit false (.at p) ⟨visits, false⟩ acts (.calling (.skill i) l next) ⟨visits, false⟩ := by
  induction p with
  | done a => cases h
  | ask q next ih =>
    match q with
    | .notify n =>
      obtain ⟨acts, i, l, next', hc⟩ := ih () h
      exact ⟨_, i, l, next', .move (.notify n next false) hc⟩
    | .call (.skill i) l => exact ⟨_, i, l, next, .single (.call _ _ _ rfl)⟩
    | .visit | .stopped | .call (.question _) _ | .pause _ => cases h
  | split joining count branch next _ _ => cases h

/-- The risky node is left along its fallback edge for a terminal fault, too. -/
theorem a_terminal_fault_is_rerouted : ∃ pre i l post r u' w',
    Course guarded.config.maxVisits false
      (.at ((visit guarded (fun _ _ => pure .ended) (.skill "risky" "drill")).process {})) {}
      (pre ++ .answered (.skill i) l (.given (.error unmendable)) false :: post) (.finished (r, u')) w' ∧
    (∀ i l, Act.called (.skill i) l ∉ post) ∧ r = .ok (.node "rescue") := by
  have attempts : ((visit guarded (fun _ _ => pure .ended) (.skill "risky" "drill")).process {}).attempts = true := by
    decide +kernel
  obtain ⟨pre, i, l, next, called⟩ := Process.comes_to_attempt attempts guarded.config.maxVisits 0
  have answered := called.trans (.single (.answer _ l next (.error unmendable) false rfl))
  obtain ⟨post, ⟨r, u'⟩, w', h⟩ := answered.goes_on
  rw [List.append_assoc] at h
  obtain ⟨noAttempt, -, left⟩ := terminal_faults_end_attempts_but_not_recovery (.inl rfl) h rfl (.inl trivial)
  obtain ⟨-, rerouted, -⟩ := left nofun
  have way : wayOut guarded (.skill "risky" "drill") unmendable {} =
      some { source := "risky", target := "rescue", kind := .fallback } := by
    decide +kernel
  exact ⟨pre, i, l, post, r, u', w', h, noAttempt, (rerouted _ way).1⟩

/-- A run in which a skill answers with a terminal fault goes on along the fallback edge. -/
theorem a_run_goes_on_behind_a_terminal_fault : guarded.graph.validate.isValid = true ∧ unmendable.isTerminal = true ∧
    ∃ r : Rehearsal.Report, Rehearsal.rehearse guarded {} brokenDrill none = .ok r ∧ r.result.status = .completed ∧
      r.result.steps.map (fun e => (e.node, e.status, e.error)) =
        [("start", .completed, none), ("risky", .failed, some unmendable.message), ("rescue", .completed, none),
          ("end", .completed, none)] := by
  have valid : guarded.graph.validate.isValid = true := by decide +kernel
  have shown : (Rehearsal.rehearse guarded {} brokenDrill none).toOption.map
      (fun r => (r.result.status, r.result.steps.map fun e => (e.node, e.status, e.error))) =
      some (.completed, [("start", .completed, none), ("risky", .failed, some unmendable.message), ("rescue", .completed, none),
          ("end", .completed, none)]) := by
    decide +kernel
  obtain ⟨r, hr, hshown⟩ := Option.map_eq_some_iff.mp shown
  obtain ⟨status, steps⟩ := Prod.mk.inj hshown
  exact ⟨valid, rfl, r, ok_of_toOption hr, status, steps⟩

end Capability.Execution
