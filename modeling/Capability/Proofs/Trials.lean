/-
  Capability.Proofs.Trials — the attempts at a skill node, one after another.

  What a node attempts is a candidate: its own skill or an implementation. A trial is all that is
  shown of the attempts at one candidate: each attempt with its answer, and between two of them the
  announcement of the next one. A recovery makes trials of the candidates on a list, from the front
  up to the first that gives a value or meets a terminal fault. Which ones are on the list depends on
  nothing that is answered.

  (1) `Walk.Shows`: what is shown of the trials within a walk.
  (2) `attemptSkill_shows`: attempts at a skill are a trial.
  (3) `tryAlternatives_shows`, `tryAlternatives_room`: an exploration is made in trials, and there is
      room for all of it.
  (4) `recover_shows`: so is a recovery, which begins with the skill of the node itself.
-/

import Capability.Proofs.Deeds
import Capability.Proofs.Exploration

namespace Capability.Execution

/-! ## Candidates -/

/-- Something a node may attempt: its own skill, or an implementation. -/
structure Candidate where
  implementation : Option String
  skill : String

namespace Candidate

def own (skill : String) : Candidate := ⟨none, skill⟩

def ofImplementation (a : Implementation) : Candidate := ⟨some a.id, a.skillId⟩

/-- The attempt of a number at a candidate, which sees the variables of a context. -/
def invocation (k : Candidate) (n : Node) (c : Context) (attempt : Nat) : Invocation where
  node := n.id
  skill := k.skill
  implementation := k.implementation
  attempt
  vars := c.vars
  intent := c.intent
  depth := c.depth

end Candidate

/-- What a node with a skill may try, when implementations have their turns in an order. -/
def candidates (skill : String) (order : List Implementation) : List Candidate := .own skill :: order.map .ofImplementation

/-! ## Deeds -/

/-- The attempt at a skill that is over, and its answer. -/
def Deed.attempt? : Deed → Option (Invocation × Answer)
  | .answered (.skill i) _ a => some (i, a)
  | .answered (.question _) _ _ | .told _ => none

/-- The retry that is announced. -/
def Deed.retry? : Deed → Option (String × Nat)
  | .told (.event (.nodeRetrying node attempt _)) => some (node, attempt)
  | .told _ | .answered _ _ _ => none

/-- Whether it belongs to a trial. -/
def Deed.isTrial (d : Deed) : Bool := d.attempt?.isSome || d.retry?.isSome

def trialsIn (ds : List Deed) : List Deed := ds.filter Deed.isTrial

/-- The attempts among some deeds, with their answers. -/
def attemptsIn (ds : List Deed) : List (Invocation × Answer) := ds.filterMap Deed.attempt?

/-- The retries that are announced, with the numbers of the attempts that follow. -/
def retriesIn (ds : List Deed) : List (String × Nat) := ds.filterMap Deed.retry?

@[simp] theorem trialsIn_nil : trialsIn [] = [] := rfl

@[simp] theorem trialsIn_append (ds es : List Deed) : trialsIn (ds ++ es) = trialsIn ds ++ trialsIn es :=
  List.filter_append ..

@[simp] theorem attemptsIn_nil : attemptsIn [] = [] := rfl

@[simp] theorem retriesIn_nil : retriesIn [] = [] := rfl

@[simp] theorem attemptsIn_append (ds es : List Deed) : attemptsIn (ds ++ es) = attemptsIn ds ++ attemptsIn es :=
  List.filterMap_append

@[simp] theorem retriesIn_append (ds es : List Deed) : retriesIn (ds ++ es) = retriesIn ds ++ retriesIn es :=
  List.filterMap_append

theorem attemptsIn_trialsIn (ds : List Deed) : attemptsIn (trialsIn ds) = attemptsIn ds := by
  unfold attemptsIn trialsIn
  rw [List.filterMap_filter]
  refine List.filterMap_congr fun d _ => ?_
  cases h : d.attempt? <;> simp [Deed.isTrial, h]

theorem retriesIn_trialsIn (ds : List Deed) : retriesIn (trialsIn ds) = retriesIn ds := by
  unfold retriesIn trialsIn
  rw [List.filterMap_filter]
  refine List.filterMap_congr fun d _ => ?_
  cases h : d.retry? <;> simp [Deed.isTrial, h]

/-! ## Walks -/

namespace Walk

variable {α β : Type} {c : Context} {P : List Deed → α → Prop}

/-- From a scope with a context, the walk comes to a value, which satisfies `P` together with what is
    shown of trials. It leaves the context as it is. -/
def Shows (c : Context) (w : Walk α) (P : List Deed → α → Prop) : Prop :=
  ∀ s, s.context = c → w.Recounts s fun ds r s' => ∃ a fs, r = .ok a ∧ s' = s.noting fs ∧ P (trialsIn ds) a

namespace Shows

theorem mono {w : Walk α} {P' : List Deed → α → Prop} (h : w.Shows c P) (hP : ∀ ds a, P ds a → P' ds a) : w.Shows c P' := by
  refine fun s hs => (h s hs).mono fun ds r s' hr => ?_
  obtain ⟨a, fs, hr, hs, hp⟩ := hr
  exact ⟨a, fs, hr, hs, hP _ a hp⟩

theorem pure {a : α} (h : P [] a) : (pure a : Walk α).Shows c P := fun _ _ => .pure ⟨a, [], rfl, by simp, h⟩

theorem bind {w : Walk α} (h : w.Shows c P) {f : α → Walk β} {Q : List Deed → β → Prop}
    (hf : ∀ ds a, P ds a → (f a).Shows c fun es b => Q (ds ++ es) b) : (w >>= f).Shows c Q := by
  refine fun s hs => .bind ((h s hs).mono fun ds r s' hr => ?_)
  obtain ⟨a, fs, rfl, rfl, hp⟩ := hr
  refine (hf _ a hp (s.noting fs) hs).mono fun es r s' hr => ?_
  obtain ⟨b, gs, rfl, rfl, hq⟩ := hr
  exact ⟨b, fs ++ gs, rfl, by simp, by rwa [trialsIn_append]⟩

theorem ite {p : Prop} [Decidable p] {w w' : Walk α} (h : p → w.Shows c P) (h' : ¬p → w'.Shows c P) :
    (if p then w else w').Shows c P := by
  split
  · exact h ‹_›
  · exact h' ‹_›

theorem get_bind {f : Scope → Walk α} (h : ∀ s, s.context = c → (f s).Shows c P) : (get >>= f).Shows c P :=
  fun s hs => .bind (.get (h s hs s hs))

theorem emit {e : Event} (he : e.completed? = none) {P : List Deed → Unit → Prop} (h : P (trialsIn [.told (.event e)]) ()) :
    (emit e).Shows c P :=
  fun _ _ => .emit he ⟨(), [], rfl, by simp, h⟩

theorem pause {d : Duration} {P : List Deed → Bool → Prop} (h : ∀ cut, P [] cut) : (request (.pause d)).Shows c P :=
  fun _ _ => .request rfl rfl fun cut => ⟨cut, [], rfl, by simp, h cut⟩

theorem attempt {node : String} {i : Invocation} {l : Option Duration} {P : List Deed → Except Fault Json → Prop}
    (h : ∀ a : Answer, P [.answered (.skill i) l a] (a.outcome node l)) : (call node (.skill i) l).Shows c P :=
  fun _ _ => .bind (.request rfl rfl fun a => .pure ⟨a.outcome node l, [], rfl, by simp, h a⟩)

end Shows

/-! ### Conditions -/

/-- The walk comes to a value and shows nothing of trials. -/
def Judges (c : Context) (w : Walk α) (a : α) : Prop := w.Shows c fun ds b => ds = [] ∧ b = a

theorem Judges.pure (a : α) : (pure a : Walk α).Judges c a := Shows.pure ⟨rfl, rfl⟩

theorem Judges.bind {w : Walk α} {a : α} (h : w.Judges c a) {f : α → Walk β} {P : List Deed → β → Prop}
    (hf : (f a).Shows c P) : (w >>= f).Shows c P := by
  refine Shows.bind h fun ds b hb => ?_
  obtain ⟨rfl, rfl⟩ := hb
  exact hf

theorem holdsUnder_judges (vars : Keyed Json) (node expression : String) :
    (holdsUnder vars node expression).Judges c (isTrue vars expression) := by
  unfold holdsUnder isTrue
  cases Condition.holds expression vars with
  | ok b => exact .pure b
  | error e =>
    have noted : (noteFailure ⟨node, expression, e.message⟩).Judges c () :=
      fun s _ => .bind (.emit rfl (.modify ⟨(), [⟨node, expression, e.message⟩], rfl, rfl, rfl, rfl⟩))
    exact noted.bind (Judges.pure false)

theorem holds_judges (node expression : String) : (holds node expression).Judges c (isTrue c.vars expression) :=
  Shows.get_bind fun _ hs => hs ▸ holdsUnder_judges _ node expression

theorem allHold_judges {test : String → Walk Bool} {v : String → Bool} (h : ∀ x, (test x).Judges c (v x)) (cs : List String) :
    (allHold test cs).Judges c (cs.all v) := by
  induction cs with
  | nil => exact .pure true
  | cons x cs ih =>
    refine (h x).bind ?_
    rw [List.all_cons]
    cases v x with
    | true => exact ih
    | false => exact Judges.pure false

theorem keepWhere_judges {test : α → Walk Bool} {v : α → Bool} (h : ∀ a, (test a).Judges c (v a)) (as : List α) :
    (keepWhere test as).Judges c (as.filter v) := by
  induction as with
  | nil => exact .pure []
  | cons a as ih =>
    refine (h a).bind (ih.bind ?_)
    rw [List.filter_cons]
    exact Judges.pure _

end Walk

open Walk (Shows Judges)

theorem rankedImplementations_judges (n : Node) (c : Context) : (rankedImplementations n).Judges c (rankedUnder n c.vars) := by
  have holds (x : String) : (implementationHolds n x).Judges c (Lint.isDefault x || isTrue c.vars x) := by
    unfold implementationHolds
    cases Lint.isDefault x with
    | true => exact .pure true
    | false => exact Walk.holds_judges n.id x
  have applicable (a : Implementation) : (Walk.allHold (implementationHolds n) a.conditions).Judges c (applies c.vars a) :=
    Walk.allHold_judges holds a.conditions
  exact (Walk.keepWhere_judges applicable n.implementations).bind (Judges.pure _)

/-! ## Trials -/

section Trials

variable {st : Setting} {n : Node} {c : Context} {k : Candidate}

/-- An attempt at a candidate is answered. -/
def Candidate.answered (k : Candidate) (st : Setting) (n : Node) (c : Context) (attempt : Nat) (a : Answer) : Deed :=
  .answered (.skill (k.invocation n c attempt)) (st.skillLimit n) a

/-- The next attempt is announced behind the one of a number. -/
def announced (st : Setting) (n : Node) (attempt : Nat) : Deed :=
  .told (.event (.nodeRetrying n.id (attempt + 1) (st.backoff.delay attempt)))

@[simp] theorem attemptsIn_answered (i : Nat) (a : Answer) (ds : List Deed) :
    attemptsIn (k.answered st n c i a :: ds) = (k.invocation n c i, a) :: attemptsIn ds := rfl

@[simp] theorem attemptsIn_announced (i : Nat) (ds : List Deed) : attemptsIn (announced st n i :: ds) = attemptsIn ds := rfl

@[simp] theorem retriesIn_answered (i : Nat) (a : Answer) (ds : List Deed) :
    retriesIn (k.answered st n c i a :: ds) = retriesIn ds := rfl

@[simp] theorem retriesIn_announced (i : Nat) (ds : List Deed) :
    retriesIn (announced st n i :: ds) = (n.id, i + 1) :: retriesIn ds := rfl

/-- What is shown of the attempts at a candidate from the one of a number on, when some retries are
    left, and what comes of them. -/
inductive Trial (st : Setting) (n : Node) (c : Context) (k : Candidate) : (left attempt : Nat) → List Deed → Retried Json → Prop
  | value {left i : Nat} {a : Answer} {v : Json} : a.outcome n.id (st.skillLimit n) = .ok v →
      Trial st n c k left i [k.answered st n c i a] ⟨.ok v, i⟩
  /-- A fault that another attempt cannot mend, or the last attempt allowed. -/
  | fault {left i : Nat} {a : Answer} {f : Fault} : a.outcome n.id (st.skillLimit n) = .error f →
      left = 0 ∨ f.isRetryable = false → Trial st n c k left i [k.answered st n c i a] ⟨.error f, i⟩
  /-- The wait in front of the next attempt is cut short. -/
  | cut {left i : Nat} {a : Answer} {f : Fault} : a.outcome n.id (st.skillLimit n) = .error f → f.isRetryable = true →
      Trial st n c k (left + 1) i [k.answered st n c i a, announced st n i] ⟨.error .cancelled, i⟩
  | again {left i : Nat} {a : Answer} {f : Fault} {ds : List Deed} {r : Retried Json} :
      a.outcome n.id (st.skillLimit n) = .error f → f.isRetryable = true → Trial st n c k left (i + 1) ds r →
      Trial st n c k (left + 1) i (k.answered st n c i a :: announced st n i :: ds) r

/-- Repeated attempts are a trial. -/
theorem attempts_show {a : Attempts Walk Json}
    (ha : ∀ i, a.attempt i = call n.id (.skill (k.invocation n c i)) (st.skillLimit n))
    (hn : ∀ i d, a.announce i d = Walk.emit (.nodeRetrying n.id i d)) (hp : ∀ d, a.pause d = Walk.request (.pause d))
    (left i : Nat) : (a.run st.backoff left i).Shows c (Trial st n c k left i) := by
  have attempt (i : Nat) : (a.attempt i).Shows c fun ds r =>
      ∃ x : Answer, ds = [k.answered st n c i x] ∧ x.outcome n.id (st.skillLimit n) = r := by
    rw [ha]
    exact .attempt fun x => ⟨x, rfl, rfl⟩
  induction left generalizing i with
  | zero =>
    unfold Attempts.run
    refine (attempt i).bind fun ds r hr => ?_
    obtain ⟨x, rfl, hx⟩ := hr
    cases r with
    | ok v => exact .pure (.value hx)
    | error f => exact .pure (.fault hx (.inl rfl))
  | succ left ih =>
    unfold Attempts.run
    refine (attempt i).bind fun ds r hr => ?_
    obtain ⟨x, rfl, hx⟩ := hr
    cases r with
    | ok v => exact .pure (.value hx)
    | error f =>
      refine .ite (fun retried => ?_) fun hopeless => .pure (.fault hx (.inr (by simpa using hopeless)))
      simp only [hn, hp]
      have told : (Walk.emit (.nodeRetrying n.id (i + 1) (st.backoff.delay i))).Shows c fun ds _ => ds = [announced st n i] :=
        .emit rfl rfl
      refine told.bind fun ds _ hds => ?_
      subst hds
      refine (Shows.pause (P := fun ds _ => ds = []) fun _ => rfl).bind fun ds (cut : Bool) hds => ?_
      subst hds
      refine .ite (fun _ => .pure (.cut hx retried)) fun _ => (ih (i + 1)).mono fun ds r hr => .again hx retried hr

theorem attemptSkill_shows (st : Setting) (n : Node) (c : Context) (k : Candidate) :
    (attemptSkill st n k.skill k.implementation).Shows c (Trial st n c k st.graph.maxRetries 0) :=
  .get_bind fun s hs => by
    subst hs
    exact attempts_show (fun _ => rfl) (fun _ _ => rfl) (fun _ => rfl) _ _

/-- The attempts of a trial are numbered without gaps. -/
theorem Trial.invocations {left i : Nat} {ds : List Deed} {r : Retried Json} (h : Trial st n c k left i ds r) :
    ∃ m ≤ left, r.retries = i + m ∧ (attemptsIn ds).map (·.1) = (List.range' i (m + 1)).map (k.invocation n c) := by
  induction h with
  | value | fault | cut => exact ⟨0, Nat.zero_le _, rfl, rfl⟩
  | again _ _ _ ih =>
    obtain ⟨m, hm, hr, hi⟩ := ih
    refine ⟨m + 1, Nat.succ_le_succ hm, by omega, ?_⟩
    rw [List.range'_succ, List.map_cons, ← hi]
    simp

/-- Each of them but the first is announced, and no others are unless a wait is cut short. -/
theorem Trial.announcements {left i : Nat} {ds : List Deed} {r : Retried Json} (h : Trial st n c k left i ds r)
    (hr : r.outcome ≠ .error .cancelled) : retriesIn ds = (List.range' (i + 1) (r.retries - i)).map (n.id, ·) := by
  induction h with
  | value | fault => simp
  | cut => exact absurd rfl hr
  | @again _ i _ _ ds r _ _ h ih =>
    obtain ⟨m, -, hm, -⟩ := h.invocations
    have one : r.retries - i = r.retries - (i + 1) + 1 := by omega
    rw [one, List.range'_succ, List.map_cons, ← ih hr]
    simp

theorem Answer.outcome_eq_ok {a : Answer} {node : String} {l : Option Duration} {v : Json} :
    a.outcome node l = .ok v ↔ a = .given (.ok v) := by
  cases a <;> simp [Answer.outcome]

theorem Answer.ne_cancelled {a : Answer} {node : String} {l : Option Duration} {r : Except Fault Json}
    (h : a.outcome node l = r) (hr : r ≠ .error .cancelled) : a ≠ .cancelled := by
  rintro rfl
  exact hr h.symm

/-- An attempt that a cancellation answers is the last one. -/
theorem Trial.heard {left i : Nat} {ds : List Deed} {r : Retried Json} (h : Trial st n c k left i ds r) :
    (∀ p ∈ (attemptsIn ds).dropLast, p.2 ≠ .cancelled) ∧
      (r.outcome ≠ .error .cancelled → ∀ p ∈ attemptsIn ds, p.2 ≠ .cancelled) := by
  have retried {a : Answer} {f : Fault} (ha : a.outcome n.id (st.skillLimit n) = .error f) (hf : f.isRetryable = true) :
      a ≠ .cancelled := by
    refine Answer.ne_cancelled ha ?_
    rintro ⟨⟩
    cases hf
  induction h with
  | value ha => simpa using Answer.ne_cancelled ha nofun
  | fault ha => simpa using fun hf => Answer.ne_cancelled ha (by simpa using hf)
  | cut => simp
  | @again _ i a _ ds _ ha hf h ih =>
    obtain ⟨m, -, -, hi⟩ := h.invocations
    have further : attemptsIn ds ≠ [] := by
      rintro hn
      simp [hn, List.range'_succ] at hi
    rw [attemptsIn_answered, attemptsIn_announced, List.dropLast_cons_of_ne_nil further, List.forall_mem_cons,
      List.forall_mem_cons]
    exact ⟨⟨retried ha hf, ih.1⟩, fun hr => ⟨retried ha hf, ih.2 hr⟩⟩

/-- A value is given by the last attempt, and by no other. -/
theorem Trial.given {left i : Nat} {ds : List Deed} {r : Retried Json} (h : Trial st n c k left i ds r) :
    (∀ v, r.outcome = .ok v → ∃ front, attemptsIn ds = front ++ [(k.invocation n c r.retries, .given (.ok v))] ∧
      ∀ p ∈ front, ∀ v', p.2 ≠ .given (.ok v')) ∧
    (∀ f, r.outcome = .error f → ∀ p ∈ attemptsIn ds, ∀ v, p.2 ≠ .given (.ok v)) := by
  have failed {a : Answer} {f : Fault} (ha : a.outcome n.id (st.skillLimit n) = .error f) (v : Json) : a ≠ .given (.ok v) := by
    rintro rfl
    cases ha
  induction h with
  | value ha =>
    obtain rfl := Answer.outcome_eq_ok.mp ha
    exact ⟨fun v hv => ⟨[], by cases hv; rfl, List.forall_mem_nil _⟩, nofun⟩
  | fault ha => exact ⟨nofun, fun _ _ => by simpa using failed ha⟩
  | cut ha => exact ⟨nofun, fun _ _ => by simpa using failed ha⟩
  | again ha _ _ ih =>
    rw [attemptsIn_answered, attemptsIn_announced]
    refine ⟨fun v hv => ?_, fun f hr => List.forall_mem_cons.mpr ⟨failed ha, ih.2 f hr⟩⟩
    obtain ⟨front, hfront, hno⟩ := ih.1 v hv
    exact ⟨_ :: front, by rw [hfront]; rfl, List.forall_mem_cons.mpr ⟨failed ha, hno⟩⟩

/-! ## Series of trials -/

/-- What is shown of the trials of the candidates on a list, when a fault came before, and what comes
    of them. -/
inductive Series (st : Setting) (n : Node) (c : Context) : List Candidate → Fault → List Deed → Recovered → Prop
  | exhausted {last : Fault} : Series st n c [] last [] ⟨.error last, 0⟩
  | value {k : Candidate} {ks : List Candidate} {last : Fault} {ds : List Deed} {v : Json} {m : Nat} :
      Trial st n c k st.graph.maxRetries 0 ds ⟨.ok v, m⟩ → Series st n c (k :: ks) last ds ⟨.ok (v, k.implementation), m⟩
  | terminal {k : Candidate} {ks : List Candidate} {last f : Fault} {ds : List Deed} {m : Nat} :
      Trial st n c k st.graph.maxRetries 0 ds ⟨.error f, m⟩ → f.isTerminal = true → Series st n c (k :: ks) last ds ⟨.error f, m⟩
  | failed {k : Candidate} {ks : List Candidate} {last f : Fault} {ds es : List Deed} {m : Nat} {r : Recovered} :
      Trial st n c k st.graph.maxRetries 0 ds ⟨.error f, m⟩ → f.isTerminal = false → Series st n c ks f es r →
      Series st n c (k :: ks) last (ds ++ es) ⟨r.outcome, m + r.retries⟩

/-- One round of attempts for each of some candidates, with a number of retries. -/
def Rounds (g : Graph) (n : Node) (c : Context) (rounds : List (Candidate × Nat)) (is : List Invocation) : Prop :=
  (∀ r ∈ rounds, r.2 ≤ g.maxRetries) ∧ is = rounds.flatMap fun r => (List.range (r.2 + 1)).map (r.1.invocation n c)

theorem Rounds.nil {g : Graph} : Rounds g n c [] [] := ⟨List.forall_mem_nil _, rfl⟩

theorem Trial.round {ds : List Deed} {r : Retried Json} (h : Trial st n c k st.graph.maxRetries 0 ds r)
    {rounds : List (Candidate × Nat)} {is : List Invocation} (hr : Rounds st.graph n c rounds is) :
    Rounds st.graph n c ((k, r.retries) :: rounds) ((attemptsIn ds).map (·.1) ++ is) := by
  obtain ⟨m, hm, hretries, hi⟩ := h.invocations
  obtain rfl : r.retries = m := hretries.trans (Nat.zero_add m)
  refine ⟨List.forall_mem_cons.mpr ⟨hm, hr.1⟩, ?_⟩
  rw [hi, hr.2, List.flatMap_cons, List.range_eq_range']

section Series

variable {ks : List Candidate} {last : Fault} {ds : List Deed} {r : Recovered}

/-- A series has a round for each of the first candidates, if there are any, and for all of them if it
    ends with a fault that is not terminal. Its retries are announced unless it is cancelled. -/
theorem Series.rounds (h : Series st n c ks last ds r) : ∃ rounds : List (Candidate × Nat), rounds.map (·.1) <+: ks ∧
    (ks ≠ [] → rounds ≠ []) ∧ Rounds st.graph n c rounds ((attemptsIn ds).map (·.1)) ∧ r.retries = (rounds.map (·.2)).sum ∧
      (r.outcome ≠ .error .cancelled → retriesIn ds = rounds.flatMap fun r => (List.range' 1 r.2).map (n.id, ·)) ∧
        ∀ f, r.outcome = .error f → f.isTerminal = false → rounds.map (·.1) = ks := by
  induction h with
  | exhausted => exact ⟨[], List.nil_prefix, absurd rfl, .nil, rfl, fun _ => rfl, fun _ _ _ => rfl⟩
  | @value k ks _ _ _ m h =>
    refine ⟨[(k, m)], List.cons_prefix_cons.mpr ⟨rfl, List.nil_prefix⟩, nofun, ?_, by simp, fun _ => ?_, nofun⟩
    · simpa using h.round .nil
    · simpa using h.announcements nofun
  | @terminal k ks _ f _ m h hf =>
    refine ⟨[(k, m)], List.cons_prefix_cons.mpr ⟨rfl, List.nil_prefix⟩, nofun, ?_, by simp, fun hr => ?_, ?_⟩
    · simpa using h.round .nil
    · simpa using h.announcements (by simpa using hr)
    · rintro _ ⟨⟩ halive
      exact absurd hf (by simp [halive])
  | @failed k ks _ f _ _ m _ h hf _ ih =>
    obtain ⟨rounds, hp, -, hr, hs, ha, hall⟩ := ih
    refine ⟨(k, m) :: rounds, List.cons_prefix_cons.mpr ⟨rfl, hp⟩, nofun, ?_, by simp [hs], fun ho => ?_, fun f ho hf => ?_⟩
    · rw [attemptsIn_append, List.map_append]
      exact h.round hr
    · have announced := h.announcements (by rintro ⟨⟩; cases hf)
      rw [retriesIn_append, announced, ha ho]
      rfl
    · rw [List.map_cons, hall f ho hf]

/-- An attempt that a cancellation answers is the last one. -/
theorem Series.heard (h : Series st n c ks last ds r) : (∀ p ∈ (attemptsIn ds).dropLast, p.2 ≠ .cancelled) ∧
    (r.outcome ≠ .error .cancelled → ∀ p ∈ attemptsIn ds, p.2 ≠ .cancelled) := by
  induction h with
  | exhausted => simp
  | value h => exact ⟨h.heard.1, fun _ => h.heard.2 nofun⟩
  | terminal h => exact ⟨h.heard.1, fun hr => h.heard.2 (by simpa using hr)⟩
  | @failed _ _ _ f ds es _ _ h hf _ ih =>
    have before : ∀ p ∈ attemptsIn ds, p.2 ≠ .cancelled := h.heard.2 (by rintro ⟨⟩; cases hf)
    rw [attemptsIn_append]
    refine ⟨fun p hp => ?_, fun hr => List.forall_mem_append.mpr ⟨before, ih.2 hr⟩⟩
    by_cases he : attemptsIn es = []
    · rw [he, List.append_nil] at hp
      exact before p (List.mem_of_mem_dropLast hp)
    · rw [List.dropLast_append_of_ne_nil he] at hp
      exact List.forall_mem_append.mpr ⟨before, ih.1⟩ p hp

/-- A value is given by the last attempt, to the implementation that it is an attempt at, and by no
    other. -/
theorem Series.given (h : Series st n c ks last ds r) :
    (∀ v implementation, r.outcome = .ok (v, implementation) → ∃ front i, attemptsIn ds = front ++ [(i, .given (.ok v))] ∧
      i.implementation = implementation ∧ ∀ p ∈ front, ∀ v', p.2 ≠ .given (.ok v')) ∧
    (∀ f, r.outcome = .error f → ∀ p ∈ attemptsIn ds, ∀ v, p.2 ≠ .given (.ok v)) := by
  induction h with
  | exhausted => exact ⟨nofun, fun _ _ => by simp⟩
  | @value _ _ _ _ v _ h =>
    refine ⟨?_, nofun⟩
    rintro _ _ ⟨⟩
    obtain ⟨front, hfront, hno⟩ := h.given.1 v rfl
    exact ⟨front, _, hfront, rfl, hno⟩
  | terminal h => exact ⟨nofun, fun _ _ => h.given.2 _ rfl⟩
  | @failed _ _ _ f ds _ _ _ h _ _ ih =>
    have before : ∀ p ∈ attemptsIn ds, ∀ v, p.2 ≠ .given (.ok v) := h.given.2 f rfl
    rw [attemptsIn_append]
    refine ⟨fun v implementation hr => ?_, fun f hr => List.forall_mem_append.mpr ⟨before, ih.2 f hr⟩⟩
    obtain ⟨front, i, hfront, hi, hno⟩ := ih.1 v implementation hr
    exact ⟨_, i, by rw [hfront, List.append_assoc], hi, List.forall_mem_append.mpr ⟨before, hno⟩⟩

end Series

section Queues

variable {attempted after : List String} {queue rest order : List Implementation} {a : Implementation}

/-- The implementation at the front of a queue was not attempted, so there is one less to be tried
    behind it. -/
theorem next_untried (hq : queue ⊆ n.implementations) (hd : (queue.dropWhile fun a => attempted.contains a.skillId) = a :: rest) :
    a.skillId ∉ attempted ∧ untried n (a.skillId :: attempted) < untried n attempted ∧
      fallbacksOf n a ++ rest ⊆ n.implementations := by
  obtain ⟨fresh, queued, -⟩ := mem_of_dropWhile hd
  have unknown : a.skillId ∉ attempted := by simpa using fresh
  exact ⟨unknown, untried_cons_lt (hq (queued a (.head rest))) unknown,
    List.append_subset.mpr ⟨fun b hb => mem_of_fallbacksOf hb, fun b hb => hq (queued b (.tail a hb))⟩⟩

/-- Nothing is left to be explored if all skills in the queue were attempted. -/
theorem Explored.order_eq_nil (h : Explored n attempted queue order after)
    (hd : (queue.dropWhile fun a => attempted.contains a.skillId) = []) : order = [] := by
  have left := h.dropWhile
  rw [hd] at left
  cases left
  rfl

/-- Otherwise the first of the others is attempted. -/
theorem Explored.order_eq_cons (h : Explored n attempted queue order after)
    (hd : (queue.dropWhile fun a => attempted.contains a.skillId) = a :: rest) :
    ∃ further, order = a :: further ∧ Explored n (a.skillId :: attempted) (fallbacksOf n a ++ rest) further after := by
  have left := h.dropWhile
  rw [hd] at left
  cases left with
  | pass hs =>
    obtain ⟨fresh, -⟩ := mem_of_dropWhile hd
    exact absurd hs (by simpa using fresh)
  | attempt _ hf hb h =>
    obtain rfl := resolves_fallbacks_iff.mp hf
    exact ⟨_, rfl, hb.append h⟩

/-- An exploration is made in trials if there is room for the implementations that are left. -/
theorem tryAlternatives_shows {room : Nat} (h : Explored n attempted queue order after) (hq : queue ⊆ n.implementations)
    (hroom : untried n attempted ≤ room) (retries : Nat) (last : Fault) :
    (tryAlternatives st n room attempted queue retries last).Shows c fun ds r =>
      ∃ m, Series st n c (order.map .ofImplementation) last ds ⟨r.outcome, m⟩ ∧ r.retries = retries + m := by
  induction room generalizing attempted queue order retries last with
  | zero =>
    unfold tryAlternatives
    split
    · next hd =>
      obtain rfl := h.order_eq_nil hd
      exact .pure ⟨0, .exhausted, rfl⟩
    · next hd =>
      obtain ⟨-, fewer, -⟩ := next_untried hq hd
      omega
  | succ room ih =>
    unfold tryAlternatives
    split
    · next hd =>
      obtain rfl := h.order_eq_nil hd
      exact .pure ⟨0, .exhausted, rfl⟩
    · next a rest hd =>
      obtain ⟨-, fewer, hq⟩ := next_untried hq hd
      obtain ⟨further, rfl, below⟩ := h.order_eq_cons hd
      have told : (Walk.emit (.fallbackUsed n.id a.id)).Shows c fun ds _ => ds = [] := .emit rfl rfl
      refine told.bind fun ds _ hds => ?_
      subst hds
      refine (attemptSkill_shows st n c (.ofImplementation a)).bind fun ds r hr => ?_
      obtain ⟨outcome, m⟩ := r
      cases outcome with
      | ok v => exact .pure ⟨m, by simpa using .value hr, rfl⟩
      | error f =>
        refine .ite (fun terminal => .pure ⟨m, by simpa using .terminal hr terminal, rfl⟩) fun alive => ?_
        refine (ih below hq (by omega) (retries + m) f).mono fun es r hr' => ?_
        obtain ⟨m', series, hm⟩ := hr'
        exact ⟨m + m', .failed hr (by simpa using alive) series, hm.trans (Nat.add_assoc ..)⟩

/-- More room than there are implementations left changes nothing. -/
theorem tryAlternatives_room {room room' : Nat} (hq : queue ⊆ n.implementations) (h : untried n attempted ≤ room)
    (h' : untried n attempted ≤ room') (retries : Nat) (last : Fault) :
    tryAlternatives st n room attempted queue retries last = tryAlternatives st n room' attempted queue retries last := by
  induction room generalizing room' attempted queue retries last with
  | zero =>
    unfold tryAlternatives
    split
    · rfl
    · next hd =>
      obtain ⟨-, fewer, -⟩ := next_untried hq hd
      omega
  | succ room ih =>
    unfold tryAlternatives
    split
    · rfl
    · next a rest hd =>
      obtain ⟨-, fewer, hq⟩ := next_untried hq hd
      cases room' with
      | zero => omega
      | succ room' =>
        have same (retries : Nat) (last : Fault) :
            tryAlternatives st n room (a.skillId :: attempted) (fallbacksOf n a ++ rest) retries last =
              tryAlternatives st n room' (a.skillId :: attempted) (fallbacksOf n a ++ rest) retries last :=
          ih hq (by omega) (by omega) retries last
        simp only [same]

end Queues

/-- A recovery makes trials of the skill of the node itself and, in the order of their exploration, of
    the implementations. -/
theorem recover_shows (st : Setting) {skill : String} {order : List Implementation} {after : List String}
    (h : Explored n [skill] (rankedUnder n c.vars) order after) :
    (recover st n skill).Shows c (Series st n c (candidates skill order) .cancelled) := by
  unfold recover
  refine (attemptSkill_shows st n c (.own skill)).bind fun ds r hr => ?_
  obtain ⟨outcome, m⟩ := r
  cases outcome with
  | ok v => exact .pure (by simpa using .value hr)
  | error f =>
    refine .ite (fun terminal => .pure (by simpa using .terminal hr terminal)) fun alive => ?_
    refine (rankedImplementations_judges n c).bind ?_
    refine (tryAlternatives_shows h (ranked_mergeSort n c.vars).subset (List.length_filter_le _ _) m f).mono fun es r hr' => ?_
    obtain ⟨m', series, hm⟩ := hr'
    obtain ⟨outcome, retries⟩ := r
    obtain rfl : retries = m + m' := hm
    exact .failed hr (by simpa using alive) series

end Trials

end Capability.Execution
