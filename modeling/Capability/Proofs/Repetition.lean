/-
  Capability.Proofs.Repetition — attempts that are repeated, in front of a clock and a token.

  Attempts and announcements may read and change anything, the token included. The token is cancelled
  at some moment or never; a wait is over when its time is or when the token is cancelled, and if both
  come at one moment either may be noticed.

  (1) `Cast.run_succ`, `run_unfolds`: what one attempt leads to, and with it all attempts of a run.
  (2) `Cast.Heeds.run_agrees`: attempts that heed the token come to the same, whatever is noticed first.
  (3) `attempts_follow_the_protocol`: how often, with what in between and to what end attempts are made.
-/

import Capability.Retry
import Capability.Proofs.Course
import Mathlib.Control.Monad.Basic

namespace Capability.Repetition

variable {σ α : Type}

/-! ## Time -/

/-- What attempts are made in: the time in milliseconds, when the token is cancelled, and whatever else
    is read and changed. -/
structure Scene (σ : Type) where
  now : Nat
  cancelAt : Option Nat
  memory : σ

namespace Scene

def isCancelled (s : Scene σ) : Bool := s.cancelAt.any (· ≤ s.now)

/-- When a wait that begins now has taken its time. -/
def due (s : Scene σ) (d : Duration) : Nat := s.now + d.ticks

/-- Whether the token is cancelled before, when or after a wait that begins now has taken its time. -/
def race (s : Scene σ) (d : Duration) : Ordering :=
  match s.cancelAt with
  | none => .gt
  | some t => compare (max t s.now) (s.due d)

/-- The end of a wait that begins now. -/
def pass (s : Scene σ) (d : Duration) : Scene σ :=
  match s.cancelAt with
  | none => { s with now := s.due d }
  | some t => { s with now := min (max t s.now) (s.due d) }

end Scene

/-! ## Runs -/

/-- What happens in a run of attempts. -/
inductive Beat (α : Type) where
  /-- The attempt of a number is made; whether the token was cancelled then. -/
  | called (n : Nat) (cancelled : Bool) (outcome : Except Fault α)
  | told (n : Nat) (delay : Duration)
  /-- A wait is over; whether the cancellation ended it. -/
  | waited (delay : Duration) (race : Ordering) (cut : Bool)
  deriving DecidableEq

/-- Where a run of attempts has come to. -/
structure Stage (σ α : Type) where
  scene : Scene σ
  beats : List (Beat α) := []

/-- Who makes the attempts and who is told of them. -/
structure Cast (σ α : Type) where
  attempt : Nat → Scene σ → Except Fault α × Scene σ
  announce : Nat → Duration → Scene σ → Scene σ

namespace Cast

/-- Makes an attempt. -/
def call (a : Cast σ α) (n : Nat) (g : Stage σ α) : Except Fault α × Stage σ α :=
  let (o, s) := a.attempt n g.scene
  (o, ⟨s, g.beats ++ [.called n g.scene.isCancelled o]⟩)

/-- Announces an attempt. -/
def tell (a : Cast σ α) (n : Nat) (delay : Duration) (g : Stage σ α) : Stage σ α :=
  ⟨a.announce n delay g.scene, g.beats ++ [.told n delay]⟩

/-- Waits. Of two things that happen at one moment the one is noticed that is picked, by what happened
    so far. -/
def wait (pick : List (Beat α) → Bool) (delay : Duration) (g : Stage σ α) : Bool × Stage σ α :=
  let cut := match g.scene.race delay with
    | .lt => true
    | .eq => pick g.beats
    | .gt => false
  (cut, ⟨g.scene.pass delay, g.beats ++ [.waited delay (g.scene.race delay) cut]⟩)

def attempts (a : Cast σ α) (pick : List (Beat α) → Bool) : Attempts (StateM (Stage σ α)) α where
  attempt := a.call
  announce n delay g := ((), a.tell n delay g)
  pause := wait pick

/-- A run of attempts from the one of a number on. -/
def run (a : Cast σ α) (pick : List (Beat α) → Bool) (b : Backoff) (retries n : Nat) (g : Stage σ α) :
    Retried α × Stage σ α :=
  (a.attempts pick).run b retries n g

variable {a : Cast σ α} {pick : List (Beat α) → Bool} {b : Backoff} {retries n : Nat} {g : Stage σ α}

/-- Without a retry left the attempt decides. -/
theorem run_zero : a.run pick b 0 n g = (⟨(a.call n g).1, n⟩, (a.call n g).2) := by
  unfold run Attempts.run
  simp only [attempts, bind, StateT.bind]
  cases (a.call n g).1 <;> rfl

/-- An attempt decides, or is followed by an announcement and a wait. -/
theorem run_succ : a.run pick b (retries + 1) n g =
    match a.call n g with
    | (.ok v, g) => (⟨.ok v, n⟩, g)
    | (.error fault, g) =>
      if fault.isRetryable then
        match wait pick (b.delay n) (a.tell (n + 1) (b.delay n) g) with
        | (true, g) => (⟨.error .cancelled, n⟩, g)
        | (false, g) => a.run pick b retries (n + 1) g
      else (⟨.error fault, n⟩, g) := by
  show (a.attempts pick).run b (retries + 1) n g = _
  rw [Attempts.run]
  simp only [attempts, bind, StateT.bind]
  rcases a.call n g with ⟨fault | v, g⟩
  · simp only
    by_cases hf : fault.isRetryable
    · simp only [hf, if_true]
      show (if (wait pick (b.delay n) (a.tell (n + 1) (b.delay n) g)).1 = true then pure ⟨.error .cancelled, n⟩
        else (a.attempts pick).run b retries (n + 1)) (wait pick (b.delay n) (a.tell (n + 1) (b.delay n) g)).2 = _
      rcases wait pick (b.delay n) (a.tell (n + 1) (b.delay n) g) with ⟨_ | _, g⟩ <;> rfl
    · simp only [hf]
      rfl
  · rfl

end Cast

/-! ## The protocol -/

/-- An attempt that another one follows, and the wait between them. -/
structure Round where
  cancelled : Bool
  fault : Fault
  race : Ordering

/-- A round with the attempt of a number. -/
def Round.beats (b : Backoff) (n : Nat) (r : Round) : List (Beat α) :=
  [.called n r.cancelled (.error r.fault), .told (n + 1) (b.delay n), .waited (b.delay n) r.race false]

/-- How the attempt of a number ends a run, if there are so many retries: it decides, or the wait after it
    is cut short. -/
inductive Ends (b : Backoff) (maxRetries n : Nat) : List (Beat α) → Except Fault α → Prop
  | decided (cancelled : Bool) (o : Except Fault α) : n ≤ maxRetries →
      (∀ fault, o = .error fault → fault.isRetryable = true → n = maxRetries) →
      Ends b maxRetries n [.called n cancelled o] o
  | cut (cancelled : Bool) (fault : Fault) (race : Ordering) : n < maxRetries → fault.isRetryable = true → race ≠ .gt →
      Ends b maxRetries n
        [.called n cancelled (.error fault), .told (n + 1) (b.delay n), .waited (b.delay n) race true] (.error .cancelled)

/-- What happens in a run from the attempt of a number on: rounds, and what ends it. -/
inductive Follows (b : Backoff) (maxRetries : Nat) : (n : Nat) → List (Beat α) → Retried α → Prop
  | last {n : Nat} {beats : List (Beat α)} {o : Except Fault α} : Ends b maxRetries n beats o →
      Follows b maxRetries n beats ⟨o, n⟩
  | round {n : Nat} {beats : List (Beat α)} {r : Retried α} (round : Round) : n < maxRetries →
      round.fault.isRetryable = true → round.race ≠ .lt → Follows b maxRetries (n + 1) beats r →
      Follows b maxRetries n (round.beats b n ++ beats) r

variable {a : Cast σ α} {pick : List (Beat α) → Bool} {b : Backoff} {maxRetries retries n : Nat} {g : Stage σ α}

/-- A wait ends as it must, or as it is picked. -/
theorem wait_cases (pick : List (Beat α) → Bool) (d : Duration) (g : Stage σ α) : ∃ cut,
    Cast.wait pick d g = (cut, ⟨g.scene.pass d, g.beats ++ [.waited d (g.scene.race d) cut]⟩) ∧
      (g.scene.race d = .lt → cut = true) ∧ (g.scene.race d = .gt → cut = false) ∧
      (g.scene.race d = .eq → cut = pick g.beats) := by
  refine ⟨_, rfl, ?_, ?_, ?_⟩ <;> intro h <;> rw [h]

theorem run_follows : ∀ {retries n : Nat} {g : Stage σ α}, n + retries = maxRetries →
    ∃ beats, (a.run pick b retries n g).2.beats = g.beats ++ beats ∧
      Follows b maxRetries n beats (a.run pick b retries n g).1 := by
  intro retries
  induction retries with
  | zero =>
    intro n g hn
    rw [Cast.run_zero]
    exact ⟨_, rfl, .last (.decided _ _ (by omega) fun _ _ _ => hn)⟩
  | succ retries ih =>
    intro n g hn
    rw [Cast.run_succ]
    have called : (a.call n g).2.beats = g.beats ++ [.called n g.scene.isCancelled (a.call n g).1] := rfl
    generalize a.call n g = answer at called ⊢
    obtain ⟨fault | v, g'⟩ := answer
    · replace called : g'.beats = g.beats ++ [.called n g.scene.isCancelled (.error fault)] := called
      by_cases hf : fault.isRetryable
      · obtain ⟨cut, waited, first, later, -⟩ := wait_cases pick (b.delay n) (a.tell (n + 1) (b.delay n) g')
        have told : (a.tell (n + 1) (b.delay n) g').beats = g'.beats ++ [.told (n + 1) (b.delay n)] := rfl
        simp only [if_pos hf, waited, told, called]
        generalize (a.tell (n + 1) (b.delay n) g').scene = s at first later ⊢
        cases cut with
        | true =>
          refine ⟨_, ?_, .last (.cut g.scene.isCancelled fault (s.race (b.delay n)) (by omega) hf
            fun h => absurd (later h) nofun)⟩
          simp only [List.append_assoc, List.cons_append, List.nil_append]
        | false =>
          obtain ⟨beats, hb, follows⟩ := ih (n := n + 1) (g := ⟨s.pass (b.delay n), _⟩) (by omega)
          refine ⟨_, ?_, .round ⟨g.scene.isCancelled, fault, s.race (b.delay n)⟩ (by omega) hf
            (fun h => absurd (first h) nofun) follows⟩
          rw [hb]
          simp only [Round.beats, List.append_assoc, List.cons_append, List.nil_append]
      · simp only [if_neg hf]
        refine ⟨_, called, .last (.decided _ _ (by omega) fun fault' he hr => ?_)⟩
        obtain rfl := Except.error.inj he
        exact absurd hr hf
    · exact ⟨_, called, .last (.decided _ _ (by omega) fun _ he => nomatch he)⟩

/-! ## Heeding the token -/

/-- Attempts come to nothing and change nothing once the token is cancelled. -/
def Cast.Heeds (a : Cast σ α) : Prop :=
  ∀ n s, s.isCancelled = true → a.attempt n s = (.error .cancelled, s)

/-- An attempt that is made before the token is cancelled. -/
def Beat.effective? : Beat α → Option (Nat × Except Fault α)
  | .called n false o => some (n, o)
  | .called _ true _ | .told .. | .waited .. => none

/-- When a wait has taken its time and the token is cancelled as well, the token is cancelled then. -/
theorem Scene.isCancelled_pass {s : Scene σ} {d : Duration} (h : s.race d = .eq) : (s.pass d).isCancelled = true := by
  unfold race at h
  unfold pass isCancelled
  cases hc : s.cancelAt with
  | none => simp [hc] at h
  | some t =>
    simp only [hc, Nat.compare_eq_eq] at h
    simp only [Option.any_some, decide_eq_true_eq]
    omega

/-- Attempts that heed the token do no more once it is cancelled. -/
theorem Cast.Heeds.run_cancelled (ha : a.Heeds) (h : g.scene.isCancelled = true) : a.run pick b retries n g =
    (⟨.error .cancelled, n⟩, ⟨g.scene, g.beats ++ [.called n true (.error .cancelled)]⟩) := by
  have called : a.call n g = (.error .cancelled, ⟨g.scene, g.beats ++ [.called n true (.error .cancelled)]⟩) := by
    rw [Cast.call, ha n g.scene h, h]
  cases retries with
  | zero => rw [Cast.run_zero, called]
  | succ retries =>
    rw [Cast.run_succ, called]
    rfl

/-- What a run comes to, apart from the attempts that came too late. -/
structure Agree (e e' : Retried α × Stage σ α) : Prop where
  outcome : e.1.outcome = e'.1.outcome
  scene : e.2.scene = e'.2.scene
  effective : e.2.beats.filterMap Beat.effective? = e'.2.beats.filterMap Beat.effective?

theorem Agree.symm {e e' : Retried α × Stage σ α} (h : Agree e e') : Agree e' e :=
  ⟨h.outcome.symm, h.scene.symm, h.effective.symm⟩

/-- A wait that is cut short comes to the same as one after which the next attempt finds the token
    cancelled. -/
theorem Cast.Heeds.cut_agrees (ha : a.Heeds) {s : Scene σ} (h : s.isCancelled = true) (beats : List (Beat α)) (d : Duration)
    (race : Ordering) : Agree (⟨.error .cancelled, n⟩, ⟨s, beats ++ [.waited d race true]⟩)
      (a.run pick b retries (n + 1) ⟨s, beats ++ [.waited d race false]⟩) := by
  rw [ha.run_cancelled h]
  refine ⟨rfl, rfl, ?_⟩
  simp only [List.filterMap_append, List.filterMap_cons, List.filterMap_nil, Beat.effective?, List.append_nil]

/-- Attempts that heed the token come to the same, whatever is noticed first. -/
theorem Cast.Heeds.run_agrees (ha : a.Heeds) (pick pick' : List (Beat α) → Bool) : ∀ {retries n : Nat} {g : Stage σ α},
    Agree (a.run pick b retries n g) (a.run pick' b retries n g) := by
  intro retries
  induction retries with
  | zero =>
    intro n g
    rw [Cast.run_zero, Cast.run_zero]
    exact ⟨rfl, rfl, rfl⟩
  | succ retries ih =>
    intro n g
    rw [Cast.run_succ, Cast.run_succ]
    obtain ⟨fault | v, g'⟩ := a.call n g
    · by_cases hf : fault.isRetryable
      · obtain ⟨cut, waited, first, later, -⟩ := wait_cases pick (b.delay n) (a.tell (n + 1) (b.delay n) g')
        obtain ⟨cut', waited', first', later', -⟩ := wait_cases pick' (b.delay n) (a.tell (n + 1) (b.delay n) g')
        simp only [if_pos hf, waited, waited']
        generalize a.tell (n + 1) (b.delay n) g' = g'' at *
        cases race : g''.scene.race (b.delay n) with
        | lt =>
          obtain rfl := first race
          obtain rfl := first' race
          exact ⟨rfl, rfl, rfl⟩
        | gt =>
          obtain rfl := later race
          obtain rfl := later' race
          exact ih
        | eq =>
          have late := Scene.isCancelled_pass race
          cases cut <;> cases cut'
          · exact ih
          · exact (ha.cut_agrees late _ _ _).symm
          · exact ha.cut_agrees late _ _ _
          · exact ⟨rfl, rfl, rfl⟩
      · simp only [if_neg hf]
        exact ⟨rfl, rfl, rfl⟩
    · exact ⟨rfl, rfl, rfl⟩

/-- If the token is cancelled when a wait has taken its time, nothing is made of it. -/
theorem Cast.Heeds.cancelled_of_tie (ha : a.Heeds) {d : Duration} {cut : Bool} : ∀ {retries n : Nat} {g : Stage σ α},
    .waited d .eq cut ∈ (a.run pick b retries n g).2.beats →
      .waited d .eq cut ∈ g.beats ∨ (a.run pick b retries n g).1.outcome = .error .cancelled := by
  have keeps {n : Nat} {g : Stage σ α} (h : .waited d .eq cut ∈ (a.call n g).2.beats) : .waited d .eq cut ∈ g.beats := by
    simpa [Cast.call] using h
  intro retries
  induction retries with
  | zero =>
    intro n g
    rw [Cast.run_zero]
    exact fun h => .inl (keeps h)
  | succ retries ih =>
    intro n g
    rw [Cast.run_succ]
    replace keeps := keeps (n := n) (g := g)
    generalize a.call n g = answer at keeps ⊢
    obtain ⟨fault | v, g'⟩ := answer
    · by_cases hf : fault.isRetryable
      · obtain ⟨noticed, waited, -⟩ := wait_cases pick (b.delay n) (a.tell (n + 1) (b.delay n) g')
        simp only [if_pos hf, waited]
        cases noticed with
        | true => exact fun _ => .inr rfl
        | false =>
          intro h
          by_cases race : (a.tell (n + 1) (b.delay n) g').scene.race (b.delay n) = .eq
          · refine .inr ?_
            dsimp only
            rw [ha.run_cancelled (Scene.isCancelled_pass race)]
          · obtain h | h := ih h
            · have other : ¬ .eq = (a.tell (n + 1) (b.delay n) g').scene.race (b.delay n) := fun h => race h.symm
              simp only [List.mem_append, List.mem_singleton, Beat.waited.injEq, other, false_and, and_false, or_false] at h
              exact .inl (keeps (by simpa [Cast.tell] using h))
            · exact .inr h
      · simp only [if_neg hf]
        exact fun h => .inl (keeps h)
    · exact fun h => .inl (keeps h)

/-! ## What is called -/

/-- The number of an attempt. -/
def Beat.number? : Beat α → Option Nat
  | .called n _ _ => some n
  | .told .. | .waited .. => none

/-- The rounds of a run, and what ended it. -/
theorem Follows.rounds {beats : List (Beat α)} {r : Retried α} (h : Follows b maxRetries n beats r) :
    ∃ (rounds : List Round) (last : List (Beat α)),
      beats = (rounds.zipIdx n).flatMap (fun p => p.1.beats b p.2) ++ last ∧ r.retries = n + rounds.length ∧
      (∀ round ∈ rounds, round.fault.isRetryable = true ∧ round.race ≠ .lt) ∧ Ends b maxRetries r.retries last r.outcome := by
  induction h with
  | last ends => exact ⟨[], _, rfl, rfl, by simp, ends⟩
  | round round _ retryable first _ ih =>
    obtain ⟨rounds, last, hb, hr, all, ends⟩ := ih
    refine ⟨round :: rounds, last, ?_, ?_, ?_, ends⟩
    · rw [hb, List.zipIdx_cons, List.flatMap_cons, List.append_assoc]
    · rw [hr, List.length_cons]
      omega
    · exact List.forall_mem_cons.mpr ⟨⟨retryable, first⟩, all⟩

theorem Follows.retries_le {beats : List (Beat α)} {r : Retried α} (h : Follows b maxRetries n beats r) :
    r.retries ≤ maxRetries := by
  induction h with
  | last ends =>
    cases ends with
    | decided _ _ hn => exact hn
    | cut _ _ _ hn => exact Nat.le_of_lt hn
  | round _ _ _ _ _ ih => exact ih

/-- Attempts are numbered in order. -/
theorem Follows.numbers {beats : List (Beat α)} {r : Retried α} (h : Follows b maxRetries n beats r) :
    ∃ k, r.retries = n + k ∧ beats.filterMap Beat.number? = List.range' n (k + 1) := by
  induction h with
  | last ends => exact ⟨0, rfl, by cases ends <;> rfl⟩
  | @round n _ r round _ _ _ _ ih =>
    obtain ⟨k, hr, numbers⟩ := ih
    refine ⟨k + 1, by omega, ?_⟩
    rw [List.filterMap_append, numbers, List.range'_succ (s := n)]
    rfl

/-- A cancellation that comes before a wait has taken its time ends the run. -/
theorem Follows.cancelled {beats : List (Beat α)} {r : Retried α} (h : Follows b maxRetries n beats r) {d : Duration}
    {cut : Bool} (hw : .waited d .lt cut ∈ beats) :
    cut = true ∧ r.outcome = .error .cancelled ∧ beats.getLast? = some (.waited d .lt cut) := by
  induction h with
  | last ends =>
    cases ends with
    | decided => simp at hw
    | cut => simp_all
  | round round _ _ first _ ih =>
    have later := (List.mem_append.mp hw).resolve_left (by simp [Round.beats, Ne.symm first])
    obtain ⟨rfl, outcome, last⟩ := ih later
    exact ⟨rfl, outcome, by rw [List.getLast?_append, last]; rfl⟩

/-- The attempt of an engine at a call, for a node: once the token is cancelled it comes to nothing and
    changes nothing. -/
def EngineHeeds (node : String) (k : Execution.Call) (l : Option Duration) : Prop :=
  ∀ (limit : Nat) (called : Bool) (w w' : Execution.Shared) (scope : Scope) (act : Execution.Act)
    (st : Execution.Standing (Except Execution.Halt (Except Fault Json) × Scope)), (called || w.cancelled) = true →
    Execution.Move limit called (.at ((Execution.call node k l).run.run scope)) w act st w' →
    act = .answered k l .cancelled false ∧ st = .at (pure (.ok (.error .cancelled), scope)) ∧ w' = w

theorem engineHeeds (node : String) (k : Execution.Call) (l : Option Duration) : EngineHeeds node k l := by
  intro limit called w w' scope act st hc h
  have made : (Execution.call node k l).run.run scope
      = .ask (.call k l) fun a => .done (.ok (a.outcome node l), scope) := rfl
  rw [made] at h
  cases h with
  | call _ _ _ hb => exact absurd (hb.symm.trans hc) Bool.false_ne_true
  | skip => exact ⟨rfl, rfl, rfl⟩

/-- Attempts are made in order, and each one but the last failed with a fault that may pass, was followed
    by the announcement of the next one and by a wait in which the token was not cancelled. The last
    attempt decides, because it succeeds, because its fault does not pass or because there are no more
    retries; or the token is cancelled during the wait behind it. If it is cancelled when a wait has taken
    its time, then attempts that heed the token, as those of an engine do, come to nothing more, and which of both
    is noticed makes no difference. -/
theorem attempts_follow_the_protocol (a : Cast σ α) (pick : List (Beat α) → Bool) (b : Backoff) (maxRetries : Nat)
    (s : Scene σ) :
    (∃ (rounds : List Round) (last : List (Beat α)),
      (a.run pick b maxRetries 0 ⟨s, []⟩).2.beats = rounds.zipIdx.flatMap (fun p => p.1.beats b p.2) ++ last ∧
      (a.run pick b maxRetries 0 ⟨s, []⟩).1.retries = rounds.length ∧ rounds.length ≤ maxRetries ∧
      (∀ round ∈ rounds, round.fault.isRetryable = true ∧ round.race ≠ .lt) ∧
      Ends b maxRetries rounds.length last (a.run pick b maxRetries 0 ⟨s, []⟩).1.outcome) ∧
    (a.run pick b maxRetries 0 ⟨s, []⟩).2.beats.filterMap Beat.number? =
      List.range ((a.run pick b maxRetries 0 ⟨s, []⟩).1.retries + 1) ∧
    (∀ d cut, .waited d .lt cut ∈ (a.run pick b maxRetries 0 ⟨s, []⟩).2.beats → cut = true ∧
      (a.run pick b maxRetries 0 ⟨s, []⟩).1.outcome = .error .cancelled ∧
      (a.run pick b maxRetries 0 ⟨s, []⟩).2.beats.getLast? = some (.waited d .lt cut)) ∧
    (a.Heeds → (∀ pick', Agree (a.run pick b maxRetries 0 ⟨s, []⟩) (a.run pick' b maxRetries 0 ⟨s, []⟩)) ∧
      ∀ d cut, .waited d .eq cut ∈ (a.run pick b maxRetries 0 ⟨s, []⟩).2.beats →
        (a.run pick b maxRetries 0 ⟨s, []⟩).1.outcome = .error .cancelled) ∧
    ∀ node k l, EngineHeeds node k l := by
  obtain ⟨beats, hb, follows⟩ : ∃ beats, (a.run pick b maxRetries 0 ⟨s, []⟩).2.beats = [] ++ beats ∧
      Follows b maxRetries 0 beats (a.run pick b maxRetries 0 ⟨s, []⟩).1 := run_follows (Nat.zero_add maxRetries)
  rw [List.nil_append] at hb
  obtain ⟨rounds, last, hr, retries, all, ends⟩ := follows.rounds
  obtain ⟨k, hk, numbers⟩ := follows.numbers
  rw [Nat.zero_add] at retries hk
  refine ⟨⟨rounds, last, hb.trans hr, retries, retries ▸ follows.retries_le, all, retries ▸ ends⟩, ?_, ?_, fun ha =>
    ⟨fun pick' => ha.run_agrees pick pick', fun d cut hw => (ha.cancelled_of_tie hw).resolve_left List.not_mem_nil⟩, engineHeeds⟩
  · rw [hb, numbers, hk, List.range_eq_range']
  · intro d cut hw
    rw [hb] at hw ⊢
    exact follows.cancelled hw

/-- Attempts that fail in passing, and heed the token. -/
def failing : Cast Unit Unit where
  attempt _ s := (.error (if s.isCancelled then .cancelled else .failed "work" ""), s)
  announce _ _ s := s

/-- The token is cancelled just when the second wait has taken its time. -/
theorem a_tie_is_a_cancellation : failing.Heeds ∧
    (failing.run (fun _ => true) (.fixed (.ofMillis 5)) 3 0 ⟨⟨0, some 10, ()⟩, []⟩).1.retries = 1 ∧
    (failing.run (fun _ => false) (.fixed (.ofMillis 5)) 3 0 ⟨⟨0, some 10, ()⟩, []⟩).1.retries = 2 ∧
    Agree (failing.run (fun _ => true) (.fixed (.ofMillis 5)) 3 0 ⟨⟨0, some 10, ()⟩, []⟩)
      (failing.run (fun _ => false) (.fixed (.ofMillis 5)) 3 0 ⟨⟨0, some 10, ()⟩, []⟩) ∧
    (failing.run (fun _ => true) (.fixed (.ofMillis 5)) 3 0 ⟨⟨0, some 10, ()⟩, []⟩).1.outcome = .error .cancelled := by
  have heeds : failing.Heeds := fun n s h => by simp [failing, h]
  obtain ⟨-, -, -, agree, -⟩ := attempts_follow_the_protocol failing (fun _ => true) (.fixed (.ofMillis 5)) 3 ⟨0, some 10, ()⟩
  refine ⟨heeds, by decide +kernel, by decide +kernel, (agree heeds).1 _, (agree heeds).2 (.ofMillis 5) true (by decide +kernel)⟩

end Capability.Repetition
