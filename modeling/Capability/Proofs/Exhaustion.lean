/-
  Capability.Proofs.Exhaustion — a skill node does not fail before it has tried all that it may.

  What a recovery invokes is known beforehand, up to how far it comes: rounds of attempts at the
  candidates on a list, from its front. A call that is made shows in its answer, and an answer without
  a call is the last one, so the trials of a recovery tell its invocations. The list is gone through
  to its end unless a candidate gives a value or meets a terminal fault.

  (1) `Course.made`: the calls of a strand beside their answers.
  (2) `Rounds.of_isPrefix`: what a recovery has invoked at any moment are rounds as well.
  (3) `recover_course`, `visit_course`: what is invoked in the course of a recovery, and in that of a
      visit.
  (4) `alternatives_are_exhausted`: candidates have one round each, and all of them if the node fails
      by a fault that is not terminal.
-/

import Capability.Proofs.Race
import Capability.Proofs.Trials

namespace Capability.Execution

/-! ## Calls and answers -/

/-- Attempts that are over, beside the invocations that were made for them. One that a cancellation
    answers may have been made or not. -/
inductive Made : List (Invocation × Answer) → List Invocation → Prop
  | nil : Made [] []
  | made {i : Invocation} {a : Answer} {as : List (Invocation × Answer)} {is : List Invocation} :
      Made as is → Made ((i, a) :: as) (i :: is)
  | skipped {i : Invocation} {as : List (Invocation × Answer)} {is : List Invocation} :
      Made as is → Made ((i, .cancelled) :: as) is

namespace Made

variable {as : List (Invocation × Answer)} {is : List Invocation}

/-- As long as nothing was cancelled everything was made. -/
theorem eq (h : Made as is) (ha : ∀ p ∈ as, p.2 ≠ .cancelled) : is = as.map (·.1) := by
  induction h with
  | nil => rfl
  | made _ ih => rw [ih fun p hp => ha p (.tail _ hp), List.map_cons]
  | skipped => exact absurd rfl (ha _ (.head _))

/-- So was everything but the last attempt if only that was cancelled. -/
theorem isPrefix (h : Made as is) (ha : ∀ p ∈ as.dropLast, p.2 ≠ .cancelled) : is <+: as.map (·.1) := by
  induction h with
  | nil => exact List.nil_prefix
  | @made i a as is _ ih =>
    refine List.cons_prefix_cons.mpr ⟨rfl, ih fun p hp => ha p ?_⟩
    rw [List.dropLast_cons_of_ne_nil (List.ne_nil_of_mem (List.mem_of_mem_dropLast hp))]
    exact .tail _ hp
  | @skipped i as is h _ =>
    cases as with
    | nil =>
      cases h
      exact List.nil_prefix
    | cons p as => exact absurd rfl (ha (i, .cancelled) (.head _))

end Made

/-- The skills whose answers are waited for. -/
def Standing.called : {α : Type} → Standing α → List Invocation
  | _, .calling (.skill i) _ _ => [i]
  | _, .fork _ _ branches _ _ => (List.ofFn fun i => (branches i).called).flatten
  | _, _ => []

/-- Where there is no split, the calls of a strand are answered one after another. -/
theorem Course.made {limit : Nat} {α : Type} {b : Bool} {s : Standing α} {w w' : Shared} {acts : List Act} {a : α}
    (h : Course limit b s w acts (.finished a) w') {Q : α → Prop} (hs : s.Ensures (fun _ => False) Q) :
    Made (attemptsIn (deedsIn acts)) (s.called ++ invocationsIn acts) := by
  generalize ht : Standing.finished a = t at h
  induction h with
  | stay =>
    subst ht
    exact .nil
  | move hm _ ih =>
    have rest := ih (hm.ensures hs) ht
    cases hm with
    | visit | stopped | notify | pause | cut | finish => exact rest
    | call k => cases k <;> exact rest
    | skip k =>
      cases k with
      | skill i => exact .skipped rest
      | question q => exact rest
    | answer k | expire k | interrupt k =>
      cases k with
      | skill i => exact .made rest
      | question q => exact rest
    | «open» | branch | gather => exact hs.1.elim
  | elsewhere _ _ _ ih => exact ih hs ht

/-! ## Rounds at any moment -/

section Rounds

variable {g : Graph} {n : Node} {c : Context} {rounds : List (Candidate × Nat)} {is is' : List Invocation}

/-- A part of some rounds from their front are rounds of the first candidates. -/
theorem Rounds.of_isPrefix (h : Rounds g n c rounds is) (hp : is' <+: is) :
    ∃ rounds', rounds'.map (·.1) <+: rounds.map (·.1) ∧ Rounds g n c rounds' is' := by
  induction rounds generalizing is is' with
  | nil =>
    obtain ⟨-, rfl⟩ := h
    obtain rfl := List.prefix_nil.mp hp
    exact ⟨[], List.nil_prefix, .nil⟩
  | cons r rounds ih =>
    obtain ⟨k, m⟩ := r
    obtain ⟨hle, rfl⟩ := h
    obtain ⟨hm, hle⟩ := List.forall_mem_cons.mp hle
    rw [List.flatMap_cons] at hp
    rcases List.prefix_or_prefix_of_prefix hp (List.prefix_append _ _) with short | ⟨more, rfl⟩
    · -- The part ends within the first round, perhaps before its first attempt.
      have part : is' = (List.range (min is'.length (m + 1))).map (k.invocation n c) := by
        rw [← List.take_range, List.map_take]
        exact List.prefix_iff_eq_take.mp short
      rcases Nat.eq_zero_or_pos is'.length with none | some
      · obtain rfl := List.length_eq_zero_iff.mp none
        exact ⟨[], List.nil_prefix, .nil⟩
      · refine ⟨[(k, min is'.length (m + 1) - 1)], List.cons_prefix_cons.mpr ⟨rfl, List.nil_prefix⟩, ?_, ?_⟩
        · simp only [List.forall_mem_singleton]
          omega
        · have whole : min is'.length (m + 1) - 1 + 1 = min is'.length (m + 1) := by omega
          simpa only [List.flatMap_singleton, whole] using part
    · obtain ⟨rounds', hp', hle', rfl⟩ := ih ⟨hle, rfl⟩ ((List.prefix_append_right_inj _).mp hp)
      exact ⟨(k, m) :: rounds', List.cons_prefix_cons.mpr ⟨rfl, hp'⟩, List.forall_mem_cons.mpr ⟨hm, hle'⟩, rfl⟩

/-- Some candidates had a round of attempts each. -/
def Tried (g : Graph) (n : Node) (c : Context) (tried : List Candidate) (is : List Invocation) : Prop :=
  ∃ rounds, rounds.map (·.1) = tried ∧ Rounds g n c rounds is

theorem Tried.of_isPrefix {tried : List Candidate} (h : Tried g n c tried is) (hp : is' <+: is) :
    ∃ tried', tried' <+: tried ∧ Tried g n c tried' is' := by
  obtain ⟨rounds, rfl, hr⟩ := h
  obtain ⟨rounds', hp', hr'⟩ := hr.of_isPrefix hp
  exact ⟨_, hp', rounds', rfl, hr'⟩

end Rounds

/-! ## Recoveries -/

section Courses

variable {s : Setting} {inner : Inner} {n : Node} {skill : String} {u : Scope} {order : List Implementation} {after : List String}
  {limit : Nat} {b : Bool} {w w' : Shared} {acts : List Act}

/-- A recovery that is over made a series of trials. -/
theorem recover_series (h : Explored n [skill] (rankedUnder n u.context.vars) order after) {r : Except Halt Recovered} {v : Scope}
    (hc : Course limit b (.at ((recover s n skill).process u)) w acts (.finished (r, v)) w') :
    ∃ x, r = .ok x ∧ Series s n u.context (candidates skill order) .cancelled (trialsIn (deedsIn acts)) x := by
  obtain ⟨x, -, hr, -, series⟩ := hc.recounts (recover_shows s h u rfl)
  exact ⟨x, hr, series⟩

/-- Its invocations are rounds of the first candidates, and of all of them if it failed by a fault
    that is not terminal. -/
theorem Series.tried {x : Recovered} {cs : List Candidate} {c : Context} {last : Fault}
    (h : Series s n c cs last (trialsIn (deedsIn acts)) x) (made : Made (attemptsIn (deedsIn acts)) (invocationsIn acts)) :
    ∃ tried, tried <+: cs ∧ Tried s.graph n c tried (invocationsIn acts) ∧
      ∀ f, x.outcome = .error f → f.isTerminal = false → tried = cs := by
  obtain ⟨rounds, hp, -, hr, -, -, hall⟩ := h.rounds
  obtain ⟨before, heard⟩ := h.heard
  rw [attemptsIn_trialsIn] at hr before heard
  by_cases hx : ∃ f, x.outcome = .error f ∧ f.isTerminal = false
  · obtain ⟨f, hf, alive⟩ := hx
    have calm : x.outcome ≠ .error .cancelled := by
      rw [hf]
      rintro ⟨⟩
      cases alive
    rw [← made.eq (heard calm)] at hr
    exact ⟨_, hp, ⟨rounds, rfl, hr⟩, fun f hf alive => hall f hf alive⟩
  · have tried : Tried s.graph n c (rounds.map (·.1)) ((attemptsIn (deedsIn acts)).map (·.1)) := ⟨rounds, rfl, hr⟩
    obtain ⟨tried', hp', htried⟩ := tried.of_isPrefix (made.isPrefix before)
    exact ⟨tried', hp'.trans hp, htried, fun f hf alive => absurd ⟨f, hf, alive⟩ hx⟩

/-- What a recovery has invoked at any moment of its courses, and once it is over. -/
theorem recover_course (h : Explored n [skill] (rankedUnder n u.context.vars) order after)
    {t : Standing (Except Halt Recovered × Scope)}
    (hc : Course limit b (.at ((recover s n skill).process u)) w acts t w') :
    ∃ tried, tried <+: candidates skill order ∧ Tried s.graph n u.context tried (invocationsIn acts) ∧
      ∀ r v, t = .finished (r, v) → ∃ x, r = .ok x ∧
        Series s n u.context (candidates skill order) .cancelled (trialsIn (deedsIn acts)) x ∧
        ∀ f, x.outcome = .error f → f.isTerminal = false → tried = candidates skill order := by
  have ended {acts : List Act} {r : Except Halt Recovered} {v : Scope} {w' : Shared}
      (hc : Course limit b (.at ((recover s n skill).process u)) w acts (.finished (r, v)) w') :
      ∃ x, r = .ok x ∧ Series s n u.context (candidates skill order) .cancelled (trialsIn (deedsIn acts)) x ∧
        ∃ tried, tried <+: candidates skill order ∧ Tried s.graph n u.context tried (invocationsIn acts) ∧
          ∀ f, x.outcome = .error f → f.isTerminal = false → tried = candidates skill order := by
    obtain ⟨x, hr, series⟩ := recover_series h hc
    exact ⟨x, hr, series, series.tried (hc.made (recover_notes s n skill _ u))⟩
  by_cases ht : ∃ p, t = .finished p
  · obtain ⟨⟨r, v⟩, rfl⟩ := ht
    obtain ⟨x, hr, series, tried, hp, htried, hall⟩ := ended hc
    refine ⟨tried, hp, htried, ?_⟩
    rintro _ _ ⟨⟩
    exact ⟨x, hr, series, hall⟩
  · obtain ⟨post, ⟨r, v⟩, w'', finished⟩ := hc.goes_on
    obtain ⟨-, -, -, tried, hp, htried, -⟩ := ended finished
    have begun : invocationsIn acts <+: invocationsIn (acts ++ post) := by
      rw [invocationsIn_append]
      exact List.prefix_append _ _
    obtain ⟨tried', hp', htried⟩ := htried.of_isPrefix begun
    exact ⟨tried', hp'.trans hp, htried, fun r v e => absurd ⟨_, e⟩ ht⟩

/-- A visit that is over made one recovery, which made all of its invocations and decides what
    becomes of it. -/
theorem visit_course (hk : n.kind = .skill) (hs : n.skillId = some skill) {r : Except Halt Next} {t : Scope}
    (hc : Course limit b (.at ((visit s inner n).process u)) w acts (.finished (r, t)) w') :
    ∃ x v during w₁ w₂, Course limit b (.at ((recover s n skill).process (u.beginStep n.id))) w₁ during (.finished (.ok x, v)) w₂ ∧
      invocationsIn acts = invocationsIn during ∧ Sequel s n u x.outcome r t := by
  have skilled : visit s inner n = visitSkill s n := by
    unfold visit
    simp only [hk]
  rw [skilled] at hc
  unfold visitSkill at hc
  have begins : (Walk.beginStep n).Ensures (fun _ => True) u fun r s' => r = .ok (u.nextStep n.id) ∧ s' = u.beginStep n.id :=
    Walk.ensures_beginStep.mpr ⟨rfl, rfl⟩
  obtain ⟨_, _, first, acts, w₁, rfl, hfirst, ⟨rfl, rfl⟩, hc⟩ := Walk.course_bind hc begins
  simp only [hs] at hc
  obtain ⟨_, _, during, last, w₂, rfl, hduring, ⟨⟨x, rfl⟩, fs, rfl⟩, hc⟩ :=
    Walk.course_bind hc (recover_notes s n skill (fun _ => True) _)
  -- Nothing is invoked where the step begins or is closed.
  have silent : (Walk.beginStep n).Invokes (fun _ _ => False) u [] fun is _ _ => is = [] := Walk.invokes_beginStep.mpr rfl
  have opening : invocationsIn (first ++ [.ended]) = [] := (hfirst.trans (.single (.finish _))).invoked (s := .at _) silent
  obtain ⟨closing, sequel⟩ := hc.invoked (s := .at _) (sequel_invokes (P := fun _ _ => False) ((Open.start u n).noting fs) x)
  refine ⟨x, _, _, w₁, w₂, hduring.trans (.single (.finish _)), ?_, sequel⟩
  rw [List.nil_append] at closing
  rw [invocationsIn_append] at opening
  rw [invocationsIn_append, invocationsIn_append, invocationsIn_append, closing, (List.append_eq_nil_iff.mp opening).1,
    List.nil_append]
  rfl

/-- Whatever implementations a skill node has, what it may try is a list of candidates that is settled
    when it is visited: its own skill, then the implementations that apply, by priority and in the
    order of their declaration, and behind each of them its fallbacks before the others: the first
    implementations that are declared with the ids it names, in the order in which it names them. No
    skill is on it twice, and it misses none of an implementation that applies or of a fallback of one
    on it.
    At any moment of a recovery, and of a visit, the first of these candidates had one round of
    attempts each, numbered from zero, with no more retries than the graph allows. A recovery comes to
    an end in a series of trials, in any room there may be; if it fails by a fault that is not terminal
    it has tried every candidate. A visit makes one recovery, whose outcome decides what becomes of it. -/
theorem alternatives_are_exhausted (s : Setting) (inner : Inner) {n : Node} {skill : String} (hk : n.kind = .skill)
    (hs : n.skillId = some skill) (u : Scope) :
    Ranked n u.context.vars (rankedUnder n u.context.vars) ∧
    ∃ order after, Explored n [skill] (rankedUnder n u.context.vars) order after ∧
      (skill :: order.map (·.skillId)).Nodup ∧
      (∀ a ∈ n.implementations, applies u.context.vars a = true → a.skillId ∈ skill :: order.map (·.skillId)) ∧
      (∀ b ∈ order, ∀ id ∈ b.fallbacks, ∀ a, Means n id a → a.skillId ∈ skill :: order.map (·.skillId)) ∧
      (∀ limit b w acts t w', Course limit b (.at ((recover s n skill).process (u.beginStep n.id))) w acts t w' →
        ∃ tried, tried <+: candidates skill order ∧ Tried s.graph n u.context tried (invocationsIn acts) ∧
          ∀ r v, t = .finished (r, v) → ∃ x, r = .ok x ∧
            Series s n (u.beginStep n.id).context (candidates skill order) .cancelled (trialsIn (deedsIn acts)) x ∧
            ∀ f, x.outcome = .error f → f.isTerminal = false → tried = candidates skill order) ∧
      (∀ limit b w acts t w', Course limit b (.at ((visit s inner n).process u)) w acts t w' →
        (∃ tried, tried <+: candidates skill order ∧ Tried s.graph n u.context tried (invocationsIn acts)) ∧
        ∀ r u', t = .finished (r, u') → ∃ x v during w₁ w₂,
          Course limit b (.at ((recover s n skill).process (u.beginStep n.id))) w₁ during (.finished (.ok x, v)) w₂ ∧
          invocationsIn acts = invocationsIn during ∧ Sequel s n u x.outcome r u') ∧
      (∀ room, n.implementations.length ≤ room → ∀ retries last,
        tryAlternatives s n room [skill] (rankedUnder n u.context.vars) retries last =
          tryAlternatives s n n.implementations.length [skill] (rankedUnder n u.context.vars) retries last) ∧
      ∀ limit (f : Nat → Standing (Except Halt Recovered × Scope)),
        f 0 = .at ((recover s n skill).process (u.beginStep n.id)) → ¬∀ i, (f (i + 1)).Follows limit (f i) := by
  have ranked : Ranked n u.context.vars (rankedUnder n u.context.vars) := ranked_mergeSort n u.context.vars
  obtain ⟨order, after, h⟩ := exists_exploration [skill] ranked.subset
  have begun : Explored n [skill] (rankedUnder n (u.beginStep n.id).context.vars) order after := h
  have had (x : String) : x ∈ after ↔ x ∈ skill :: order.map (·.skillId) := by
    simp [h.mem_iff, List.mem_map]
  obtain ⟨distinct, foreign⟩ := h.nodup
  obtain ⟨queued, below⟩ := h.exhausted
  refine ⟨ranked, order, after, h, ?_, fun a ha happ => ?_, fun b hb id hid a ha => (had _).mp (below b hb id hid a ha),
    fun limit b w acts t w' hc => recover_course begun hc, fun limit b w acts t w' hc => ⟨?_, ?_⟩, fun room hroom retries last => ?_,
    fun limit f _ => Standing.not_for_ever f⟩
  · refine List.nodup_cons.mpr ⟨fun hm => ?_, distinct⟩
    obtain ⟨a, ha, hs⟩ := List.mem_map.mp hm
    exact foreign a ha (hs ▸ .head _)
  · exact (had _).mp (queued a (ranked.perm.mem_iff.mpr (List.mem_filter.mpr ⟨ha, happ⟩)))
  · obtain ⟨post, ⟨r, u'⟩, w'', finished⟩ := hc.goes_on
    obtain ⟨x, v, during, w₁, w₂, hduring, same, -⟩ := visit_course hk hs finished
    obtain ⟨tried, hp, htried, -⟩ := recover_course begun hduring
    have sooner : invocationsIn acts <+: invocationsIn during := by
      rw [← same, invocationsIn_append]
      exact List.prefix_append _ _
    obtain ⟨tried', hp', htried⟩ := htried.of_isPrefix sooner
    exact ⟨tried', hp'.trans hp, htried⟩
  · rintro r u' rfl
    exact visit_course hk hs hc
  · exact tryAlternatives_room ranked.subset ((List.length_filter_le _ _).trans hroom) (List.length_filter_le _ _) retries last

end Courses

/-- An implementation that names three others, one of which does not exist, and itself. -/
def ring : Implementation :=
  { id := "ring", skillId := "pull", priority := 2, fallbacks := ["knocker", "nowhere", "rope", "ring"] }

/-- One that leads back to it, and one whose id is taken by then. -/
def rope : Implementation := { id := "rope", skillId := "climb", priority := 5, fallbacks := ["ring"] }

def hook : Implementation := { id := "rope", skillId := "haul", priority := 3 }

def knocker : Implementation := { id := "knocker", skillId := "knock", priority := 9 }

def bell : Implementation := { id := "bell", skillId := "toll", priority := 1 }

/-- One with the skill of the node itself. -/
def echo : Implementation := { id := "echo", skillId := "main", priority := 1 }

def belfry : Node := { Node.skill "work" "main" with implementations := [ring, rope, hook, knocker, bell, echo] }

def besieged : Setting where
  graph :=
    { detoured.graph with
      id := "besieged"
      maxRetries := 1
      nodes := [{ id := "start", kind := .start }, belfry, { id := "end", kind := .finish }] }

/-- The fault that a recovery fails by. -/
def faultOf : Except Halt Recovered → Option Fault
  | .ok ⟨.error f, _⟩ => some f
  | _ => none

theorem faultOf_eq_some {r : Except Halt Recovered} {f : Fault} (h : faultOf r = some f) : ∃ m, r = .ok ⟨.error f, m⟩ := by
  rcases r with halt | ⟨v | g, m⟩
  · cases h
  · cases h; exact ⟨m, rfl⟩
  · cases h

theorem belfry_ranks : rankedUnder belfry [] = [bell, echo, ring, hook, rope, knocker] ∧
    rankedImplementations belfry = pure [bell, echo, ring, hook, rope, knocker] := by
  have queue : rankedUnder belfry [] = [bell, echo, ring, hook, rope, knocker] := by cbv
  have sorts : rankedImplementations belfry = (pure belfry.implementations : Walk (List Implementation)) >>= fun all =>
      pure (all.mergeSort fun a b => a.priority ≤ b.priority) := rfl
  refine ⟨queue, ?_⟩
  rw [sorts, pure_bind]
  exact congrArg pure queue

/-- The fallbacks have their turn in the order in which they are named: the knocker, which is ranked
    last, comes before the rope, and the hook after both. -/
theorem belfry_explored : Explored belfry ["main"] [bell, echo, ring, hook, rope, knocker]
    [bell, ring, knocker, rope, hook] ["haul", "climb", "knock", "pull", "toll", "main"] := by
  -- The first implementation with the id of the hook is the rope.
  have known : Means belfry "knocker" knocker := ⟨[ring, rope, hook], [bell, echo], rfl, rfl, by decide⟩
  have taken : Means belfry "rope" rope := ⟨[ring], [hook, knocker, bell, echo], rfl, rfl, by decide⟩
  have own : Means belfry "ring" ring := ⟨[], [rope, hook, knocker, bell, echo], rfl, rfl, by decide⟩
  have hauls : Explored belfry ["climb", "knock", "pull", "toll", "main"] [hook, rope, knocker] (hook :: [] ++ [])
      ["haul", "climb", "knock", "pull", "toll", "main"] :=
    .attempt (by decide) .nil .nil (.pass (by decide) (.pass (by decide) .nil))
  have climbs : Explored belfry ["knock", "pull", "toll", "main"] [rope, ring] (rope :: [] ++ [])
      ["climb", "knock", "pull", "toll", "main"] :=
    .attempt (by decide) (.found own .nil) (.pass (by decide) .nil) (.pass (by decide) .nil)
  have knocks : Explored belfry ["pull", "toll", "main"] [knocker, rope, ring] (knocker :: [] ++ [rope])
      ["climb", "knock", "pull", "toll", "main"] := .attempt (by decide) .nil .nil climbs
  have pulls : Explored belfry ["toll", "main"] [ring, hook, rope, knocker] (ring :: [knocker, rope] ++ [hook])
      ["haul", "climb", "knock", "pull", "toll", "main"] :=
    .attempt (by decide) (.found known (.missing (by decide) (.found taken (.found own .nil)))) knocks hauls
  have tolls : Explored belfry ["main"] [bell, echo, ring, hook, rope, knocker] (bell :: [] ++ [ring, knocker, rope, hook])
      ["haul", "climb", "knock", "pull", "toll", "main"] := .attempt (by decide) .nil .nil (.pass (by decide) pulls)
  exact tolls

/-- Where nothing mends it, everything is tried that can be, and the circle is gone round once. So it
    goes where no skill is found. -/
theorem a_circle_of_fallbacks_is_tried_out : besieged.graph.validate.isValid = true ∧
    Ranked belfry [] [bell, echo, ring, hook, rope, knocker] ∧
    (∀ limit b w acts x v w', Course limit b (.at ((recover besieged belfry "main").process (Scope.beginStep {} belfry.id))) w acts
      (.finished (.ok x, v)) w' → ∀ f, x.outcome = .error f → f.isTerminal = false →
        Tried besieged.graph belfry {} (candidates "main" [bell, ring, knocker, rope, hook]) (invocationsIn acts)) ∧
    ∃ acts x v w', Course besieged.config.maxVisits false
        (.at ((recover besieged belfry "main").process (Scope.beginStep {} belfry.id))) {} acts (.finished (.ok x, v)) w' ∧
      x.outcome = .error (.skillNotFound "work" "haul") ∧
      Tried besieged.graph belfry {} (candidates "main" [bell, ring, knocker, rope, hook]) (invocationsIn acts) := by
  have valid : besieged.graph.validate.isValid = true := by decide +kernel
  obtain ⟨ranked, order, after, explored, -, -, -, recovered, -⟩ :=
    alternatives_are_exhausted besieged (fun _ _ => pure .ended) (n := belfry) rfl rfl {}
  obtain ⟨queue, queued⟩ := belfry_ranks
  rw [queue] at ranked explored
  obtain ⟨rfl, -⟩ := explored.unique belfry_explored
  have failing (limit b w acts x v w') (hc : Course limit b (.at ((recover besieged belfry "main").process
      (Scope.beginStep {} belfry.id))) w acts (.finished (.ok x, v)) w') (f) (hf : x.outcome = .error f)
      (alive : f.isTerminal = false) :
      Tried besieged.graph belfry {} (candidates "main" [bell, ring, knocker, rope, hook]) (invocationsIn acts) := by
    obtain ⟨tried, -, htried, ended⟩ := recovered _ _ _ _ _ _ hc
    obtain ⟨_, ⟨⟩, -, hall⟩ := ended _ _ rfl
    exact hall f hf alive ▸ htried
  have shown : (((recover besieged belfry "main").process (Scope.beginStep {} belfry.id)).perform Rehearsal.collaborators
      besieged.config.maxVisits false { memory := { script := { catalog := some (.fixed []) } } }).1.outcome?.map
        (fun p => faultOf p.1) = some (some (.skillNotFound "work" "haul")) := by
    simp only [recover, queued, pure_bind]
    decide +kernel
  obtain ⟨⟨r, v⟩, hp, hs⟩ := Option.map_eq_some_iff.mp shown
  obtain ⟨acts, w', hc⟩ := Process.course_of_perform hp
  obtain ⟨m, rfl⟩ := faultOf_eq_some hs
  exact ⟨valid, ranked, failing, acts, _, v, w', hc, rfl, failing _ _ _ _ _ _ _ hc _ rfl rfl⟩

end Capability.Execution
