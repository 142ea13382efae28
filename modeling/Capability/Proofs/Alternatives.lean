/-
  Capability.Proofs.Alternatives — which implementations are invoked for a skill node.

  The alternatives of a node are ranked by whether their conditions hold. The fallbacks of one that
  failed are put in front of the others by their ids, and nobody looks at their conditions. So what
  is invoked is reached from an alternative that applies, and need not apply itself.

  (1) `tryAlternatives_tries`: every alternative in the queue applies or is a fallback of one that
      was invoked, whatever fails.
  (2) `tryAlternatives_exhausts`: if everything fails, all that is queued is attempted.
  (3) `invoked_alternatives_are_reached`: what is invoked in the courses of a visit is reached, and
      what is reached is invoked in some of them.
-/

import Capability.Proofs.Invocations

namespace Capability

/-- The invocation is one of an implementation. -/
def Invocation.IsOf (i : Invocation) (a : Implementation) : Prop := i.implementation = some a.id ∧ i.skill = a.skillId

namespace Execution

/-! ## Alternatives -/

/-- Whether all conditions of an implementation are true under some variables or spelled `default`. -/
def applies (vars : Keyed Json) (a : Implementation) : Bool :=
  a.conditions.all fun c => Lint.isDefault c || isTrue vars c

/-- The implementations that can be reached at a node: those that apply, and the fallbacks of
    those that are reached. -/
inductive Reached (n : Node) (vars : Keyed Json) : Implementation → Prop
  | ranked {a : Implementation} : a ∈ n.implementations → applies vars a = true → Reached n vars a
  | fallback {a b : Implementation} : Reached n vars b → a ∈ fallbacksOf n b → Reached n vars a

/-- The implementation applies, or it is a fallback of one that is reached and was invoked before. -/
def Due (n : Node) (vars : Keyed Json) (before : List Invocation) (a : Implementation) : Prop :=
  applies vars a = true ∨ ∃ j ∈ before, ∃ b, Reached n vars b ∧ j.IsOf b ∧ a ∈ fallbacksOf n b

/-- The rule of a node: the invocation sees the variables, and is one of the skill of the node itself
    or of an implementation whose turn it is. -/
structure Called (n : Node) (vars : Keyed Json) (before : List Invocation) (i : Invocation) : Prop where
  node : i.node = n.id
  sees : i.vars = vars
  turn : i.implementation = none ∧ n.skillId = some i.skill ∨ ∃ a, i.IsOf a ∧ Reached n vars a ∧ Due n vars before a

section Alternatives

variable {n : Node} {vars : Keyed Json} {a b : Implementation} {before is : List Invocation}

/-- What is left of a queue once those at its front are passed over. -/
theorem mem_of_dropWhile {p : Implementation → Bool} {queue rest : List Implementation} (h : queue.dropWhile p = a :: rest) :
    p a = false ∧ (∀ b ∈ a :: rest, b ∈ queue) ∧ ∀ b ∈ queue, p b = true ∨ b ∈ a :: rest := by
  have parts : queue.takeWhile p ++ a :: rest = queue := h ▸ List.takeWhile_append_dropWhile
  refine ⟨?_, fun b hb => parts ▸ List.mem_append_right _ hb, fun b hb => ?_⟩
  · have first := List.head?_dropWhile_not p queue
    simpa [h] using first
  · rw [← parts] at hb
    exact (List.mem_append.mp hb).imp_left List.mem_takeWhile_imp

theorem mem_of_fallbacksOf (h : a ∈ fallbacksOf n b) : a ∈ n.implementations := by
  obtain ⟨id, -, hf⟩ := List.mem_filterMap.mp h
  exact List.mem_of_find?_eq_some hf

theorem Reached.mem (h : Reached n vars a) : a ∈ n.implementations := by
  cases h with
  | ranked hm => exact hm
  | fallback _ hf => exact mem_of_fallbacksOf hf

/-- If no fallback leads away from what applies, everything that is reached applies. -/
theorem Reached.applies (h : Reached n vars a)
    (closed : ∀ b ∈ n.implementations, applies vars b = true → ∀ a ∈ fallbacksOf n b, applies vars a = true) :
    applies vars a = true := by
  induction h with
  | ranked _ ha => exact ha
  | fallback hb hf ih => exact closed _ hb.mem ih _ hf

theorem Due.mono (h : Due n vars before a) (hs : before ⊆ is) : Due n vars is a := by
  rcases h with ha | ⟨j, hj, hb⟩
  · exact .inl ha
  · exact .inr ⟨j, hs hj, hb⟩

theorem implementationHolds_decides (n : Node) (c : String) :
    (implementationHolds n c).Decides fun vars => Lint.isDefault c || isTrue vars c := by
  unfold implementationHolds
  cases Lint.isDefault c with
  | true => exact .pure true
  | false => exact Walk.holds_decides n.id c

theorem rankedImplementations_decides (n : Node) : (rankedImplementations n).Decides fun vars =>
    (n.implementations.filter (applies vars)).mergeSort fun a b => a.priority ≤ b.priority := by
  have applicable (a : Implementation) :
      (Walk.allHold (implementationHolds n) a.conditions).Decides fun vars => applies vars a :=
    Walk.allHold_decides (implementationHolds_decides n) a.conditions
  exact (Walk.keepWhere_decides applicable n.implementations).bind fun kept =>
    .pure (kept.mergeSort fun a b => a.priority ≤ b.priority)

end Alternatives

/-! ## Attempts -/

namespace Walk

variable {α β : Type} {vars : Keyed Json} {P : Rule} {before : List Invocation} {Q : List Invocation → α → Prop}

/-- After some invocations and under some variables, the walk keeps to a rule and changes nothing. It
    comes to a value that satisfies `Q` together with what was invoked. -/
def Tries (vars : Keyed Json) (P : Rule) (before : List Invocation) (w : Walk α) (Q : List Invocation → α → Prop) : Prop :=
  ∀ s is, s.context.vars = vars → before ⊆ is →
    w.Invokes P s is fun is' r s' => is ⊆ is' ∧ Noted s (Q is') r s'

theorem Tries.later {w : Walk α} (h : w.Tries vars P before Q) {is : List Invocation} (hs : before ⊆ is) :
    w.Tries vars P is Q :=
  fun s is' hv hb => h s is' hv (List.Subset.trans hs hb)

theorem Tries.pure {a : α} (h : ∀ is, before ⊆ is → Q is a) : (pure a : Walk α).Tries vars P before Q :=
  fun _ is _ hb => ⟨List.Subset.refl is, .pure (h is hb)⟩

theorem Tries.mono {w : Walk α} {Q' : List Invocation → α → Prop} (h : w.Tries vars P before Q)
    (hQ : ∀ is a, Q is a → Q' is a) : w.Tries vars P before Q' :=
  fun s is hv hb => (h s is hv hb).mono fun _ _ _ ⟨hs, hr⟩ => ⟨hs, hr.mono (hQ _)⟩

theorem Tries.bind {w : Walk β} {Q' : List Invocation → β → Prop} (h : w.Tries vars P before Q') {f : β → Walk α}
    (hf : ∀ is b, before ⊆ is → Q' is b → (f b).Tries vars P is Q) : (w >>= f).Tries vars P before Q := by
  intro s is hv hb
  refine invokes_bind.mpr ((h s is hv hb).mono fun is' r s' hr => ?_)
  obtain ⟨hs, ⟨b, rfl, hb'⟩, fs, rfl⟩ := hr
  refine (hf is' b (List.Subset.trans hb hs) hb' (s.noting fs) is' hv (List.Subset.refl is')).mono fun is'' r t ht => ?_
  exact ⟨List.Subset.trans hs ht.1, .trans rfl ht.2⟩

theorem Tries.ite {c : Prop} [Decidable c] {w w' : Walk α} (h : c → w.Tries vars P before Q)
    (h' : ¬c → w'.Tries vars P before Q) : (if c then w else w').Tries vars P before Q := by
  split
  · exact h ‹_›
  · exact h' ‹_›

/-- What is decided by looking at conditions is known of the value. -/
theorem Decides.tries {w : Walk α} {v : Keyed Json → α} (hv : w.Decides v) (hw : w.Ponders) :
    w.Tries vars P before fun _ a => a = v vars := by
  intro s is hs _
  refine (Tells.invokes (hw.decided hv s)).mono fun is' r s' hr => ?_
  obtain ⟨rfl, hr⟩ := hr
  exact ⟨List.Subset.refl is', hr.mono fun a ha => hs ▸ ha⟩

theorem Tries.emit (e : Event) : (emit e).Tries vars P before fun _ _ => True :=
  fun _ is _ _ => ⟨List.Subset.refl is, .pure trivial⟩

theorem Tries.pause (d : Duration) : (request (.pause d) : Walk Bool).Tries vars P before fun _ _ => True :=
  fun _ is _ _ _ => ⟨List.Subset.refl is, .pure trivial⟩

/-- An attempt is made when it is allowed, unless it is cancelled before. -/
theorem Tries.skill {node : String} {i : Invocation} (h : ∀ is, before ⊆ is → P is i) (l : Option Duration) :
    (call node (.skill i) l).Tries vars P before fun is outcome => outcome = .error .cancelled ∨ i ∈ is := by
  intro s is _ hb
  refine Walk.invokes_skill.mpr ⟨h is hb, ⟨List.Subset.refl is, .pure (.inl rfl)⟩, fun a => ?_⟩
  exact ⟨List.subset_append_left is [i], .pure (.inr (by simp))⟩

end Walk

section Attempts

variable {st : Setting} {n : Node} {vars : Keyed Json} {P : Rule} {before : List Invocation}

/-- A skill is invoked if it is attempted, unless that is cancelled before or in a wait. -/
theorem attempts_try {N : Invocation → Prop} {a : Attempts Walk Json}
    (ha : ∀ k, (a.attempt k).Tries vars P before fun is outcome => outcome = .error .cancelled ∨ ∃ j ∈ is, N j)
    (hn : ∀ k d, a.announce k d = Walk.emit (.nodeRetrying n.id k d)) (hp : ∀ d, a.pause d = Walk.request (.pause d))
    (backoff : Backoff) (retries k : Nat) :
    (a.run backoff retries k).Tries vars P before fun is r => r.outcome = .error .cancelled ∨ ∃ j ∈ is, N j := by
  have ends {is : List Invocation} {r : Retried Json} (h : r.outcome = .error .cancelled ∨ ∃ j ∈ is, N j) :
      (pure r : Walk (Retried Json)).Tries vars P is fun is r => r.outcome = .error .cancelled ∨ ∃ j ∈ is, N j :=
    .pure fun is' hs => h.imp_right (Exists.imp fun j hj => ⟨hs hj.1, hj.2⟩)
  induction retries generalizing k with
  | zero =>
    unfold Attempts.run
    refine (ha k).bind fun is r _ hr => ?_
    cases r with
    | ok v => exact ends (.inr (by simpa using hr))
    | error fault => exact ends hr
  | succ retries ih =>
    unfold Attempts.run
    simp only [hn, hp]
    refine (ha k).bind fun is r hb hr => ?_
    cases r with
    | ok v => exact ends (.inr (by simpa using hr))
    | error fault =>
      refine .ite (fun _ => ?_) fun _ => ends hr
      refine (Walk.Tries.emit _).bind fun is' _ hs _ => (Walk.Tries.pause _).bind fun is'' (cut : Bool) hs' _ => ?_
      refine .ite (fun _ => ends (.inl rfl)) fun _ => (ih (k + 1)).later ?_
      exact List.Subset.trans hb (List.Subset.trans hs hs')

/-- All attempts at a skill are invocations of it that see the variables. -/
theorem attemptSkill_tries {skill : String} {implementation : Option String}
    (h : ∀ is, before ⊆ is → ∀ i : Invocation, i.node = n.id → i.vars = vars → i.implementation = implementation →
      i.skill = skill → P is i) :
    (attemptSkill st n skill implementation).Tries vars P before fun is r =>
      r.outcome = .error .cancelled ∨ ∃ j ∈ is, j.implementation = implementation ∧ j.skill = skill := by
  intro s is hv hb
  refine Walk.invokes_bind.mpr (Walk.invokes_get.mpr ?_)
  refine attempts_try (fun k => ?_) (fun _ _ => rfl) (fun _ => rfl) _ _ _ s is hv hb
  refine (Walk.Tries.skill (fun is hs => h is hs _ rfl hv rfl rfl) _).mono fun is outcome ho => ?_
  exact ho.imp_right fun hi => ⟨_, hi, rfl, rfl⟩

end Attempts

section Recovery

variable {st : Setting} {n : Node} {vars : Keyed Json} {before : List Invocation}

/-- The queue holds implementations whose turn it is, whatever fails. -/
theorem tryAlternatives_tries (room : Nat) (attempted : List String) {queue : List Implementation} (retries : Nat)
    (last : Fault) (hq : ∀ a ∈ queue, Reached n vars a ∧ Due n vars before a) :
    (tryAlternatives st n room attempted queue retries last).Tries vars (Called n vars) before fun _ _ => True := by
  induction room generalizing attempted queue retries last before with
  | zero => unfold tryAlternatives; split <;> exact .pure fun _ _ => trivial
  | succ room ih =>
    unfold tryAlternatives
    split
    · exact .pure fun _ _ => trivial
    · next a rest hd =>
      obtain ⟨-, queued, -⟩ := mem_of_dropWhile hd
      obtain ⟨reached, due⟩ := hq a (queued a (.head rest))
      have called : ∀ is, before ⊆ is → ∀ i : Invocation, i.node = n.id → i.vars = vars → i.implementation = some a.id →
          i.skill = a.skillId → Called n vars is i := fun is hs i hn hv hi hk =>
        ⟨hn, hv, .inr ⟨a, ⟨hi, hk⟩, reached, due.mono hs⟩⟩
      refine (Walk.Tries.emit _).bind fun is _ hs _ => ((attemptSkill_tries called).later hs).bind fun is' r hs' hr => ?_
      split
      · exact .pure fun _ _ => trivial
      · next fault hf =>
        refine .ite (fun _ => .pure fun _ _ => trivial) fun alive => ih _ _ _ fun b hb => ?_
        -- The attempt was made, since only a cancellation prevents that, which ends the recovery.
        obtain ⟨j, hj, isOf⟩ : ∃ j ∈ is', j.IsOf a := by
          refine hr.resolve_left fun hc => alive ?_
          cases hf.symm.trans hc
          rfl
        rcases List.mem_append.mp hb with hb | hb
        · exact ⟨.fallback reached hb, .inr ⟨j, hj, a, reached, isOf, hb⟩⟩
        · obtain ⟨reached, due⟩ := hq b (queued b (.tail a hb))
          exact ⟨reached, due.mono (List.Subset.trans hs hs')⟩

theorem recover_tries {skill : String} (hk : n.skillId = some skill) :
    (recover st n skill).Tries vars (Called n vars) before fun _ _ => True := by
  have called : ∀ is, before ⊆ is → ∀ i : Invocation, i.node = n.id → i.vars = vars → i.implementation = none →
      i.skill = skill → Called n vars is i := fun is _ i hn hv hi hs =>
    ⟨hn, hv, .inl ⟨hi, hs ▸ hk⟩⟩
  refine (attemptSkill_tries called).bind fun is r _ _ => ?_
  split
  · exact .pure fun _ _ => trivial
  · refine .ite (fun _ => .pure fun _ _ => trivial) fun _ => ?_
    refine ((rankedImplementations_decides n).tries (rankedImplementations_ponders n)).bind fun is' ranked _ hr => ?_
    refine tryAlternatives_tries _ _ _ _ fun a ha => ?_
    obtain ⟨hm, applies⟩ := List.mem_filter.mp (List.mem_mergeSort.mp (hr ▸ ha))
    exact ⟨.ranked hm applies, .inl applies⟩

/-- What a visit comes to behind the outcome of a recovery: its step is completed with the value, or
    the fault decides. -/
def Sequel (st : Setting) (n : Node) (u : Scope) (outcome : Except Fault (Json × Option String)) (r : Except Halt Next)
    (t : Scope) : Prop :=
  match outcome with
  | .ok (v, _) => ∃ e : Step, t.context.history = u.context.history ++ [e] ∧ e.node = n.id ∧ e.status = .completed ∧
      e.result = some v
  | .error fault => ∃ replies, Fate st n u fault replies r t

/-- Nothing more is invoked behind a recovery. -/
theorem sequel_invokes {u v : Scope} (still : Open u n v) {P : Rule} (x : Recovered) :
    Walk.Invokes P (match x.outcome with
      | .ok (value, implementation) => do
        modify (bindOutputs n value)
        Walk.finishStep n (u.nextStep n.id) .completed
          { result := some value, fallbackUsed := implementation.isSome, retryCount := x.retries }
        advance st n.id
      | .error .cancelled => Walk.cancelStep n (u.nextStep n.id)
      | .error fault => handleFailure st n (u.nextStep n.id) fault x.retries) v before
      fun is r t => is = before ∧ Sequel st n u x.outcome r t := by
  unfold Sequel
  split
  · next value implementation ho =>
    simp only [ho]
    have bound := bindOutputs_during still.during n value
    refine (Walk.Tells.invokes (Walk.tells_bind.mpr (Walk.tells_modify.mpr (complete_tells bound rfl)))).mono fun is r t hr => ?_
    obtain ⟨rfl, closed⟩ := hr
    obtain ⟨_, ⟨⟩, e, he⟩ | ⟨_, hk | hk, -⟩ := closed (.skill default)
    · exact ⟨rfl, e, he⟩
    · cases hk
    · cases hk
  · next ho =>
    simp only [ho]
    exact (Walk.Tells.invokes (Walk.tells_cancelStep.mpr still.cancel)).mono fun is r t ⟨his, hr⟩ =>
      ⟨his, [], .inl ⟨rfl, rfl, hr⟩⟩
  · next fault hne ho =>
    simp only [ho]
    refine Process.Invokes.mono (Process.Asks.invokes (handleFailure_asks still x.retries) fun _ _ ha => ha.questions) ?_
    rintro is ⟨r, t⟩ ⟨his, replies, hr⟩
    exact ⟨his, replies, .inr ⟨hne, hr⟩⟩

theorem visitSkill_invokes (st : Setting) (n : Node) (u : Scope) :
    (visitSkill st n).Invokes (Called n u.context.vars) u [] fun _ _ _ => True := by
  unfold visitSkill
  refine Walk.invokes_bind.mpr (Walk.invokes_beginStep.mpr ?_)
  have opened := Open.start u n
  dsimp only
  split
  · exact (Walk.tells_failStep (Q := fun _ _ => True).mpr trivial).invokes.mono fun _ _ _ _ => trivial
  · next skill hk =>
    refine Walk.invokes_bind.mpr ((recover_tries hk _ [] opened.vars (List.Subset.refl [])).mono fun is r t hr => ?_)
    obtain ⟨-, ⟨x, rfl, -⟩, fs, rfl⟩ := hr
    exact (sequel_invokes (opened.noting fs) x).mono fun _ _ _ _ => trivial

end Recovery

/-! ## Failures -/

section Failing

variable {st : Setting} {n : Node} {fault : Fault} {s : Scope}

/-- An attempt that fails with no hope for another is the only one. -/
theorem attempts_fail (hr : fault.isRetryable = false) {a : Attempts Walk Json} {k : Nat} {i : Invocation}
    (made : (a.attempt k).undisturbed (fun _ => .error fault) s = ([i], some (.ok (.error fault), s)))
    (backoff : Backoff) (retries : Nat) :
    (a.run backoff retries k).undisturbed (fun _ => .error fault) s = ([i], some (.ok ⟨.error fault, k⟩, s)) := by
  unfold Attempts.run
  rw [Walk.undisturbed_bind made]
  cases retries with
  | zero => rfl
  | succ retries => simp only [hr]; rfl

theorem attemptSkill_fails (st : Setting) (n : Node) (s : Scope) (hr : fault.isRetryable = false) (skill : String)
    (implementation : Option String) : ∃ i : Invocation, i.implementation = implementation ∧ i.skill = skill ∧
      (attemptSkill st n skill implementation).undisturbed (fun _ => .error fault) s = ([i], some (.ok ⟨.error fault, 0⟩, s)) := by
  have looked : (get : Walk Scope).undisturbed (fun _ => .error fault) s = ([], some (.ok s, s)) := rfl
  refine ⟨_, ?_, ?_, (Walk.undisturbed_bind looked _).trans (congrArg _ (attempts_fail hr rfl _ _))⟩ <;> rfl

/-- A skill was attempted, before or by one of some invocations. -/
def Attempted (attempted : List String) (is : List Invocation) (a : Implementation) : Prop :=
  a.skillId ∈ attempted ∨ ∃ i ∈ is, i.skill = a.skillId

/-- All that is queued is attempted, and so are the fallbacks of what is invoked. -/
structure Exhausts (n : Node) (attempted : List String) (queue : List Implementation) (is : List Invocation) : Prop where
  queue : ∀ a ∈ queue, Attempted attempted is a
  fallbacks : ∀ i ∈ is, ∃ b ∈ n.implementations, i.IsOf b ∧ ∀ a ∈ fallbacksOf n b, Attempted attempted is a

/-- How many implementations have a skill that was not attempted. -/
def untried (n : Node) (attempted : List String) : Nat :=
  (n.implementations.filter fun a => !attempted.contains a.skillId).length

variable {attempted : List String} {a : Implementation}

theorem untried_cons_lt (ha : a ∈ n.implementations) (hf : a.skillId ∉ attempted) :
    untried n (a.skillId :: attempted) < untried n attempted := by
  have fewer : (n.implementations.filter fun b => !(a.skillId :: attempted).contains b.skillId) =
      (n.implementations.filter fun b => !attempted.contains b.skillId).filter fun b => b.skillId ≠ a.skillId := by
    rw [List.filter_filter]
    refine List.filter_congr fun b _ => ?_
    rw [List.contains_cons, Bool.not_or, Bool.and_comm]
    grind
  rw [untried, untried, fewer]
  refine List.length_filter_lt_length_iff_exists.mpr ⟨a, List.mem_filter.mpr ⟨ha, by simpa using hf⟩, by simp⟩

theorem Exhausts.nil {queue : List Implementation} (h : (queue.dropWhile fun a => attempted.contains a.skillId) = []) :
    Exhausts n attempted queue [] where
  queue a ha := .inl (by simpa using List.dropWhile_eq_nil_iff.mp h a ha)
  fallbacks := nofun

theorem Exhausts.cons {queue rest : List Implementation} {is : List Invocation} {i : Invocation}
    (h : Exhausts n (a.skillId :: attempted) (fallbacksOf n a ++ rest) is) (ha : a ∈ n.implementations) (hi : i.IsOf a)
    (hq : ∀ b ∈ queue, b.skillId ∈ attempted ∨ b ∈ a :: rest) : Exhausts n attempted queue (i :: is) := by
  have now {b : Implementation} (hb : Attempted (a.skillId :: attempted) is b) : Attempted attempted (i :: is) b := by
    rcases hb with hb | ⟨j, hj, hs⟩
    · rcases List.mem_cons.mp hb with hb | hb
      · exact .inr ⟨i, .head _, hi.2.trans hb.symm⟩
      · exact .inl hb
    · exact .inr ⟨j, .tail _ hj, hs⟩
  constructor
  · intro b hb
    rcases hq b hb with hb | hb
    · exact .inl hb
    · rcases List.mem_cons.mp hb with rfl | hb
      · exact .inr ⟨i, .head _, hi.2⟩
      · exact now (h.queue b (List.mem_append_right _ hb))
  · intro j hj
    rcases List.mem_cons.mp hj with rfl | hj
    · exact ⟨a, ha, hi, fun b hb => now (h.queue b (List.mem_append_left _ hb))⟩
    · obtain ⟨b, hb, hjb, hf⟩ := h.fallbacks j hj
      exact ⟨b, hb, hjb, fun c hc => now (hf c hc)⟩

/-- If everything fails, all that is queued is attempted, as long as there is room. -/
theorem tryAlternatives_exhausts (hr : fault.isRetryable = false) (ht : fault.isTerminal = false) {room : Nat}
    {queue : List Implementation} (retries : Nat) (last : Fault) (hroom : untried n attempted ≤ room)
    (hq : ∀ a ∈ queue, a ∈ n.implementations) : Exhausts n attempted queue
      ((tryAlternatives st n room attempted queue retries last).undisturbed (fun _ => .error fault) s).1 := by
  induction room generalizing attempted queue retries last s with
  | zero =>
    unfold tryAlternatives
    split
    · next hd => exact .nil hd
    · next a rest hd =>
      obtain ⟨fresh, queued, -⟩ := mem_of_dropWhile hd
      have fewer := untried_cons_lt (hq a (queued a (.head rest))) (by simpa using fresh)
      omega
  | succ room ih =>
    unfold tryAlternatives
    split
    · next hd => exact .nil hd
    · next a rest hd =>
      obtain ⟨fresh, queued, left⟩ := mem_of_dropWhile hd
      have ha : a ∈ n.implementations := hq a (queued a (.head rest))
      have fewer := untried_cons_lt ha (by simpa using fresh)
      have told : (Walk.emit (.fallbackUsed n.id a.id)).undisturbed (fun _ => .error fault) s = ([], some (.ok (), s)) := rfl
      obtain ⟨i, hi, hs, made⟩ := attemptSkill_fails st n s hr a.skillId (some a.id)
      rw [Walk.undisturbed_bind told, Walk.undisturbed_bind made]
      simp only [ht, Bool.false_eq_true, if_false]
      refine Exhausts.cons (ih _ _ (by omega) fun b hb => ?_) ha ⟨hi, hs⟩ fun b hb => ?_
      · rcases List.mem_append.mp hb with hb | hb
        · exact mem_of_fallbacksOf hb
        · exact hq b (queued b (.tail a hb))
      · exact (left b hb).imp_left fun h => by simpa using h

/-- Where every skill is named once, everything that is reached is invoked if everything fails. -/
theorem Exhausts.reaches {vars : Keyed Json} {skill : String} {queue : List Implementation} {is : List Invocation}
    (h : Exhausts n [skill] queue is) (distinct : (skill :: n.implementations.map (·.skillId)).Nodup)
    (hq : ∀ a ∈ n.implementations, applies vars a = true → a ∈ queue) (ha : Reached n vars a) : ∃ i ∈ is, i.IsOf a := by
  obtain ⟨foreign, distinct⟩ := List.nodup_cons.mp distinct
  have same {b c : Implementation} (hb : b ∈ n.implementations) (hc : c ∈ n.implementations) (hs : b.skillId = c.skillId) :
      b = c := List.inj_on_of_nodup_map distinct hb hc hs
  -- An implementation whose skill was attempted was invoked, since no other has its skill.
  have invoked {b : Implementation} (hb : b ∈ n.implementations) (hs : Attempted [skill] is b) : ∃ i ∈ is, i.IsOf b := by
    rcases hs with hs | ⟨i, hi, hs⟩
    · exact absurd (List.mem_singleton.mp hs ▸ List.mem_map_of_mem hb) foreign
    · obtain ⟨c, hc, hic, -⟩ := h.fallbacks i hi
      exact ⟨i, hi, same hc hb (hic.2.symm.trans hs) ▸ hic⟩
  induction ha with
  | ranked hm happ => exact invoked hm (h.queue _ (hq _ hm happ))
  | fallback hb hf ih =>
    obtain ⟨i, hi, hib⟩ := ih
    obtain ⟨c, hc, hic, hfall⟩ := h.fallbacks i hi
    obtain rfl := same hc hb.mem (hic.2.symm.trans hib.2)
    exact invoked (mem_of_fallbacksOf hf) (hfall _ hf)

/-- A node of which everything fails invokes everything that is reached. -/
theorem recover_exhausts (st : Setting) (hr : fault.isRetryable = false) (ht : fault.isTerminal = false) {skill : String}
    (distinct : (skill :: n.implementations.map (·.skillId)).Nodup) (ha : Reached n s.context.vars a) :
    ∃ i ∈ ((recover st n skill).undisturbed (fun _ => .error fault) s).1, i.IsOf a := by
  obtain ⟨first, -, -, made⟩ := attemptSkill_fails st n s hr skill none
  obtain ⟨queue, hq, fs, ranked⟩ : ∃ queue, (∀ a, a ∈ queue ↔ a ∈ n.implementations ∧ applies s.context.vars a = true) ∧
      ∃ fs, (rankedImplementations n).undisturbed (fun _ => .error fault) s = ([], some (.ok queue, s.noting fs)) :=
    ⟨_, fun a => by simp, (rankedImplementations_decides n).undisturbed (rankedImplementations_ponders n) s⟩
  have exhausts : Exhausts n [skill] queue ((tryAlternatives st n n.implementations.length [skill] queue 0 fault).undisturbed
      (fun _ => .error fault) (s.noting fs)).1 :=
    tryAlternatives_exhausts hr ht 0 fault (List.length_filter_le _ _) fun a ha => ((hq a).mp ha).1
  obtain ⟨i, hi, isOf⟩ := exhausts.reaches distinct (fun a hm happ => (hq a).mpr ⟨hm, happ⟩) ha
  refine ⟨i, ?_, isOf⟩
  unfold recover
  rw [Walk.undisturbed_bind made]
  simp only [ht, Bool.false_eq_true, if_false]
  rw [Walk.undisturbed_bind ranked]
  exact .tail first hi

/-- So does a visit of the node. -/
theorem visit_exhausts (st : Setting) (inner : Inner) (hr : fault.isRetryable = false) (ht : fault.isTerminal = false)
    (hk : n.kind = .skill) {skill : String} (hs : n.skillId = some skill)
    (distinct : (skill :: n.implementations.map (·.skillId)).Nodup) (ha : Reached n s.context.vars a) :
    ∃ i ∈ ((visit st inner n).undisturbed (fun _ => .error fault) s).1, i.IsOf a := by
  have begun : (Walk.beginStep n).undisturbed (fun _ => .error fault) s =
      ([], some (.ok (s.nextStep n.id), s.beginStep n.id)) := rfl
  have still : Reached n (s.beginStep n.id).context.vars a := ha
  obtain ⟨i, hi, isOf⟩ := recover_exhausts st hr ht distinct still
  refine ⟨i, ?_, isOf⟩
  unfold visit
  simp only [hk]
  unfold visitSkill
  rw [Walk.undisturbed_bind begun]
  simp only [hs]
  exact Walk.undisturbed_bind_subset _ _ _ hi

end Failing

/-! ## Visits -/

/-- What a visit of a node has invoked at some moment of one of its courses. -/
def HasInvoked (s : Setting) (inner : Inner) (n : Node) (u : Scope) (is : List Invocation) : Prop :=
  ∃ limit b w acts t w', Course limit b (.at ((visit s inner n).process u)) w acts t w' ∧ invocationsIn acts = is

section Visits

variable {s : Setting} {inner : Inner} {n : Node} {u : Scope} {is : List Invocation}

theorem HasInvoked.called (h : HasInvoked s inner n u is) (hk : n.kind = .skill) {first behind : List Invocation}
    {i : Invocation} (hi : is = first ++ i :: behind) : Called n u.context.vars first i := by
  obtain ⟨limit, b, w, acts, t, w', hc, rfl⟩ := h
  have skill : visit s inner n = visitSkill s n := by
    unfold visit
    simp only [hk]
  rw [skill] at hc
  exact hc.invokes (s := .at _) (visitSkill_invokes s n u) hi

theorem hasInvoked_undisturbed (answer : Call → Except Fault Json) :
    HasInvoked s inner n u ((visit s inner n).undisturbed answer u).1 := by
  obtain ⟨acts, t, hc, hi⟩ := ((visit s inner n).process u).undisturbed_course answer s.config.maxVisits (w := {}) rfl
  exact ⟨_, _, _, acts, t, _, hc, hi⟩

/-- A fault of a skill after which its alternatives are tried. -/
def missingSkill : Fault := .skillNotFound "work" "main"

/-- Whatever is answered and whenever it is cancelled, the visit of a skill node invokes the skill of
    the node and implementations that are reached under the variables of the scope, which each
    invocation sees: each of them applies, or is a fallback of one that is reached and was invoked
    before. So all of them apply if the fallbacks of those that apply do. Where the node names every
    skill once, whatever is reached is invoked in some course, also if it does not apply. -/
theorem invoked_alternatives_are_reached (hk : n.kind = .skill) :
    (∀ is, HasInvoked s inner n u is → ∀ first i behind, is = first ++ i :: behind → Called n u.context.vars first i) ∧
    ((∀ b ∈ n.implementations, applies u.context.vars b = true → ∀ a ∈ fallbacksOf n b, applies u.context.vars a = true) →
      ∀ is, HasInvoked s inner n u is → ∀ i ∈ is, i.implementation = none ∨
        ∃ a ∈ n.implementations, i.IsOf a ∧ applies u.context.vars a = true) ∧
    ∀ skill, n.skillId = some skill → (skill :: n.implementations.map (·.skillId)).Nodup →
      ∀ a, Reached n u.context.vars a → ∃ is, HasInvoked s inner n u is ∧ ∃ i ∈ is, i.IsOf a := by
  refine ⟨fun is h first i behind hi => h.called hk hi, fun closed is h i hi => ?_, fun skill hs distinct a ha => ?_⟩
  · obtain ⟨first, behind, hsplit⟩ := List.append_of_mem hi
    obtain ⟨own, -⟩ | ⟨a, isOf, reached, -⟩ := (h.called hk hsplit).turn
    · exact .inl own
    · exact .inr ⟨a, reached.mem, isOf, reached.applies closed⟩
  · have terminal : missingSkill.isTerminal = false := rfl
    obtain ⟨i, hi, isOf⟩ := visit_exhausts s inner rfl terminal hk hs distinct ha
    exact ⟨_, hasInvoked_undisturbed _, i, hi, isOf⟩

end Visits

/-- An implementation that applies only if the way is open. -/
def barred : Implementation := { id := "barred", skillId := "closed", conditions := ["open"] }

/-- One that always applies and leads to the other. -/
def backup : Implementation := { id := "backup", skillId := "spare", fallbacks := ["barred"] }

def detour : Node := { Node.skill "work" "main" with implementations := [backup, barred] }

def detoured : Setting where
  graph :=
    { id := "detoured"
      version := "1.0"
      name := ""
      description := ""
      metadata := none
      strategy := .abort
      maxRetries := 0
      retryDelay := none
      nodes := [{ id := "start", kind := .start }, detour, { id := "end", kind := .finish }]
      edges := [{ source := "start", target := "work" }, { source := "work", target := "end" }] }

/-- A scope in which the way is open or not. -/
def passage (opened : Bool) : Scope := { context := { vars := [("open", .bool opened)] } }

theorem barred_reached (opened : Bool) : Reached detour (passage opened).context.vars barred := by
  have applicable : applies (passage opened).context.vars backup = true := rfl
  exact .fallback (.ranked (.head _) applicable) (by decide)

/-- Where the way is open, the fallback is invoked, and all that is invoked applies. -/
theorem an_open_way_is_taken :
    let inner : Inner := fun _ _ => pure .ended
    (∃ is, HasInvoked detoured inner detour (passage true) is ∧ ∃ i ∈ is, i.IsOf barred) ∧
    ∀ is, HasInvoked detoured inner detour (passage true) is → ∀ i ∈ is, i.implementation = none ∨
      ∃ a ∈ detour.implementations, i.IsOf a ∧ applies (passage true).context.vars a = true := by
  intro inner
  have kind : detour.kind = .skill := rfl
  obtain ⟨-, closed, reached⟩ := invoked_alternatives_are_reached (s := detoured) (u := passage true) kind
  exact ⟨reached "main" rfl (by decide) barred (barred_reached true), closed (by decide +kernel)⟩

/-- Where it is not, the fallback is invoked as well, though it does not apply. -/
theorem a_barred_way_is_taken : detoured.graph.validate.isValid = true ∧ detour ∈ detoured.graph.nodes ∧
    detour.kind = .skill ∧ applies (passage false).context.vars barred = false ∧
    ∃ is, HasInvoked detoured (fun _ _ => pure .ended) detour (passage false) is ∧
      ∃ i ∈ is, i.IsOf barred ∧ ∀ a ∈ detour.implementations, i.IsOf a → a = barred := by
  have valid : detoured.graph.validate.isValid = true := by decide +kernel
  have terminal : missingSkill.isTerminal = false := rfl
  have reached : Reached detour (passage false).context.vars barred := barred_reached false
  obtain ⟨i, hi, isOf⟩ := visit_exhausts detoured (fun _ _ => pure .ended) rfl terminal rfl rfl (by decide) reached
  refine ⟨valid, by decide, rfl, by decide +kernel, _, hasInvoked_undisturbed _, i, hi, isOf, fun a ha hia => ?_⟩
  have same : a.id = barred.id := Option.some.inj (hia.1.symm.trans isOf.1)
  exact List.inj_on_of_nodup_map (f := (·.id)) (by decide) ha reached.mem same

end Execution

end Capability
