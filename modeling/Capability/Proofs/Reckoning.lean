/-
  Capability.Proofs.Reckoning — what a step reports of the attempts that were made during it.

  Only skill nodes attempt anything. The attempts during the step of one are a round at its own skill
  and one round each at some of its implementations; the retries among them are announced, and the
  step reports how many there were. Where a wait is cut short an attempt was announced that is not
  made, but then the step is interrupted and reports none.

  (1) `Reckoning.attempts_length`, `Reckoning.retries_length`: the books balance.
  (2) `Series.reckoned`, `Series.bestows`: a recovery that is not cancelled keeps such books.
-/

import Capability.Proofs.Trials

namespace Capability

/-- What a step that is over reports. -/
def Step.report (e : Step) : StepReport :=
  { result := e.result, error := e.error, fallbackUsed := e.fallbackUsed, retryCount := e.retryCount }

namespace Execution

variable {g : Graph} {n : Node} {ds : List Deed}

/-- Some deeds are the rounds of attempts at the skill of a node itself and at implementations that
    were tried in its place, all of which were answered, and the announcements of all attempts that
    are not the first of their round. -/
structure Reckoning (g : Graph) (n : Node) (c : Context) (skill : String) (tried : List Implementation)
    (rounds : List (Candidate × Nat)) (ds : List Deed) (retryCount : Nat) : Prop where
  own : n.skillId = some skill
  known : tried ⊆ n.implementations
  distinct : (skill :: tried.map (·.skillId)).Nodup
  turns : rounds.map (·.1) = candidates skill tried
  attempts : Rounds g n c rounds ((attemptsIn ds).map (·.1))
  answered : ∀ p ∈ attemptsIn ds, p.2 ≠ .cancelled
  announced : retriesIn ds = rounds.flatMap fun r => (List.range' 1 r.2).map (n.id, ·)
  counted : retryCount = (rounds.map (·.2)).sum

namespace Reckoning

variable {c : Context} {skill : String} {tried : List Implementation} {rounds : List (Candidate × Nat)} {retryCount : Nat}

/-- One attempt at the skill of the node, one for each retry and one for each implementation. -/
theorem attempts_length (h : Reckoning g n c skill tried rounds ds retryCount) :
    (attemptsIn ds).length = 1 + retryCount + tried.length := by
  have made (rounds : List (Candidate × Nat)) :
      (rounds.flatMap fun r => (List.range (r.2 + 1)).map (r.1.invocation n c)).length = (rounds.map (·.2)).sum + rounds.length := by
    induction rounds with
    | nil => rfl
    | cons r rounds ih =>
      simp only [List.flatMap_cons, List.length_append, List.length_map, List.length_range, ih, List.map_cons, List.sum_cons,
        List.length_cons]
      omega
  have turns := congrArg List.length h.turns
  have attempts := congrArg List.length h.attempts.2
  rw [made, ← h.counted, List.length_map] at attempts
  simp only [candidates, List.length_map, List.length_cons] at turns
  omega

theorem retries_length (h : Reckoning g n c skill tried rounds ds retryCount) : (retriesIn ds).length = retryCount := by
  simp [h.announced, h.counted, List.length_flatMap]

end Reckoning

/-- The attempts among some deeds account for a number of retries. -/
def Reckoned (g : Graph) (n : Node) (ds : List Deed) (retryCount : Nat) : Prop :=
  ∃ c skill tried rounds, Reckoning g n c skill tried rounds ds retryCount

/-- The last attempt gave the value that is reported, and no other gave one. A fallback is reported
    just when that was an attempt at an implementation. -/
def Bestows (ds : List Deed) (report : StepReport) : Prop :=
  ∃ front i v, attemptsIn ds = front ++ [(i, .given (.ok v))] ∧ (∀ p ∈ front, ∀ w, p.2 ≠ .given (.ok w)) ∧
    report.result = some v ∧ report.fallbackUsed = i.implementation.isSome

section Series

variable {st : Setting} {c : Context} {skill : String} {order : List Implementation} {after : List String} {r : Recovered}

/-- A recovery that is not cancelled reports its retries. -/
theorem Series.reckoned (h : Series st n c (candidates skill order) .cancelled ds r) (hs : n.skillId = some skill)
    (explored : Explored n [skill] (rankedUnder n c.vars) order after) (hr : r.outcome ≠ .error .cancelled) :
    Reckoned st.graph n ds r.retries := by
  obtain ⟨rounds, hp, some, attempts, counted, announced, -⟩ := h.rounds
  -- Its first round is at the skill of the node, so the others are at the first implementations.
  obtain ⟨tried, hp', turns⟩ : ∃ tried, tried <+: order ∧ rounds.map (·.1) = candidates skill tried := by
    cases rounds with
    | nil => exact absurd rfl (some nofun)
    | cons first rounds =>
      obtain ⟨own, hp⟩ := List.cons_prefix_cons.mp hp
      obtain ⟨tried, hp', turns⟩ := List.prefix_map_iff.mp hp
      exact ⟨tried, hp', congr (congrArg List.cons own) turns⟩
  obtain ⟨distinct, foreign⟩ := explored.nodup
  have known : order ⊆ n.implementations := explored.order_subset (ranked_mergeSort n c.vars).subset
  refine ⟨c, skill, tried, rounds, hs, fun a ha => known (hp'.subset ha), ?_, turns, attempts, h.heard.2 hr,
    announced hr, counted⟩
  refine List.nodup_cons.mpr ⟨fun hm => ?_, distinct.sublist (hp'.sublist.map _)⟩
  obtain ⟨a, ha, ho⟩ := List.mem_map.mp hm
  exact foreign a (hp'.subset ha) (ho ▸ .head _)

/-- Where it comes to a value, that is what its last attempt gave. -/
theorem Series.bestows {cs : List Candidate} {last : Fault} {v : Json} {implementation : Option String}
    (h : Series st n c cs last ds r) (hr : r.outcome = .ok (v, implementation)) {report : StepReport}
    (hv : report.result = some v) (hf : report.fallbackUsed = implementation.isSome) : Bestows ds report := by
  obtain ⟨front, i, hfront, rfl, hno⟩ := h.given.1 v implementation hr
  exact ⟨front, i, v, hfront, hno, hv, hf⟩

end Series

/-! ## Steps -/

/-- What is shown of trials while the step of a node is open allows for what it reports. -/
inductive Warrant (g : Graph) (n : Node) : List Deed → StepStatus → StepReport → Prop
  /-- Nothing is attempted for other nodes. -/
  | idle {status : StepStatus} {report : StepReport} : n.kind ≠ .skill → report.retryCount = 0 → Warrant g n [] status report
  | tried {ds : List Deed} {status : StepStatus} {report : StepReport} : n.kind = .skill → Reckoned g n ds report.retryCount →
      (status = .completed → Bestows ds report) → Warrant g n ds status report

theorem Warrant.silent {status : StepStatus} {report : StepReport} (h : Warrant g n ds status report) (hk : n.kind ≠ .skill) :
    ds = [] := by
  cases h with
  | idle => rfl
  | tried hk' => exact absurd hk' hk

/-- What is shown of trials during a step accounts for what it reports, if it is not interrupted. -/
inductive Account (g : Graph) (n : Node) : List Deed → Step → Prop
  | finished {ds : List Deed} {e : Step} : e.interrupted = false → Warrant g n ds e.status e.report → Account g n ds e
  | interrupted {ds : List Deed} {e : Step} : e.interrupted = true → e.retryCount = 0 → (n.kind ≠ .skill → ds = []) →
      Account g n ds e

end Execution

end Capability
