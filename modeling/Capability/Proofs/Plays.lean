/-
  Capability.Proofs.Plays — what the clock plays is a course.

  Whatever the collaborators answer, however long they take and whenever the run is cancelled,
  the moves that the clock lets the strands of a run make are moves of a course. What is true of
  all courses is therefore true of every run that is played.

  (1) `Process.ends`, `Stands.ends`: what is called off is unwound along a course.
  (2) `Process.reaches`, `Stands.reaches`: what moves on until it has to wait does so along one.
  (3) `Process.play_course`: what a process is played to is the end of a course.
-/

import Capability.Proofs.Rounds
import Capability.Rehearsal.Script

namespace Capability.Execution

variable {σ : Type} {c : Collaborators σ} {limit : Nat} {α : Type} {b : Bool}

/-! ## Cancelled processes -/

/-- A process that is called off comes to its end along a course. -/
theorem Process.ends (p : Process α) {b : Bool} {st : Stage σ} (hc : (b || st.cancelled) = true) :
    Ends limit b (.at p) st (p.unwind c limit st) := by
  induction p generalizing b st with
  | done a => exact ⟨_, .single (.finish a)⟩
  | ask q next ih =>
    cases q with
    | visit =>
      have hm : Course limit b (.at (.ask .visit next)) st.shared _ _ (st.visit limit).2.shared := .single (.visit next)
      exact .after hm (ih _ (hm.called_off hc))
    | stopped =>
      have hm : Course limit b (.at (.ask .stopped next)) st.shared _ (.at (next (b || st.cancelled))) st.shared :=
        .single (.stopped next)
      rw [hc] at hm
      exact .after hm (ih _ hc)
    | notify n =>
      have hm : Course limit b (.at (.ask (.notify n) next)) st.shared
          [.told n (c.told n st.now st.memory).1] (.at (next ())) (st.tell c n).shared := by
        rw [st.shared_tell]
        exact .single (.notify n next _)
      exact .after hm (ih _ (hm.called_off hc))
    | call k l => exact .after (.single (.skip k l next hc)) (ih _ hc)
    | pause d => exact .after (.single (.cut d next hc)) (ih _ hc)
  | split joining count branch next ihb ih =>
    have begins : ∀ (g : List Outcome × Option Nat × Stage σ) i,
        ((b || st.cancelled) = true → (b || g.2.2.cancelled) = true) → ∃ o acts t,
          g.1 ++ [((branch i).unwind c limit g.2.2).1] = g.1 ++ [o] ∧
          elect joining g.2.1 i ((branch i).unwind c limit g.2.2).1 = Standing.elect joining g.2.1 i t ∧ t = .finished o ∧
          Course limit (b || g.2.1.isSome) (.at (branch i)) g.2.2.shared acts t
            ((branch i).unwind c limit g.2.2).2.shared := by
      intro g i hg
      have hi : (b || g.2.1.isSome || g.2.2.cancelled) = true := by rw [Bool.or_right_comm, hg hc, Bool.true_or]
      obtain ⟨acts, hb⟩ := ihb i hi
      exact ⟨_, acts, .finished _, rfl, rfl, rfl, hb⟩
    obtain ⟨g, hg, outcomes, standings, acts, hos, hr, -, hbegun⟩ :=
      branches_begin joining branch next (fun o t => t = .finished o) Prod.fst (fun g => g.2.1) (fun g => g.2.2)
        (fun g i => (g.1 ++ [((branch i).unwind c limit g.2.2).1],
          elect joining g.2.1 i ((branch i).unwind c limit g.2.2).1, ((branch i).unwind c limit g.2.2).2))
        ([], none, st) rfl rfl begins
    have hgather : Course limit b (.fork joining count standings g.2.1 next) g.2.2.shared _ _ g.2.2.shared :=
      .single (.gather outcomes hr)
    have hunwind : (split joining count branch next).unwind c limit st = (next ⟨g.1, g.2.1⟩).unwind c limit g.2.2 := by
      rw [← hg]
      rfl
    rw [hunwind, hos]
    have hall := (Course.single (.open joining count branch next)).trans (hbegun.trans hgather)
    exact .after hall (ih _ (hall.called_off hc))

/-! ## Activities called off -/

section Unwinding

variable {joining : Joining} {count : Nat} {branches : Fin count → Activity Outcome}
  {standings : Fin count → Standing Outcome} {round : Round} {st : Stage σ}

theorem unwinders_eq (as : List (Activity Outcome)) :
    Activity.unwinders c limit as = as.map (Activity.unwind c limit) := by
  induction as with
  | nil => rfl
  | cons a as ih => rw [List.map_cons, ← ih]; rfl

theorem outcomesOf_ofFn {outcomes : Fin count → Outcome} :
    outcomesOf (List.ofFn fun i => .done (outcomes i)) = List.ofFn outcomes := by
  induction count with
  | zero => rfl
  | succ count ih =>
    rw [List.ofFn_succ, List.ofFn_succ, ← ih]
    rfl

/-- Branches that are all over are gathered. -/
theorem Round.Leaves.gather (h : round.Leaves joining branches standings) (hd : ∀ i, (branches i).isDone = true)
    (next : Gathered → Process α) (w : Shared) : ∃ act,
    Move limit b (.fork joining count standings round.winner next) w act
      (.at (next ⟨outcomesOf (List.ofFn branches), round.winner⟩)) w := by
  have hover : ∀ i, ∃ o, branches i = .done o ∧ standings i = .finished o := fun i => by
    have hi := h.stands i
    have hdi := hd i
    generalize branches i = a, standings i = s at hi hdi
    cases hi with
    | done o => exact ⟨o, rfl, rfl⟩
    | _ => cases hdi
  choose outcomes ho hs using hover
  rw [show branches = fun i => .done (outcomes i) from funext ho, outcomesOf_ofFn]
  exact ⟨_, .gather outcomes hs⟩

/-- Branches that are called off are unwound along a course, until all of them are over. -/
theorem Round.Leaves.unwound (hr : round.Leaves joining branches standings) (stopped : Bool) {order : List Nat}
    (next : Gathered → Process α)
    (hb : ∀ i b (st : Stage σ), (b || st.cancelled) = true → Ends limit b (standings i) st ((branches i).unwind c limit st))
    (ho : order.Perm (List.range count)) (hc : (b || st.cancelled || round.winner.isSome) = true) :
    ∃ r, moveInOrder stopped joining ((Activity.unwinders c limit (List.ofFn branches)).map toEnd) order
        (List.ofFn branches) round st = r ∧
      ∃ branches' standings' acts, r.1 = List.ofFn branches' ∧ r.2.1.Leaves joining branches' standings' ∧
        Course limit b (.fork joining count standings round.winner next) st.shared acts
          (.fork joining count standings' r.2.1.winner next) r.2.2.shared ∧ ∀ i, (branches' i).isDone = true := by
  have hmovers : ∀ i ∈ order, ∃ (h : i < count) (move : _),
      ((Activity.unwinders c limit (List.ofFn branches)).map toEnd)[i]? = some move ∧
        Moves limit true (standings ⟨i, h⟩) move := fun i hi => by
    have hlt : i < count := List.mem_range.mp (ho.mem_iff.mp hi)
    refine ⟨hlt, toEnd ((branches ⟨i, hlt⟩).unwind c limit), by simp [unwinders_eq, hlt], fun b _ st _ hc => ?_⟩
    obtain ⟨acts, h⟩ := hb ⟨i, hlt⟩ b st (hc rfl)
    exact ⟨⟨acts, _, h, .done _⟩, fun _ => rfl⟩
  obtain ⟨r, hr, branches', standings', acts, hl, hr', hcourse, -, hd⟩ := moveInOrder_follows next (.inl rfl) hr
    (ho.nodup_iff.mpr List.nodup_range) (.inl rfl) hmovers fun _ => by rw [Bool.or_right_comm, hc]
  exact ⟨r, hr, branches', standings', acts, hl, hr', hcourse,
    fun i => hd rfl i (ho.mem_iff.mpr (List.mem_range.mpr i.isLt))⟩

end Unwinding

/-- An activity that is called off is unwound along a course. -/
theorem Activity.Stands.ends {a : Activity α} {s : Standing α} (h : a.Stands s) {b : Bool} {st : Stage σ}
    (hc : (b || st.cancelled) = true) : Ends limit b s st (a.unwind c limit st) := by
  induction h generalizing b st with
  | done a => exact ⟨[], .stay⟩
  | @calling _ _ _ _ _ k l next => exact .after (.single (.interrupt k l next hc)) ((next .cancelled).ends hc)
  | @pausing _ _ _ d next => exact .after (.single (.cut d next hc)) ((next true).ends hc)
  | @group _ since joining last count branches standings next hstands hover hnodup hplaces ih =>
    have hleaves : Round.Leaves { now := st.now } joining branches standings :=
      ⟨hstands, ⟨fun _ => rfl, hover⟩, List.nodup_nil, fun i hi => by cases hi⟩
    have hqueue := last.queue_nodup joining hnodup hplaces (List.ofFn branches) st.now
    have horder := unwindingOrder_perm false joining st.waits last.seats (List.ofFn branches) hqueue.1
      (by simpa using hqueue.2)
    rw [List.length_ofFn] at horder
    obtain ⟨r, hr, branches', standings', acts, hl, hr', hcourse, hd⟩ :=
      hleaves.unwound true next (fun i b st hc => ih i hc) horder (by rw [hc]; rfl)
    obtain ⟨act, hgather⟩ := hr'.gather hd next r.2.2.shared
    have hall := hcourse.trans (.single hgather)
    have hunwind : (Activity.group since joining last (List.ofFn branches) next).unwind c limit st =
        (next ⟨outcomesOf (List.ofFn branches'), r.2.1.winner⟩).unwind c limit r.2.2 := by
      rw [← hl, ← hr]
      rfl
    rw [hunwind]
    exact .after hall (Process.ends _ (hall.called_off hc))

/-! ## Moving on -/

section Closing

variable {joining : Joining} {count : Nat} {branches : Fin count → Activity Outcome}
  {standings : Fin count → Standing Outcome} {round : Round} {st : Stage σ}

/-- Behind a round, either nobody has won or all branches are over. -/
theorem Round.Leaves.settled (hr : round.Leaves joining branches standings) (c : Collaborators σ) (limit : Nat)
    (b : Bool) (st : Stage σ) (next : Gathered → Process α) :
    ∃ r, round.settle c limit b joining (List.ofFn branches) st = r ∧
      ∃ branches' standings' acts, r.1 = List.ofFn branches' ∧ r.2.1.Leaves joining branches' standings' ∧
        Course limit b (.fork joining count standings round.winner next) st.shared acts
          (.fork joining count standings' r.2.1.winner next) r.2.2.shared ∧
        (r.2.1.winner = none ∨ ∀ i, (branches' i).isDone = true) := by
  unfold Round.settle
  rw [List.length_ofFn]
  split
  next hsettle =>
    obtain ⟨-, hc⟩ := (Bool.and_eq_true_iff ..).mp hsettle
    have horder := unwindingOrder_perm round.callsOff joining st.waits round.seats (List.ofFn branches) hr.nodup
      (by simpa using hr.places)
    rw [List.length_ofFn] at horder
    obtain ⟨r, hmoved, branches', standings', acts, hl, hr', hcourse, hd⟩ :=
      hr.unwound b next (fun i b st hc => (hr.stands i).ends hc) horder hc
    exact ⟨r, hmoved, branches', standings', acts, hl, hr', hcourse, .inr hd⟩
  next hsettle =>
    refine ⟨_, rfl, branches, standings, [], rfl, hr, .stay, .inl ?_⟩
    cases joining with
    | all => exact hr.elected.1 rfl
    | first =>
      cases hw : round.winner with
      | none => rfl
      | some i => simp [takesTurns, hw] at hsettle

/-- A split goes on behind a round of its branches along a course. -/
theorem Round.Leaves.closed (hr : round.Leaves joining branches standings) (since : Nat) {next : Gathered → Process α}
    {goOn : Gathered → Stage σ → Activity α × Stage σ} (hn : ∀ g st, Reaches limit b (.at (next g)) st (goOn g st)) :
    Reaches limit b (.fork joining count standings round.winner next) st
      (round.close c limit b since joining (List.ofFn branches) next goOn st) := by
  obtain ⟨r, hsettle, branches', standings', acts, hl, hr', hcourse, hd⟩ := hr.settled c limit b st next
  have hclose : round.close c limit b since joining (List.ofFn branches) next goOn st =
      if r.1.all Activity.isDone then goOn ⟨outcomesOf r.1, r.2.1.winner⟩ r.2.2
      else (.group since joining r.2.1 r.1 next, r.2.2) := by
    rw [← hsettle]
    rfl
  rw [hclose, hl]
  split
  next hall =>
    have hover : ∀ i, (branches' i).isDone = true := fun i =>
      List.all_eq_true.mp hall _ (List.mem_ofFn.mpr ⟨i, rfl⟩)
    obtain ⟨act, hgather⟩ := hr'.gather hover next r.2.2.shared
    exact .after (hcourse.trans (.single hgather)) (hn _ _)
  next hall =>
    have hnobody : r.2.1.winner = none := hd.resolve_right fun h =>
      hall (List.all_eq_true.mpr fun a ha => by
        obtain ⟨i, rfl⟩ := List.mem_ofFn.mp ha
        exact h i)
    rw [hnobody] at hcourse
    exact ⟨acts, _, hcourse, .group hr'.stands (fun i o ho => hnobody ▸ hr'.elected.2 i o ho) hr'.nodup hr'.places⟩

end Closing

theorem Stage.shared_withdraw (st : Stage σ) (cancels : Bool) :
    ({ st with withdrawn := st.withdrawn || cancels } : Stage σ).shared =
      { st.shared with cancelled := st.shared.cancelled || cancels } := by
  simp [shared, Stage.cancelled, Bool.or_right_comm]

/-- Whoever started the run may cancel it meanwhile. -/
theorem Course.withdraw (s : Standing α) (st : Stage σ) (cancels : Bool) :
    Course limit b s st.shared [.elsewhere 0 cancels] s
      ({ st with withdrawn := st.withdrawn || cancels } : Stage σ).shared := by
  rw [st.shared_withdraw]
  exact .elsewhere 0 cancels .stay

/-- A call under way is answered, runs into its limit or goes on. Its response may cancel the run
    without ever answering. -/
theorem Response.take_reaches (r : Response) (due expiry : Option Nat) (st : Stage σ) (k : Call) {l : Option Duration}
    {next : Answer → Process α} (since : Nat) (hl : expiry.isSome = true → l.isSome = true)
    (hc : (b || st.cancelled) = false)
    (hn : ∀ a st, Reaches limit b (.at (next a)) st ((next a).perform c limit b st)) :
    Reaches limit b (.calling k l next) st
      (match r.take due expiry st with
        | (some answer, _, st) => (next answer).perform c limit b st
        | (none, due, st) => (.calling since due expiry r next, st)) := by
  have expires (he : isOver st.now expiry = true) :
      Course limit b (.calling k l next) st.shared [.answered k l .timedOut false] (.at (next .timedOut)) st.shared := by
    have hsome : expiry.isSome = true := by
      cases expiry with
      | none => cases he
      | some t => rfl
    obtain ⟨d, rfl⟩ := Option.isSome_iff_exists.mp (hl hsome)
    exact .single (.expire k d next hc)
  cases hd : isOver st.now due with
  | true =>
    cases ho : r.outcome with
    | some outcome =>
      have hanswer : Course limit b (.calling k l next) st.shared [.answered k l (.given outcome) r.cancels]
          (.at (next (.given outcome))) ({ st with withdrawn := st.withdrawn || r.cancels } : Stage σ).shared := by
        rw [st.shared_withdraw]
        exact .single (.answer k l next outcome r.cancels hc)
      simp only [Response.take, hd, ho, if_true]
      exact .after hanswer (hn _ _)
    | none =>
      cases he : isOver st.now expiry with
      | true =>
        simp only [Response.take, hd, ho, he, if_true]
        exact .after ((expires he).trans (.withdraw _ st r.cancels)) (hn _ _)
      | false =>
        simp only [Response.take, hd, ho, he, if_true, Bool.false_eq_true, if_false]
        exact .after (.withdraw _ st r.cancels) ⟨[], _, .stay, .calling hl⟩
  | false =>
    cases he : isOver st.now expiry with
    | true =>
      simp only [Response.take, hd, he, if_true, Bool.false_eq_true, if_false]
      exact .after (expires he) (hn _ _)
    | false =>
      simp only [Response.take, hd, he, Bool.false_eq_true, if_false]
      exact ⟨[], _, .stay, .calling hl⟩

/-- A process moves along a course until it has to wait. -/
theorem Process.reaches (p : Process α) (b : Bool) (st : Stage σ) :
    Reaches limit b (.at p) st (p.perform c limit b st) := by
  induction p generalizing b st with
  | done a => exact ⟨_, _, .single (.finish a), .done a⟩
  | ask q next ih =>
    cases q with
    | visit =>
      have hm : Course limit b (.at (.ask .visit next)) st.shared _ _ (st.visit limit).2.shared := .single (.visit next)
      exact .after hm (ih _ b _)
    | stopped => exact .after (.single (.stopped next)) (ih _ b st)
    | notify n =>
      have hm : Course limit b (.at (.ask (.notify n) next)) st.shared
          [.told n (c.told n st.now st.memory).1] (.at (next ())) (st.tell c n).shared := by
        rw [st.shared_tell]
        exact .single (.notify n next _)
      exact .after hm (ih _ b _)
    | call k l =>
      cases hc : b || st.cancelled with
      | true =>
        have hperform : (Process.ask (.call k l) next).perform c limit b st = (next .cancelled).perform c limit b st := by
          simp [perform, hc]
        rw [hperform]
        exact .after (.single (.skip k l next hc)) (ih _ b st)
      | false =>
        have hcall : Course limit b (.at (.ask (.call k l) next)) st.shared _ (.calling k l next) st.shared :=
          .single (.call k l next hc)
        simp only [perform, hc, Bool.false_eq_true, if_false]
        exact .after hcall (Response.take_reaches _ _ (l.map fun d => st.now + d.ticks)
          { st with memory := (c.respond k st.now st.memory).2, waits := st.waits + 1 } k st.waits (by simp) hc
          fun a st => ih a b st)
    | pause d =>
      cases hc : b || st.cancelled with
      | true =>
        have hperform : (Process.ask (.pause d) next).perform c limit b st = (next true).perform c limit b st := by
          simp [perform, hc]
        rw [hperform]
        exact .after (.single (.cut d next hc)) (ih _ b st)
      | false =>
        by_cases hd : d.ticks = 0
        · have hperform : (Process.ask (.pause d) next).perform c limit b st = (next false).perform c limit b st := by
            simp [perform, hc, hd]
          rw [hperform]
          exact .after (.single (.pause d next)) (ih _ b st)
        · have hperform : (Process.ask (.pause d) next).perform c limit b st =
              (.pausing st.waits (st.now + d.ticks) next, { st with waits := st.waits + 1 }) := by
            simp [perform, hc, hd]
          rw [hperform]
          exact ⟨[], _, .stay, .pausing⟩
  | split joining count branch next ihb ih =>
    let begin (g : List (Activity Outcome) × Round × Stage σ) (i : Fin count) :
        List (Activity Outcome) × Round × Stage σ :=
      let begun := (branch i).perform c limit (b || g.2.1.winner.isSome) g.2.2
      (g.1 ++ [begun.1], g.2.1.after joining (b || begun.2.cancelled) i none begun.1, begun.2)
    obtain ⟨g, hg, branches, standings, acts, hl, hstands, helected, hbegun⟩ :=
      branches_begin joining branch next Activity.Stands Prod.fst (fun g => g.2.1.winner) (fun g => g.2.2) begin
        ([], { now := st.now }, st) rfl rfl (fun g i _ => by
          obtain ⟨acts, t, hc, ht⟩ := ihb i (b || g.2.1.winner.isSome) g.2.2
          exact ⟨_, acts, t, rfl, Round.winner_after ht _ _ _, ht, hc⟩)
    have hagain : g.2.1.again.Nodup ∧ ∀ j ∈ g.2.1.again, j < count := by
      rw [← hg]
      exact foldl_finRange (fun k (g : List (Activity Outcome) × Round × Stage σ) =>
        g.2.1.again.Nodup ∧ ∀ j ∈ g.2.1.again, j < k) ⟨List.nodup_nil, fun _ h => by cases h⟩
        fun i g hi => Round.again_lt_after hi _ _ _
    have hleaves : g.2.1.Leaves joining branches standings := ⟨hstands, helected, hagain.1, hagain.2⟩
    have hperform : (split joining count branch next).perform c limit b st =
        g.2.1.close c limit b st.waits joining g.1 next (fun g st => (next g).perform c limit b st) g.2.2 := by
      rw [← hg]
      rfl
    rw [hperform, hl]
    exact .after ((Course.single (.open joining count branch next)).trans hbegun)
      (hleaves.closed st.waits fun g st => ih g b st)

/-- A process that need not wait comes to its end along a course. -/
theorem Process.course_of_perform {p : Process α} {a : α} {st : Stage σ}
    (h : (p.perform c limit false st).1.outcome? = some a) :
    ∃ acts w', Course limit false (.at p) st.shared acts (.finished a) w' := by
  obtain ⟨acts, t, hc, ht⟩ := p.reaches false st
  generalize p.perform c limit false st = r at h hc ht
  obtain ⟨activity, st'⟩ := r
  cases ht with
  | done a' =>
    obtain rfl : a' = a := Option.some.inj h
    exact ⟨acts, _, hc⟩
  | calling | pausing | group => cases h

theorem movers_eq (as : List (Activity Outcome)) :
    Activity.movers c limit as = as.map fun a stopped st => a.wake c limit stopped st := by
  induction as with
  | nil => rfl
  | cons a as ih => rw [List.map_cons, ← ih]; rfl

/-- An activity wakes along a course. -/
theorem Activity.Stands.reaches {a : Activity α} {s : Standing α} (h : a.Stands s) (b : Bool) (st : Stage σ) :
    Reaches limit b s st (a.wake c limit b st) := by
  induction h generalizing b st with
  | done a => exact ⟨[], _, .stay, .done a⟩
  | @calling _ since due expiry response k l next hl =>
    cases hc : b || st.cancelled with
    | true =>
      have hwake : (Activity.calling since due expiry response next).wake c limit b st =
          (next .cancelled).perform c limit b st := by
        simp [Activity.wake, hc]
      rw [hwake]
      exact .after (.single (.interrupt k l next hc)) ((next .cancelled).reaches b st)
    | false =>
      simp only [Activity.wake, hc, Bool.false_eq_true, if_false]
      exact Response.take_reaches response due expiry st k since hl hc fun a st => (next a).reaches b st
  | @pausing _ since due d next =>
    cases hc : b || st.cancelled with
    | true =>
      have hwake : (Activity.pausing since due next).wake c limit b st = (next true).perform c limit b st := by
        simp [Activity.wake, hc]
      rw [hwake]
      exact .after (.single (.cut d next hc)) ((next true).reaches b st)
    | false =>
      by_cases hd : due ≤ st.now
      · have hwake : (Activity.pausing since due next).wake c limit b st = (next false).perform c limit b st := by
          simp [Activity.wake, hc, hd]
        rw [hwake]
        exact .after (.single (.pause d next)) ((next false).reaches b st)
      · have hwake : (Activity.pausing since due next).wake c limit b st = (.pausing since due next, st) := by
          simp [Activity.wake, hc, hd]
        rw [hwake]
        exact ⟨[], _, .stay, .pausing⟩
  | @group _ since joining last count branches standings next hstands hover hnodup hplaces ih =>
    have hleaves : Round.Leaves { now := st.now, seats := last.seats } joining branches standings :=
      ⟨hstands, ⟨fun _ => rfl, hover⟩, List.nodup_nil, fun i hi => by cases hi⟩
    have horder := movingOrder_nodup joining st.now (List.ofFn branches)
    have hmovers : ∀ i ∈ movingOrder joining st.now (List.ofFn branches), ∃ (h : i < count) (move : _),
        (Activity.movers c limit (List.ofFn branches))[i]? = some move ∧ Moves limit false (standings ⟨i, h⟩) move := by
      intro i hi
      have hlt : i < count := by simpa using horder.2 i hi
      refine ⟨hlt, fun stopped st => (branches ⟨i, hlt⟩).wake c limit stopped st, by simp [movers_eq, hlt], ?_⟩
      intro b stopped st hb _
      obtain rfl := hb.resolve_left Bool.false_ne_true
      exact ⟨ih ⟨i, hlt⟩ stopped st, fun h => by cases h⟩
    obtain ⟨r, hr, branches', standings', acts, hl, hr', hcourse, -⟩ := moveInOrder_follows next (.inr rfl)
      hleaves horder.1 (.inr fun i _ h => by cases h) hmovers fun h => by cases h
    have hwake : (Activity.group since joining last (List.ofFn branches) next).wake c limit b st =
        r.2.1.close c limit b since joining r.1 next (fun g st => (next g).perform c limit b st) r.2.2 := by
      rw [← hr]
      rfl
    rw [hwake, hl]
    exact .after hcourse (hr'.closed since fun g st => (next g).reaches b st)

/-! ## Plays -/

theorem Deadlines.shared_strike (d : Deadlines) (st : Stage σ) : (d.strike st).shared =
    ⟨st.shared.visits + 0, st.shared.cancelled || (isOver st.now d.withdrawal || isOver st.now d.expiry)⟩ := by
  simp only [Stage.shared, Stage.cancelled, strike, Nat.add_zero, Shared.mk.injEq, true_and]
  ac_rfl

/-- What is not over yet is unwound once it is cancelled, and wakes at the next moment otherwise. -/
theorem play_jump {d : Deadlines} {a : Activity α} (ha : a.isDone = false) (jumps : Nat) (st : Stage σ) :
    play c limit d (jumps + 1) a st =
      if (d.strike st).cancelled then some (a.unwind c limit (d.strike st))
      else (earliest (a.timers ++ d.withdrawal.toList ++ d.expiry.toList)).bind fun now =>
        play c limit d jumps (a.wake c limit false { d.strike st with now }).1
          (a.wake c limit false { d.strike st with now }).2 := by
  cases a with
  | done => cases ha
  | _ =>
    simp only [play]
    split
    · rfl
    · cases earliest _ <;> rfl

/-- What an activity is played to is the end of a course. -/
theorem Activity.Stands.play_course {d : Deadlines} {jumps : Nat} {a : Activity α} {s : Standing α} {st st' : Stage σ}
    {x : α} (h : a.Stands s) (hp : play c limit d jumps a st = some (x, st')) :
    ∃ acts, Course limit false s st.shared acts (.finished x) st'.shared := by
  induction jumps generalizing a s st with
  | zero =>
    cases h with
    | done => cases hp; exact ⟨[], .stay⟩
    | _ => cases hp
  | succ jumps ih =>
    have hstrike : Course limit false s st.shared [.elsewhere 0 (isOver st.now d.withdrawal || isOver st.now d.expiry)]
        s (d.strike st).shared := by
      rw [d.shared_strike]
      exact .elsewhere _ _ .stay
    cases hd : a.isDone with
    | true =>
      cases h with
      | done => cases hp; exact ⟨[], .stay⟩
      | _ => cases hd
    | false =>
      rw [play_jump hd] at hp
      split at hp
      next hc =>
        obtain ⟨acts, hend⟩ : Ends limit false s (d.strike st) (a.unwind c limit (d.strike st)) := h.ends hc
        rw [Option.some.inj hp] at hend
        exact ⟨_, hstrike.trans hend⟩
      next hc =>
        obtain ⟨now, -, hp⟩ := Option.bind_eq_some_iff.mp hp
        have hreach : Reaches limit false s (d.strike st) (a.wake c limit false { d.strike st with now }) :=
          h.reaches false { d.strike st with now }
        obtain ⟨acts, t, hwake, ht⟩ := hreach
        obtain ⟨acts', hend⟩ := ih ht hp
        exact ⟨_, hstrike.trans (hwake.trans hend)⟩

/-- What a process is played to is the end of one of its courses, however the collaborators
    answer and whenever the run is cancelled. -/
theorem Process.play_course {d : Deadlines} {waits : Nat} {p : Process α} {memory : σ} {x : α} {st : Stage σ}
    (hp : p.play c limit d waits memory = some (x, st)) :
    ∃ acts, Course limit false (.at p) {} acts (.finished x) st.shared := by
  have hbegin : Course limit false (.at p) {} [.elsewhere 0 (d.withdrawal = some 0)] (.at p)
      ({ memory, withdrawn := d.withdrawal = some 0 } : Stage σ).shared := by
    have hshared : ({ memory, withdrawn := d.withdrawal = some 0 } : Stage σ).shared =
        ⟨({} : Shared).visits + 0, ({} : Shared).cancelled || decide (d.withdrawal = some 0)⟩ := by
      simp [Stage.shared, Stage.cancelled]
    rw [hshared]
    exact .elsewhere _ _ .stay
  have hreach : Reaches limit false (.at p) _ (p.perform c limit false { memory, withdrawn := d.withdrawal = some 0 }) :=
    p.reaches false _
  obtain ⟨acts, s, hc, hs⟩ := hreach
  obtain ⟨acts', hc'⟩ := hs.play_course hp
  exact ⟨_, hbegin.trans (hc.trans hc')⟩

/-- A rehearsal shows the result of a course. -/
theorem rehearse_course {s : Setting} {context : Context} {script : Rehearsal.Script} {withdrawal : Option Nat}
    {r : Rehearsal.Report} (h : Rehearsal.rehearse s context script withdrawal = .ok r) :
    ∃ p acts o w' elapsedMs, run s context = .ok p ∧ Course s.config.maxVisits false (.at p) {} acts (.finished o) w' ∧
      r.result = o.result s.graph elapsedMs := by
  unfold Rehearsal.rehearse at h
  split at h
  · cases h
  next p hp =>
    dsimp only at h
    split at h
    · cases h
    next o st hplay =>
      cases h
      obtain ⟨acts, hc⟩ := p.play_course hplay
      exact ⟨p, acts, o, _, _, hp, hc, rfl⟩

/-- Two branches race, the skill of the first of which never answers. -/
def rivals : Setting where
  graph :=
    { id := "rivals"
      version := "1.0"
      name := ""
      description := ""
      metadata := none
      strategy := .firstSuccess
      maxRetries := 0
      retryDelay := none
      nodes := [{ id := "start", kind := .start }, { id := "fork", kind := .split }, .skill "a" "slow",
        { Node.skill "b" "quick" with outputs := ["x"] }, { id := "meet", kind := .join }, { id := "end", kind := .finish }]
      edges := [{ source := "start", target := "fork" }, { source := "fork", target := "a", kind := .parallel },
        { source := "fork", target := "b", kind := .parallel }, { source := "a", target := "meet" },
        { source := "b", target := "meet" }, { source := "meet", target := "end" }] }

/-- Every skill answers but the slow one. -/
def slowOne : Rehearsal.Script :=
  { Rehearsal.Script.simulated with skills := [("slow", [{ hangs := true, content := .echo }])] }

example : (Rehearsal.rehearse rivals {} slowOne none).toOption.map (·.result.path) =
    some ["start", "fork", "b", "meet", "end"] := by
  decide +kernel

end Capability.Execution
