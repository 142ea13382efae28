/-
  Capability.Proofs.Reports — events, presenter and result of a run tell the same.

  Every step that is recorded was told of when it began and when it was over, and every condition
  that failed was reported. Where nothing splits this is so in order. The branches of a split are
  recorded in the order of their declaration, while what they tell is seen in the order in which
  they move.

  Whoever presents a run is told that a step is over just before the event that reports it. A clock
  lets nothing happen between the two, so completions are presented in the order of their events.

  (1) `Chronicle.steps_read`: what is read off the deeds of a chronicle is what its steps say.
  (2) `Process.play_level`: on a clock, what was presented is what was reported.
  (3) `events_presenter_and_result_tell_the_same`: so all of it fits together.
-/

import Capability.Proofs.Chronicle

namespace Capability

/-- Nothing splits in the graph. -/
def Graph.Unsplit (g : Graph) : Prop := ∀ n ∈ g.nodes, n.kind ≠ .split

instance (g : Graph) : Decidable g.Unsplit := inferInstanceAs (Decidable (∀ n ∈ g.nodes, n.kind ≠ .split))

namespace Execution

/-! ## Readings -/

def Deed.event? (d : Deed) : Option Event := d.notice?.bind Notice.event?

def Deed.completed? (d : Deed) : Option (String × StepStatus) := d.notice?.bind Notice.completed?

/-- What a subscriber receives that loses nothing. -/
def eventsIn (acts : List Act) : List Event := (deedsIn acts).filterMap Deed.event?

/-- The completions that the presenter is told of. -/
def completionsIn (acts : List Act) : List (String × StepStatus) := (deedsIn acts).filterMap Deed.completed?

/-- Two lists have the same items, in the same order if nothing splits. -/
def Agree {γ : Type} (g : Graph) (l l' : List γ) : Prop := l.Perm l' ∧ (g.Unsplit → l = l')

/-- A deed that belongs neither to the beginning nor to the end of a step or a run. -/
inductive Deed.IsAside : Deed → Prop
  | answered (k : Call) (l : Option Duration) (a : Answer) : IsAside (.answered k l a)
  | failed (f : ConditionFailure) : IsAside (.told (.event (.conditionFailed f)))
  | retrying (node : String) (attempt : Nat) (delay : Duration) : IsAside (.told (.event (.nodeRetrying node attempt delay)))
  | asked (node prompt : String) : IsAside (.told (.event (.questionAsked node prompt)))
  | fallback (node target : String) : IsAside (.told (.event (.fallbackUsed node target)))

section Chronicles

variable {γ : Type} {g : Graph} {ds : List Deed} {es : List Step} {fs : List ConditionFailure}

theorem Agree.refl (l : List γ) : Agree g l l := ⟨.refl l, fun _ => rfl⟩

theorem Agree.append {l l' m m' : List γ} (h : Agree g l l') (h' : Agree g m m') : Agree g (l ++ m) (l' ++ m') :=
  ⟨h.1.append h'.1, fun hg => by rw [h.2 hg, h'.2 hg]⟩

/-- Where something splits there is no order to keep. -/
theorem Agree.of_split {n : Node} (hn : g.node? n.id = some n) (hk : n.kind = .split) {l l' : List γ} (h : l.Perm l') :
    Agree g l l' :=
  ⟨h, fun hg => absurd hk (hg n (Graph.mem_of_node? hn))⟩

theorem Aside.isAside {open? : Option Node} (h : Aside g open? ds fs) : ∀ d ∈ ds, d.IsAside := by
  induction h with
  | nil => exact List.forall_mem_nil _
  | append _ _ ih ih' => exact fun d hd => (List.mem_append.mp hd).elim (ih d) (ih' d)
  | _ =>
    intro d hd
    obtain rfl := List.mem_singleton.mp hd
    constructor

/-- What cannot be read off asides is not read off any of them. -/
theorem Aside.unread {open? : Option Node} (h : Aside g open? ds fs) {read : Deed → Option γ}
    (hr : ∀ d, d.IsAside → read d = none) : ds.filterMap read = [] :=
  List.filterMap_eq_nil_iff.mpr fun d hd => hr d (h.isAside d hd)

/-- What is read off the beginning and the end of each step, and nowhere else, is what the steps of
    a chronicle say. -/
theorem Chronicle.steps_read (h : Chronicle g ds es fs) {read : Deed → Option γ} {tell : Step → List γ}
    (hr : ∀ d, d.IsAside → read d = none)
    (hs : ∀ n e, e.node = n.id → (Walk.opening n ++ Walk.closing n e.status).filterMap read = tell e) :
    Agree g (ds.filterMap read) (es.flatMap tell) := by
  induction h with
  | aside ha =>
    rw [ha.unread hr]
    exact .refl []
  | append _ _ ih ih' =>
    rw [List.filterMap_append, List.flatMap_append]
    exact ih.append ih'
  | step hn he hstatus ha _ =>
    rw [List.filterMap_append, List.filterMap_append, ha.unread hr, List.nil_append, ← List.filterMap_append, ← hstatus,
      hs _ _ he, List.flatMap_singleton]
    exact .refl _
  | split hn hk _ hd ih =>
    refine .of_split hn hk ((hd.perm.filterMap read).trans ?_)
    rw [← List.flatMap_def, List.filterMap_flatMap, List.flatMap_assoc]
    exact .flatMap_left _ fun b hb => (ih b hb).1

/-- The conditions that failed are those reported. -/
theorem Chronicle.failures_read (h : Chronicle g ds es fs) :
    Agree g (ds.filterMap fun d => d.event?.bind Event.conditionFailed?) fs := by
  have reported {open? : Option Node} {ds : List Deed} {fs : List ConditionFailure} (ha : Aside g open? ds fs) :
      ds.filterMap (fun d => d.event?.bind Event.conditionFailed?) = fs := by
    induction ha with
    | append _ _ ih ih' => rw [List.filterMap_append, ih, ih']
    | _ => rfl
  induction h with
  | aside ha =>
    rw [reported ha]
    exact .refl _
  | append _ _ ih ih' =>
    rw [List.filterMap_append]
    exact ih.append ih'
  | @step n ds e status fs hn he hstatus ha _ =>
    have before : (Walk.opening n).filterMap (fun d => d.event?.bind Event.conditionFailed?) = [] := rfl
    have after : (Walk.closing n status).filterMap (fun d => d.event?.bind Event.conditionFailed?) = [] := rfl
    rw [List.filterMap_append, List.filterMap_append, before, after, reported ha, List.nil_append, List.append_nil]
    exact .refl _
  | split hn hk _ hd ih =>
    refine .of_split hn hk ((hd.perm.filterMap _).trans ?_)
    rw [← List.flatMap_def, List.filterMap_flatMap]
    exact .flatMap_left _ fun b hb => (ih b hb).1

end Chronicles

/-! ## Presentations -/

/-- Everything that was presented as completed has been reported, but for what is due next. -/
def Level (due : Option (String × StepStatus)) (ns : List Notice) : Prop :=
  ns.filterMap Notice.completed? = ns.filterMap Notice.reported? ++ due.toList

/-- Collaborators whose memory has a record of all notices. -/
structure Records {σ : Type} (c : Collaborators σ) (record : σ → List Notice) : Prop where
  told : ∀ n now memory, record (c.told n now memory).2 = record memory ++ [n]
  respond : ∀ k now memory, record (c.respond k now memory).2 = record memory

/-- Between its waits, an activity keeps its reports level; `Q` holds of what it ends with. -/
inductive Activity.Paced : {α : Type} → Activity α → (α → Prop) → Prop
  | done {α : Type} {Q : α → Prop} {a : α} : Q a → Paced (.done a) Q
  | calling {α : Type} {Q : α → Prop} {since : Nat} {due expiry : Option Nat} {r : Response} {next : Answer → Process α} :
      (∀ a, (next a).Recounts none fun _ => Q) → Paced (.calling since due expiry r next) Q
  | pausing {α : Type} {Q : α → Prop} {since due : Nat} {next : Bool → Process α} :
      (∀ b, (next b).Recounts none fun _ => Q) → Paced (.pausing since due next) Q
  | group {α : Type} {Q : α → Prop} {since : Nat} {joining : Joining} {last : Round} {branches : List (Activity Outcome)}
      {next : Gathered → Process α} (P : Outcome → Prop) : (∀ b ∈ branches, b.Paced P) →
      (∀ outcomes winner, (∀ o ∈ outcomes, P o) → (next ⟨outcomes, winner⟩).Recounts none fun _ => Q) →
      Paced (.group since joining last branches next) Q

theorem Level.tell {due : Option (String × StepStatus)} {ns : List Notice} (h : Level due ns) {n : Notice}
    (hn : n.reported? = due) : Level n.completed? (ns ++ [n]) := by
  unfold Level at h ⊢
  rw [List.filterMap_append, List.filterMap_append, h, ← hn]
  cases hr : n.reported? <;> cases hc : n.completed? <;> simp [hr, hc]

section Plays

variable {σ : Type} {c : Collaborators σ} {record : σ → List Notice} {limit : Nat} {α : Type}
  {due : Option (String × StepStatus)}

/-- The reports are level on a stage. -/
def Stage.Level (record : σ → List Notice) (st : Stage σ) : Prop := Execution.Level none (record st.memory)

/-- An activity is paced that ends in accordance with `Q`, and the reports are level. -/
def Even (record : σ → List Notice) (Q : α → Prop) (r : Activity α × Stage σ) : Prop := r.1.Paced Q ∧ r.2.Level record

/-- What a split goes on with depends on what its branches can end with. -/
theorem Process.Recounts.branches {Q : α → Prop} {joining : Joining} {count : Nat} {branch : Fin count → Process Outcome}
    {next : Gathered → Process α} (h : (Process.split joining count branch next).Recounts due fun _ => Q) :
    due = none ∧ ∃ P : Outcome → Prop, (∀ i, (branch i).Recounts none fun _ => P) ∧
      ∀ outcomes winner, (∀ o ∈ outcomes, P o) → (next ⟨outcomes, winner⟩).Recounts none fun _ => Q := by
  obtain ⟨hd, P, hP, hn⟩ := h
  refine ⟨hd, fun o => ∃ ds, P ds o, fun i => (hP i).mono fun ds _ ho => ⟨ds, ho⟩, fun outcomes winner ho => ?_⟩
  have shown : ∃ shown : List (List Deed × Outcome), shown.map Prod.snd = outcomes ∧ ∀ o ∈ shown, P o.1 o.2 := by
    induction outcomes with
    | nil => exact ⟨[], rfl, List.forall_mem_nil _⟩
    | cons o os ih =>
      obtain ⟨ds, hds⟩ := ho o (.head _)
      obtain ⟨shown, rfl, hshown⟩ := ih fun o hm => ho o (.tail _ hm)
      exact ⟨(ds, o) :: shown, rfl, List.forall_mem_cons.mpr ⟨hds, hshown⟩⟩
  obtain ⟨shown, rfl, hshown⟩ := shown
  exact hn shown winner _ hshown (.flatten _)

/-- What is over has ended with something that the activity can end with. -/
theorem Activity.Paced.outcomes {branches : List (Activity Outcome)} {P : Outcome → Prop} (h : ∀ b ∈ branches, b.Paced P) :
    ∀ o ∈ outcomesOf branches, P o := by
  intro o hm
  obtain ⟨b, hb, ho⟩ := List.mem_filterMap.mp hm
  cases h b hb with
  | done hq => exact Option.some.inj ho ▸ hq
  | _ => cases ho

/-- Branches that move one after another stay paced. -/
theorem moveInOrder_even {stopped : Bool} {joining : Joining} {P : Outcome → Prop}
    {movers : List (Bool → Stage σ → Activity Outcome × Stage σ)}
    (hm : ∀ move ∈ movers, ∀ stopped st, st.Level record → Even record P (move stopped st)) (order : List Nat)
    {branches : List (Activity Outcome)} (hb : ∀ b ∈ branches, b.Paced P) (round : Round) {st : Stage σ} (hs : st.Level record) :
    let r := moveInOrder stopped joining movers order branches round st
    (∀ b ∈ r.1, b.Paced P) ∧ r.2.2.Level record := by
  induction order generalizing branches round st with
  | nil => exact ⟨hb, hs⟩
  | cons i order ih =>
    unfold moveInOrder
    split
    · next before move hbefore hmove =>
      obtain ⟨paced, level⟩ := hm move (List.mem_of_getElem? hmove) (stopped || round.winner.isSome) st hs
      have still : ∀ b ∈ branches.set i (move (stopped || round.winner.isSome) st).1, b.Paced P := fun b hmem =>
        (List.mem_or_eq_of_mem_set hmem).elim (hb b) fun e => e ▸ paced
      exact ih still _ level
    · exact ih hb round hs

/-- A process that is called off comes to its end with its reports level. -/
theorem Process.unwind_even (hc : Records c record) (p : Process α) {Q : α → Prop} {st : Stage σ}
    (hp : p.Recounts due fun _ => Q) (hs : Level due (record st.memory)) :
    Q (p.unwind c limit st).1 ∧ (p.unwind c limit st).2.Level record := by
  induction p generalizing due st with
  | done a =>
    obtain ⟨rfl, ha⟩ := hp
    exact ⟨ha, hs⟩
  | ask q next ih =>
    obtain ⟨hr, hn⟩ := hp
    cases q with
    | notify n =>
      refine ih () (hn ()) ?_
      show Level n.completed? (record (c.told n st.now st.memory).2)
      rw [hc.told]
      exact hs.tell hr
    | visit | stopped | call k l | pause d =>
      obtain rfl := hr
      exact ih _ (hn _) hs
  | split joining count branch next ihb ih =>
    obtain ⟨rfl, P, hP, hn⟩ := Process.Recounts.branches hp
    let f (acc : List Outcome × Option Nat × Stage σ) (i : Fin count) : List Outcome × Option Nat × Stage σ :=
      (acc.1 ++ [((branch i).unwind c limit acc.2.2).1], elect joining acc.2.1 i ((branch i).unwind c limit acc.2.2).1,
        ((branch i).unwind c limit acc.2.2).2)
    obtain ⟨outcomes, level⟩ := foldl_finRange (f := f) (a := ([], none, st))
      (fun _ acc => (∀ o ∈ acc.1, P o) ∧ acc.2.2.Level record) ⟨List.forall_mem_nil _, hs⟩ fun i acc hacc => by
        obtain ⟨ended, level⟩ := ihb i (hP i) hacc.2
        exact ⟨fun o hm => (List.mem_append.mp hm).elim (hacc.1 o) fun hm => List.mem_singleton.mp hm ▸ ended, level⟩
    exact ih _ (hn _ _ outcomes) level

/-- Branches that are unwound stay paced. -/
theorem toEnd_even {P : Outcome → Prop} {branches : List (Activity Outcome)}
    (hb : ∀ b ∈ branches, ∀ st : Stage σ, st.Level record → P (b.unwind c limit st).1 ∧ (b.unwind c limit st).2.Level record) :
    ∀ move ∈ (Activity.unwinders c limit branches).map toEnd, ∀ stopped (st : Stage σ), st.Level record →
      Even record P (move stopped st) := by
  rw [unwinders_eq, List.map_map]
  refine List.forall_mem_map.mpr fun b hmem stopped st hs => ?_
  obtain ⟨ended, level⟩ := hb b hmem st hs
  exact ⟨.done ended, level⟩

/-- So does an activity. -/
theorem Activity.Paced.unwind (hc : Records c record) {a : Activity α} {Q : α → Prop} (h : a.Paced Q) {st : Stage σ}
    (hs : st.Level record) : Q (a.unwind c limit st).1 ∧ (a.unwind c limit st).2.Level record := by
  induction h generalizing st with
  | done ha => exact ⟨ha, hs⟩
  | calling hn => exact Process.unwind_even hc _ (hn _) hs
  | pausing hn => exact Process.unwind_even hc _ (hn _) hs
  | @group _ _ since joining last branches next P hb hn ih =>
    obtain ⟨paced, level⟩ := moveInOrder_even (toEnd_even fun b hmem st hs => ih b hmem hs)
      (unwindingOrder false joining st.waits (last.queue joining branches st.now) last.seats branches) hb { now := st.now } hs
    exact Process.unwind_even hc _ (hn _ _ (Activity.Paced.outcomes paced)) level

/-! ### Moving on -/

/-- A split goes on, or waits for its branches to move again. -/
theorem Round.close_even (hc : Records c record) (round : Round) {P : Outcome → Prop} {branches : List (Activity Outcome)}
    (hb : ∀ b ∈ branches, b.Paced P) {Q : α → Prop} {next : Gathered → Process α}
    (hn : ∀ outcomes winner, (∀ o ∈ outcomes, P o) → (next ⟨outcomes, winner⟩).Recounts none fun _ => Q)
    {goOn : Gathered → Stage σ → Activity α × Stage σ}
    (hg : ∀ g (st : Stage σ), (next g).Recounts none (fun _ => Q) → st.Level record → Even record Q (goOn g st))
    (stopped : Bool) (since : Nat) (joining : Joining) {st : Stage σ} (hs : st.Level record) :
    Even record Q (round.close c limit stopped since joining branches next goOn st) := by
  have settled : (∀ b ∈ (round.settle c limit stopped joining branches st).1, b.Paced P) ∧
      (round.settle c limit stopped joining branches st).2.2.Level record := by
    unfold Round.settle
    split
    · exact moveInOrder_even (toEnd_even fun b hmem _ => (hb b hmem).unwind hc) _ hb round hs
    · exact ⟨hb, hs⟩
  obtain ⟨paced, level⟩ := settled
  unfold Round.close
  dsimp only
  split
  · exact hg _ _ (hn _ _ (Activity.Paced.outcomes paced)) level
  · exact ⟨.group P paced hn, level⟩

/-- A call under way is answered or goes on; neither is told of. -/
theorem Response.take_even (r : Response) (since : Nat) (due expiry : Option Nat) {Q : α → Prop} {next : Answer → Process α}
    (hn : ∀ a, (next a).Recounts none fun _ => Q) {stopped : Bool} {st : Stage σ} (hs : st.Level record)
    (hp : ∀ a (st : Stage σ), st.Level record → Even record Q ((next a).perform c limit stopped st)) :
    Even record Q (match r.take due expiry st with
      | (some answer, _, st) => (next answer).perform c limit stopped st
      | (none, due, st) => (.calling since due expiry r next, st)) := by
  have level : (r.take due expiry st).2.2.Level record := by
    unfold Response.take
    dsimp only
    split
    · split <;> exact hs
    · exact hs
  generalize r.take due expiry st = taken at level
  obtain ⟨answer, due, st⟩ := taken
  cases answer with
  | some a => exact hp a st level
  | none => exact ⟨.calling hn, level⟩

/-- A process that moves until it has to wait keeps its reports level. -/
theorem Process.perform_even (hc : Records c record) (p : Process α) {Q : α → Prop} {stopped : Bool} {st : Stage σ}
    (hp : p.Recounts due fun _ => Q) (hs : Level due (record st.memory)) : Even record Q (p.perform c limit stopped st) := by
  induction p generalizing due stopped st with
  | done a =>
    obtain ⟨rfl, ha⟩ := hp
    exact ⟨.done ha, hs⟩
  | ask q next ih =>
    obtain ⟨hr, hn⟩ := hp
    cases q with
    | notify n =>
      refine ih () (hn ()) ?_
      show Level n.completed? (record (c.told n st.now st.memory).2)
      rw [hc.told]
      exact hs.tell hr
    | visit =>
      obtain rfl := hr
      exact ih _ (hn _) hs
    | stopped =>
      obtain rfl := hr
      exact ih _ (hn _) hs
    | call k l =>
      obtain rfl := hr
      unfold Process.perform
      split
      · exact ih _ (hn _) hs
      · have asked : Stage.Level record { st with memory := (c.respond k st.now st.memory).2, waits := st.waits + 1 } := by
          show Level none (record (c.respond k st.now st.memory).2)
          rw [hc.respond]
          exact hs
        exact Response.take_even _ _ _ _ hn asked fun a st hs => ih a (hn a) hs
    | pause d =>
      obtain rfl := hr
      unfold Process.perform
      split
      · exact ih _ (hn _) hs
      · split
        · exact ih _ (hn _) hs
        · exact ⟨.pausing hn, hs⟩
  | split joining count branch next ihb ih =>
    obtain ⟨rfl, P, hP, hn⟩ := Process.Recounts.branches hp
    let f (acc : List (Activity Outcome) × Round × Stage σ) (i : Fin count) : List (Activity Outcome) × Round × Stage σ :=
      let begun := (branch i).perform c limit (stopped || acc.2.1.winner.isSome) acc.2.2
      (acc.1 ++ [begun.1], acc.2.1.after joining (stopped || begun.2.cancelled) i none begun.1, begun.2)
    obtain ⟨paced, level⟩ := foldl_finRange (f := f) (a := ([], { now := st.now }, st))
      (fun _ acc => (∀ b ∈ acc.1, b.Paced P) ∧ acc.2.2.Level record) ⟨List.forall_mem_nil _, hs⟩ fun i acc hacc => by
        obtain ⟨begun, level⟩ := ihb i (hP i) hacc.2
        exact ⟨fun b hm => (List.mem_append.mp hm).elim (hacc.1 b) fun hm => List.mem_singleton.mp hm ▸ begun, level⟩
    exact Round.close_even hc _ paced hn (fun g st hg hs => ih g hg hs) _ _ _ level

/-- So does an activity that moves until it has to wait again. -/
theorem Activity.Paced.wake (hc : Records c record) {a : Activity α} {Q : α → Prop} (h : a.Paced Q) {stopped : Bool}
    {st : Stage σ} (hs : st.Level record) : Even record Q (a.wake c limit stopped st) := by
  induction h generalizing stopped st with
  | done ha => exact ⟨.done ha, hs⟩
  | calling hn =>
    unfold Activity.wake
    split
    · exact Process.perform_even hc _ (hn _) hs
    · exact Response.take_even _ _ _ _ hn hs fun a st hs => Process.perform_even hc _ (hn a) hs
  | pausing hn =>
    unfold Activity.wake
    split
    · exact Process.perform_even hc _ (hn _) hs
    · split
      · exact Process.perform_even hc _ (hn _) hs
      · exact ⟨.pausing hn, hs⟩
  | @group _ _ since joining last branches next P hb hn ih =>
    have movers : ∀ move ∈ Activity.movers c limit branches, ∀ stopped (st : Stage σ), st.Level record →
        Even record P (move stopped st) := by
      rw [movers_eq]
      exact List.forall_mem_map.mpr fun b hmem stopped st hs => ih b hmem hs
    obtain ⟨paced, level⟩ := moveInOrder_even movers (movingOrder joining st.now branches) hb
      { now := st.now, seats := last.seats } hs
    exact Round.close_even hc _ paced hn (fun g st hg hs => Process.perform_even hc _ hg hs) _ _ _ level

/-- On a clock, what was presented when a process has come to its end is what was reported. -/
theorem Process.play_level (hc : Records c record) {d : Deadlines} {waits : Nat} {p : Process α} {memory : σ} {a : α}
    {st : Stage σ} {Q : α → Prop} (hp : p.Recounts none fun _ => Q) (hm : Level none (record memory))
    (h : p.play c limit d waits memory = some (a, st)) : Level none (record st.memory) := by
  have goes_on {jumps : Nat} {b : Activity α} {st st' : Stage σ} (hb : b.Paced Q) (hs : st.Level record)
      (h : Execution.play c limit d jumps b st = some (a, st')) : st'.Level record := by
    induction jumps generalizing b st with
    | zero =>
      cases b with
      | done x => cases h; exact hs
      | _ => cases h
    | succ jumps ih =>
      cases hd : b.isDone with
      | true =>
        cases b with
        | done x => cases h; exact hs
        | _ => cases hd
      | false =>
        rw [play_jump hd] at h
        split at h
        · have ended : (b.unwind c limit (d.strike st)).2.Level record := (hb.unwind hc (show (d.strike st).Level record from hs)).2
          rwa [Option.some.inj h] at ended
        · obtain ⟨now, -, h⟩ := Option.bind_eq_some_iff.mp h
          obtain ⟨paced, level⟩ : Even record Q (b.wake c limit false { d.strike st with now }) :=
            hb.wake hc (show Stage.Level record { d.strike st with now } from hs)
          exact ih paced level h
  obtain ⟨paced, level⟩ : Even record Q (p.perform c limit false { memory, withdrawn := d.withdrawal = some 0 }) :=
    p.perform_even hc hp hm
  exact goes_on paced level h

end Plays

/-! ## Runs -/

theorem eventsIn_filterMap {γ : Type} (acts : List Act) (f : Event → Option γ) :
    (eventsIn acts).filterMap f = (deedsIn acts).filterMap fun d => d.event?.bind f :=
  List.filterMap_filterMap

section Runs

variable {s : Setting} {context : Context} {o : Outcome} {ds : List Deed} {γ : Type}

/-- What cannot be read off the beginning and the end of a run is read off in between. -/
theorem RunChronicled.between (h : RunChronicled s context ds o) (hc : context.history = []) (read : Deed → Option γ)
    (hstart : ∀ g n, read (.told (.event (.runStarted g n))) = none) (hend : ∀ status, read (.told (.event (.runFinished status))) = none) :
    ∃ between, ds.filterMap read = between.filterMap read ∧
      Chronicle s.graph between o.scope.context.history o.scope.trace.conditionFailures := by
  obtain ⟨between, rfl, es, fs, he, hf, chronicle⟩ := h
  have steps : o.scope.context.history = es := by simpa [hc] using he
  have failures : o.scope.trace.conditionFailures = fs := by simpa using hf
  refine ⟨between, ?_, steps ▸ failures ▸ chronicle⟩
  simp [hstart, hend]

/-- What is read off the beginning and the end of each step is what the steps of the result tell. -/
theorem RunChronicled.steps_read (h : RunChronicled s context ds o) (hc : context.history = []) {read : Deed → Option γ}
    {tell : Step → γ} (hstart : ∀ g n, read (.told (.event (.runStarted g n))) = none)
    (hend : ∀ status, read (.told (.event (.runFinished status))) = none) (hr : ∀ d, d.IsAside → read d = none)
    (hs : ∀ n e, e.node = n.id → (Walk.opening n ++ Walk.closing n e.status).filterMap read = [tell e]) :
    Agree s.graph (ds.filterMap read) (o.scope.context.history.map tell) := by
  obtain ⟨between, hread, chronicle⟩ := h.between hc read hstart hend
  rw [hread, List.map_eq_flatMap]
  exact chronicle.steps_read hr hs

theorem RunChronicled.failures_read (h : RunChronicled s context ds o) (hc : context.history = []) :
    Agree s.graph (ds.filterMap fun d => d.event?.bind Event.conditionFailed?) o.scope.trace.conditionFailures := by
  obtain ⟨between, hread, chronicle⟩ := h.between hc (fun d => d.event?.bind Event.conditionFailed?) (fun _ _ => rfl) fun _ => rfl
  rw [hread]
  exact chronicle.failures_read

end Runs

/-- The events of a run begin with its start, and the last one tells the status of its result. Each
    step in the result was told of when it began and when it was over, with its status, to the
    subscriber and to the presenter alike, and each condition that failed was reported. All this is
    in order if nothing splits. On a clock, the presenter is told of completions in the order of
    their events in any case. -/
theorem events_presenter_and_result_tell_the_same {s : Setting} {context : Context} {p : Process Outcome}
    (hr : run s context = .ok p) (hc : context.history = []) :
    (∀ {w w' : Shared} {acts : List Act} {o : Outcome}, Course s.config.maxVisits false (.at p) w acts (.finished o) w' →
      ∀ elapsedMs,
        let r := o.result s.graph elapsedMs
        let events := eventsIn acts
        let started := events.filterMap Event.started?
        let completed := events.filterMap Event.completed?
        let failed := events.filterMap Event.conditionFailed?
        events.head? = some (.runStarted s.graph.id s.graph.nodes.length) ∧ events.getLast? = some (.runFinished r.status) ∧
          (∀ id, started.count id = (r.steps.map (·.node)).count id ∧
            (completed.map Prod.fst).count id = (r.steps.map (·.node)).count id) ∧
          completed.Perm (r.steps.map fun e => (e.node, e.status)) ∧ (completionsIn acts).Perm completed ∧
          failed.Perm r.conditionFailures ∧
          (s.graph.Unsplit → started = r.steps.map (·.node) ∧ completed = r.steps.map (fun e => (e.node, e.status)) ∧
            completionsIn acts = completed ∧ failed = r.conditionFailures)) ∧
    ∀ {σ : Type} {c : Collaborators σ} {record : σ → List Notice}, Records c record →
      ∀ {limit : Nat} {d : Deadlines} {waits : Nat} {memory : σ} {o : Outcome} {st : Stage σ}, record memory = [] →
        p.play c limit d waits memory = some (o, st) →
        (record st.memory).filterMap Notice.completed? = (record st.memory).filterMap Notice.reported? := by
  refine ⟨fun {w w' acts o} h elapsedMs => ?_, fun {σ c record} hrec {limit d waits memory o st} hm hp => ?_⟩
  · have chronicled := h.chronicled hr
    have started : Agree s.graph ((eventsIn acts).filterMap Event.started?) (o.scope.context.history.map (·.node)) := by
      rw [eventsIn_filterMap]
      refine chronicled.steps_read hc (fun _ _ => rfl) (fun _ => rfl) (fun d hd => by cases hd <;> rfl) fun n e he => ?_
      rw [he]
      rfl
    have completed : Agree s.graph ((eventsIn acts).filterMap Event.completed?)
        (o.scope.context.history.map fun e => (e.node, e.status)) := by
      rw [eventsIn_filterMap]
      refine chronicled.steps_read hc (fun _ _ => rfl) (fun _ => rfl) (fun d hd => by cases hd <;> rfl) fun n e he => ?_
      rw [he]
      rfl
    have presented : Agree s.graph (completionsIn acts) (o.scope.context.history.map fun e => (e.node, e.status)) := by
      refine chronicled.steps_read hc (fun _ _ => rfl) (fun _ => rfl) (fun d hd => by cases hd <;> rfl) fun n e he => ?_
      rw [he]
      rfl
    have failed : Agree s.graph ((eventsIn acts).filterMap Event.conditionFailed?) o.scope.trace.conditionFailures := by
      rw [eventsIn_filterMap]
      exact chronicled.failures_read hc
    obtain ⟨between, hdeeds, -⟩ := chronicled
    have events : eventsIn acts = .runStarted s.graph.id s.graph.nodes.length :: between.filterMap Deed.event? ++
        [.runFinished (statusOf o.ending)] := by
      simp [eventsIn, hdeeds, Deed.event?, Deed.notice?, Notice.event?]
    refine ⟨?_, ?_, fun id => ⟨started.1.count_eq id, ?_⟩, completed.1, presented.1.trans completed.1.symm, failed.1, fun hg =>
      ⟨started.2 hg, completed.2 hg, (presented.2 hg).trans (completed.2 hg).symm, failed.2 hg⟩⟩
    · rw [events, List.cons_append, List.head?_cons]
    · rw [events, List.getLast?_concat]
      rfl
    · have nodes := (completed.1.map Prod.fst).count_eq id
      rwa [List.map_map] at nodes
  · obtain ⟨start, -, rfl⟩ := start_of_run hr
    have recounts : (runFrom s start.id context).Recounts none fun _ _ => True :=
      (runFrom_recounts (Graph.checked_of_isValid (isValid_of_run hr)) start.id context).mono fun _ _ _ => trivial
    have level := Process.play_level (Q := fun _ => True) hrec recounts (by rw [hm]; rfl) hp
    simpa [Level] using level

/-- Whoever the collaborators are, a record of all notices can be kept beside them. -/
def Collaborators.recorded {σ : Type} (c : Collaborators σ) : Collaborators (σ × List Notice) where
  respond k now memory := ((c.respond k now memory.1).1, (c.respond k now memory.1).2, memory.2)
  told n now memory := ((c.told n now memory.1).1, (c.told n now memory.1).2, memory.2 ++ [n])

theorem Collaborators.recorded_records {σ : Type} (c : Collaborators σ) : Records c.recorded Prod.snd :=
  ⟨fun _ _ _ => rfl, fun _ _ _ => rfl⟩

/-- Behind the winner of a race the loser is told of as skipped, while it stands in front of the
    winner in the result. -/
theorem a_lost_race_is_told_of : ∃ p o st acts w', run rivals {} = .ok p ∧
    p.play Rehearsal.collaborators.recorded rivals.config.maxVisits {} rivals.waits ({ script := slowOne }, []) = some (o, st) ∧
    st.memory.2.filterMap Notice.reported? =
      [("start", .completed), ("fork", .completed), ("b", .completed), ("a", .skipped), ("meet", .completed), ("end", .completed)] ∧
    st.memory.2.filterMap Notice.completed? = st.memory.2.filterMap Notice.reported? ∧
    Course rivals.config.maxVisits false (.at p) {} acts (.finished o) w' ∧
    ((eventsIn acts).filterMap Event.completed?).Perm
      [("start", .completed), ("fork", .completed), ("a", .skipped), ("b", .completed), ("meet", .completed), ("end", .completed)] := by
  have shown : ((run rivals {}).toOption.bind fun p => (p.play Rehearsal.collaborators.recorded rivals.config.maxVisits {}
      rivals.waits ({ script := slowOne }, [])).map fun r => (r.2.memory.2.filterMap Notice.reported?,
        (r.1.result rivals.graph 0).steps.map fun e => (e.node, e.status))) =
      some ([("start", .completed), ("fork", .completed), ("b", .completed), ("a", .skipped), ("meet", .completed), ("end", .completed)],
        [("start", .completed), ("fork", .completed), ("a", .skipped), ("b", .completed), ("meet", .completed), ("end", .completed)]) := by
    decide +kernel
  obtain ⟨p, hp, hshown⟩ := Option.bind_eq_some_iff.mp shown
  obtain ⟨⟨o, st⟩, hplay, hshown⟩ := Option.map_eq_some_iff.mp hshown
  obtain ⟨reported, steps⟩ := Prod.mk.inj hshown
  obtain ⟨told, presented⟩ := events_presenter_and_result_tell_the_same (ok_of_toOption hp) rfl
  obtain ⟨acts, hcourse⟩ := p.play_course hplay
  obtain ⟨-, -, -, completed, -⟩ := told hcourse 0
  exact ⟨p, o, st, acts, _, ok_of_toOption hp, hplay, reported, presented (Collaborators.recorded_records _) rfl hplay, hcourse,
    steps ▸ completed⟩

end Execution

end Capability
