/-
  Capability.Proofs.Budgets — the budget that a segment carries does not matter.

  What stops a run is the count that all of its strands share. The budget of a segment falls with
  every dispatch, too, and starts no lower, so it is never found used up where another dispatch is
  allowed. Two processes agree for some dispatches if they are the same until so many were made.

  (1) `segment_agrees`: segments agree for as many dispatches as both of their budgets allow.
  (2) `Course.agrees`: what agrees for as many dispatches as are left takes the same courses.
  (3) `budgets_do_not_matter`: so a run takes the same courses with every larger budget.
-/

import Capability.Proofs.Dispatches

namespace Capability.Execution

/-! ## Processes -/

/-- The processes are the same until more than `left` dispatches were made. -/
inductive Process.Agree : {α : Type} → (left : Nat) → Process α → Process α → Prop
  | same {α : Type} {left : Nat} (p : Process α) : Agree left p p
  | visit {α : Type} {left : Nat} {next next' : Bool → Process α} :
      (∀ left', left = left' + 1 → Agree left' (next true) (next' true)) → Agree left (next false) (next' false) →
      Agree left (.ask .visit next) (.ask .visit next')
  | ask {α : Type} {left : Nat} {q : Request} {next next' : q.Reply → Process α} : q ≠ .visit →
      (∀ r, Agree left (next r) (next' r)) → Agree left (.ask q next) (.ask q next')
  | split {α : Type} {left : Nat} {joining : Joining} {count : Nat} {branch branch' : Fin count → Process Outcome}
      {next next' : Gathered → Process α} : (∀ i, Agree left (branch i) (branch' i)) →
      (∀ g, Agree left (next g) (next' g)) → Agree left (.split joining count branch next) (.split joining count branch' next')

namespace Process.Agree

variable {α β : Type} {left : Nat}

theorem mono {p p' : Process α} (h : p.Agree left p') {fewer : Nat} (hl : fewer ≤ left) : p.Agree fewer p' := by
  induction h generalizing fewer with
  | same p => exact .same p
  | @visit _ left _ _ _ _ iht ihf =>
    exact .visit (fun left' h => iht (left' + (left - fewer)) (by omega) (by omega)) (ihf hl)
  | ask hq _ ih => exact .ask hq fun r => ih r hl
  | split _ _ ihb ih => exact .split (fun i => ihb i hl) fun g => ih g hl

theorem symm {p p' : Process α} (h : p.Agree left p') : p'.Agree left p := by
  induction h with
  | same p => exact .same p
  | visit _ _ iht ihf => exact .visit iht ihf
  | ask hq _ ih => exact .ask hq ih
  | split _ _ ihb ih => exact .split ihb ih

/-- Whatever begins alike agrees if what comes next does. -/
theorem bind_right (p : Process α) {f f' : α → Process β} (h : ∀ a, (f a).Agree left (f' a)) :
    (p.bind f).Agree left (p.bind f') := by
  induction p generalizing left with
  | done a => exact h a
  | ask q next ih =>
    by_cases hq : q = .visit
    · subst hq
      exact .visit (fun left' hl => ih true fun a => (h a).mono (by omega)) (ih false h)
    · exact .ask hq fun r => ih r h
  | split joining count branch next _ ih => exact .split (fun i => .same _) fun g => ih g h

theorem bind {p p' : Process α} (hp : p.Agree left p') {f f' : α → Process β} (h : ∀ a, (f a).Agree left (f' a)) :
    (p.bind f).Agree left (p'.bind f') := by
  induction hp with
  | same p => exact .bind_right p h
  | visit _ _ iht ihf => exact .visit (fun left' hl => iht left' hl fun a => (h a).mono (by omega)) (ihf h)
  | ask hq _ ih => exact .ask hq fun r => ih r h
  | split hb _ _ ih => exact .split hb fun g => ih g h

end Process.Agree

/-! ## Segments -/

/-- The walks are the same until more than `left` dispatches were made. -/
def Walk.Agree (left : Nat) {α : Type} (w w' : Walk α) : Prop := ∀ s, (w.process s).Agree left (w'.process s)

def Inner.Agree (left : Nat) (inner inner' : Inner) : Prop := ∀ own start, (inner own start).Agree left (inner' own start)

section Segments

variable {left : Nat} {α β : Type} {inner inner' : Inner} {st : Setting}

theorem Walk.Agree.same (w : Walk α) : w.Agree left w := fun _ => .same _

theorem Walk.Agree.bind {w w' : Walk α} (hw : w.Agree left w') {f f' : α → Walk β} (h : ∀ a, (f a).Agree left (f' a)) :
    (w >>= f).Agree left (w' >>= f') := by
  intro s
  rw [Walk.process_bind, Walk.process_bind]
  refine (hw s).bind fun p => ?_
  obtain ⟨_ | a, t⟩ := p
  · exact .same _
  · exact h a t

theorem Walk.Agree.bind_right (w : Walk α) {f f' : α → Walk β} (h : ∀ a, (f a).Agree left (f' a)) :
    (w >>= f).Agree left (w >>= f') :=
  .bind (.same w) h

/-- What comes behind a dispatch matters only if another one may be made. -/
theorem Walk.Agree.mayVisit_bind {f f' : Bool → Walk α}
    (ht : ∀ left', left = left' + 1 → (f true).Agree left' (f' true)) (hf : (f false).Agree left (f' false)) :
    (Walk.mayVisit >>= f).Agree left (Walk.mayVisit >>= f') :=
  fun s => .visit (fun left' h => ht left' h s) (hf s)

theorem Walk.Agree.ite {c : Prop} [Decidable c] {w₁ w₂ w₁' w₂' : Walk α} (h₁ : w₁.Agree left w₁')
    (h₂ : w₂.Agree left w₂') : (if c then w₁ else w₂).Agree left (if c then w₁' else w₂') := by
  split
  · exact h₁
  · exact h₂

/-- The branches of a split that start at some nodes. -/
theorem Walk.split_map (joining : Joining) (f : String → Walk Flow) (starts : List String) (fork : Scope) :
    Walk.split joining (starts.map f) fork =
      ExceptT.lift (StateT.lift (.split joining starts.length (fun i => (f (starts.get i)).strand fork) .done)) := by
  have same : ∀ (count : Nat) (branch : Fin count → Process Outcome) (hc : count = starts.length),
      (∀ i : Fin starts.length, branch (Fin.cast hc.symm i) = (f (starts.get i)).strand fork) →
      (.split joining count branch .done : Process Gathered) =
        .split joining starts.length (fun i => (f (starts.get i)).strand fork) .done := by
    rintro count branch rfl h
    congr 1
    exact funext h
  exact congrArg (fun p => ExceptT.lift (StateT.lift p)) (same _ _ (List.length_map f) fun i => by simp)

theorem passes_agree (hi : inner.Agree left inner') (n : Node) (e : Edge) (remaining i : Nat) :
    (passes st inner n e remaining i).Agree left (passes st inner' n e remaining i) := by
  induction remaining generalizing i with
  | zero => exact .same _
  | succ remaining ih =>
    unfold passes
    refine .bind_right _ fun _ => .bind_right _ fun _ => .bind_right _ fun body => ?_
    cases body with
    | none => exact .same _
    | some body =>
      refine .bind (hi _ body) fun flow => ?_
      cases flow with
      | ended => exact .same _
      | deadEnd => exact ih _
      | boundary id => exact .ite (.bind_right _ fun out => .ite (.same _) (ih _)) (ih _)

theorem visitLoop_agrees (hi : inner.Agree left inner') (n : Node) :
    (visitLoop st inner n).Agree left (visitLoop st inner' n) := by
  refine .bind_right _ fun step => ?_
  cases st.graph.iterationEdge? n.id with
  | none => exact .same _
  | some e => exact .bind_right _ fun _ => .bind (passes_agree hi n e _ 0) fun _ => .same _

theorem visitSplit_agrees (hi : inner.Agree left inner') (n : Node) :
    (visitSplit st inner n).Agree left (visitSplit st inner' n) := by
  refine .bind_right _ fun starts => .bind_right _ fun scope => .bind (fun s => ?_) fun _ => .same _
  rw [Walk.split_map, Walk.split_map, Walk.process_lift, Walk.process_lift]
  refine .split (fun i => ?_) fun _ => .same _
  exact .bind (hi _ (starts.get i) scope.fork) fun _ => .same _

/-- Only loops and splits walk through other nodes. -/
theorem visit_agrees (hi : inner.Agree left inner') (n : Node) : (visit st inner n).Agree left (visit st inner' n) := by
  unfold visit
  split
  case h_7 => exact visitLoop_agrees hi n
  case h_8 => exact visitSplit_agrees hi n
  all_goals exact .same _

/-- Segments agree for as many dispatches as both of their budgets allow. -/
theorem segment_agrees (st : Setting) {budget budget' : Nat} (h : left ≤ budget) (h' : left ≤ budget') :
    Inner.Agree left (segment st budget) (segment st budget') := by
  induction budget generalizing left budget' with
  | zero =>
    intro own start
    cases budget' with
    | zero => exact .same _
    | succ budget' =>
      unfold segment
      refine .ite (.same _) (.bind_right _ fun _ => .mayVisit_bind (fun left' hl => by omega) ?_)
      simp only [Bool.false_eq_true, if_false]
      exact .same _
  | succ budget ih =>
    intro own start
    cases budget' with
    | zero =>
      unfold segment
      refine .ite (.same _) (.bind_right _ fun _ => .mayVisit_bind (fun left' hl => by omega) ?_)
      simp only [Bool.false_eq_true, if_false]
      exact .same _
    | succ budget' =>
      unfold segment
      refine .ite (.same _) (.bind_right _ fun _ => .mayVisit_bind (fun left' hl => ?_) ?_)
      · have inside : Inner.Agree left' (segment st budget) (segment st budget') := ih (by omega) (by omega)
        simp only [if_true]
        cases st.graph.node? start with
        | none => exact .same _
        | some n =>
          refine .bind (visit_agrees inside n) fun next => ?_
          cases next with
          | node next => exact inside own next
          | stop flow => exact .same _
      · simp only [Bool.false_eq_true, if_false]
        exact .same _

end Segments

/-! ## Courses -/

/-- As `Process.Agree`, of processes under way. -/
inductive Standing.Agree : {α : Type} → (left : Nat) → Standing α → Standing α → Prop
  | at {α : Type} {left : Nat} {p p' : Process α} : p.Agree left p' → Agree left (.at p) (.at p')
  | calling {α : Type} {left : Nat} {k : Call} {l : Option Duration} {next next' : Answer → Process α} :
      (∀ a, (next a).Agree left (next' a)) → Agree left (.calling k l next) (.calling k l next')
  | fork {α : Type} {left : Nat} {joining : Joining} {count : Nat} {branches branches' : Fin count → Standing Outcome}
      {winner : Option Nat} {next next' : Gathered → Process α} : (∀ i, Agree left (branches i) (branches' i)) →
      (∀ g, (next g).Agree left (next' g)) →
      Agree left (.fork joining count branches winner next) (.fork joining count branches' winner next')
  | finished {α : Type} {left : Nat} (a : α) : Agree left (.finished a) (.finished a)

section Courses

variable {limit left : Nat} {α : Type} {b : Bool} {s s' t : Standing α} {w w' : Shared} {act : Act} {acts : List Act}

theorem Standing.Agree.mono (h : s.Agree left s') {fewer : Nat} (hl : fewer ≤ left) : s.Agree fewer s' := by
  induction h with
  | «at» hp => exact .at (hp.mono hl)
  | calling hn => exact .calling fun a => (hn a).mono hl
  | fork _ hn ih => exact .fork (fun i => ih i hl) fun g => (hn g).mono hl
  | finished a => exact .finished a

theorem Standing.Agree.elect {u u' : Standing Outcome} (h : u.Agree left u') (joining : Joining) (winner : Option Nat)
    (i : Nat) : u.elect joining winner i = u'.elect joining winner i := by
  cases h <;> rfl

theorem Standing.Agree.of_finished {a : α} (h : (Standing.finished a).Agree left s') : s' = .finished a := by
  cases h
  rfl

/-- What agrees with a request is the same request, with what comes behind it agreeing. -/
theorem Standing.Agree.of_ask {q : Request} {next : q.Reply → Process α} (h : (Standing.at (.ask q next)).Agree left s')
    (hq : q ≠ .visit) :
    ∃ next', s' = .at (.ask q next') ∧ ∀ r, (next r).Agree left (next' r) := by
  cases h with
  | «at» hp =>
    cases hp with
    | same => exact ⟨next, rfl, fun r => .same _⟩
    | visit => exact absurd rfl hq
    | ask _ hn => exact ⟨_, rfl, hn⟩

/-- So it is with a dispatch, but what comes behind it agrees for one dispatch less. -/
theorem Standing.Agree.of_visit {next : Bool → Process α} (h : (Standing.at (.ask .visit next)).Agree left s') :
    ∃ next', s' = .at (.ask .visit next') ∧ (∀ left', left = left' + 1 → (next true).Agree left' (next' true)) ∧
      (next false).Agree left (next' false) := by
  cases h with
  | «at» hp =>
    cases hp with
    | same => exact ⟨next, rfl, fun _ _ => .same _, .same _⟩
    | visit ht hf => exact ⟨_, rfl, ht, hf⟩
    | ask hq => exact absurd rfl hq

theorem Standing.Agree.of_split {joining : Joining} {count : Nat} {branch : Fin count → Process Outcome}
    {next : Gathered → Process α} (h : (Standing.at (.split joining count branch next)).Agree left s') :
    ∃ branch' next', s' = .at (.split joining count branch' next') ∧ (∀ i, (branch i).Agree left (branch' i)) ∧
      ∀ g, (next g).Agree left (next' g) := by
  cases h with
  | «at» hp =>
    cases hp with
    | same => exact ⟨branch, next, rfl, fun _ => .same _, fun _ => .same _⟩
    | split hb hn => exact ⟨_, _, rfl, hb, hn⟩

theorem Standing.Agree.of_calling {k : Call} {l : Option Duration} {next : Answer → Process α}
    (h : (Standing.calling k l next).Agree left s') :
    ∃ next', s' = .calling k l next' ∧ ∀ a, (next a).Agree left (next' a) := by
  cases h with
  | calling hn => exact ⟨_, rfl, hn⟩

theorem Move.left_le (h : Move limit b s w act t w') : limit - w'.visits ≤ limit - w.visits := by
  obtain ⟨-, hv⟩ | ⟨-, hv⟩ := h.counts <;> omega

/-- What agrees for as many dispatches as are left moves alike. -/
theorem Move.agrees (h : Move limit b s w act t w') (hs : s.Agree (limit - w.visits) s') :
    ∃ t', Move limit b s' w act t' w' ∧ t.Agree (limit - w'.visits) t' := by
  induction h with
  | @visit _ _ w next =>
    obtain ⟨next', rfl, ht, hf⟩ := hs.of_visit
    refine ⟨_, .visit next', .at ?_⟩
    by_cases hw : w.visits < limit
    · simpa only [hw, decide_true] using ht _ (by omega)
    · simpa only [hw, decide_false] using hf.mono (by omega)
  | stopped next =>
    obtain ⟨next', rfl, hn⟩ := hs.of_ask nofun
    exact ⟨_, .stopped next', .at (hn _)⟩
  | notify n next cancels =>
    obtain ⟨next', rfl, hn⟩ := hs.of_ask nofun
    exact ⟨_, .notify n next' cancels, .at (hn _)⟩
  | call k l next hc =>
    obtain ⟨next', rfl, hn⟩ := hs.of_ask nofun
    exact ⟨_, .call k l next' hc, .calling hn⟩
  | skip k l next hc =>
    obtain ⟨next', rfl, hn⟩ := hs.of_ask nofun
    exact ⟨_, .skip k l next' hc, .at (hn _)⟩
  | answer k l next outcome cancels hc =>
    obtain ⟨next', rfl, hn⟩ := hs.of_calling
    exact ⟨_, .answer k l next' outcome cancels hc, .at (hn _)⟩
  | expire k d next hc =>
    obtain ⟨next', rfl, hn⟩ := hs.of_calling
    exact ⟨_, .expire k d next' hc, .at (hn _)⟩
  | interrupt k l next hc =>
    obtain ⟨next', rfl, hn⟩ := hs.of_calling
    exact ⟨_, .interrupt k l next' hc, .at (hn _)⟩
  | pause d next =>
    obtain ⟨next', rfl, hn⟩ := hs.of_ask nofun
    exact ⟨_, .pause d next', .at (hn _)⟩
  | cut d next hc =>
    obtain ⟨next', rfl, hn⟩ := hs.of_ask nofun
    exact ⟨_, .cut d next' hc, .at (hn _)⟩
  | «open» joining count branch next =>
    obtain ⟨branch', next', rfl, hb, hn⟩ := hs.of_split
    exact ⟨_, .open joining count branch' next', .fork (fun i => .at (hb i)) hn⟩
  | finish a =>
    cases hs with
    | «at» hp =>
      cases hp
      exact ⟨_, .finish a, .finished a⟩
  | @branch _ _ _ _ joining count branches winner next i _ t hm ih =>
    cases hs with
    | @fork _ _ _ _ _ branches' _ _ next' hb hn =>
      obtain ⟨t', hm', ht⟩ := ih (hb i)
      refine ⟨_, .branch i hm', ?_⟩
      rw [ht.elect]
      refine .fork (fun j => ?_) fun g => (hn g).mono hm.left_le
      by_cases e : j = i
      · subst e; simpa using ht
      · simpa [Function.update_of_ne e] using (hb j).mono hm.left_le
  | gather outcomes ho =>
    cases hs with
    | @fork _ _ _ _ _ branches' _ _ next' hb hn =>
      refine ⟨_, .gather outcomes fun i => ?_, .at (hn _)⟩
      have same := hb i
      rw [ho i] at same
      exact same.of_finished

theorem Course.agrees (h : Course limit b s w acts t w') (hs : s.Agree (limit - w.visits) s') :
    ∃ t', Course limit b s' w acts t' w' ∧ t.Agree (limit - w'.visits) t' := by
  induction h generalizing s' with
  | stay => exact ⟨s', .stay, hs⟩
  | move hm _ ih =>
    obtain ⟨t₁, hm', ht⟩ := hm.agrees hs
    obtain ⟨t', hc', ht'⟩ := ih ht
    exact ⟨t', .move hm' hc', ht'⟩
  | elsewhere visits cancels _ ih =>
    obtain ⟨t', hc', ht'⟩ := ih (hs.mono (by simp only; omega))
    exact ⟨t', .elsewhere visits cancels hc', ht'⟩

/-- What agrees for as many dispatches as are left comes to the same ends. -/
theorem Course.ends_alike {p p' : Process α} {a : α} (h : p.Agree (limit - w.visits) p') :
    Course limit b (.at p) w acts (.finished a) w' ↔ Course limit b (.at p') w acts (.finished a) w' := by
  constructor
  · intro hc
    obtain ⟨t', hc', ht⟩ := hc.agrees (.at h)
    exact ht.of_finished ▸ hc'
  · intro hc
    obtain ⟨t', hc', ht⟩ := hc.agrees (.at h.symm)
    exact ht.of_finished ▸ hc'

end Courses

/-! ## Runs -/

/-- The run from a start node with some budget. -/
def runWithin (s : Setting) (budget : Nat) (start : String) (c : Context) : Process Outcome := do
  let _ ← Process.request (.notify (.event (.runStarted s.graph.id s.graph.nodes.length)))
  let o ← Walk.strand (segment s budget [] start) { context := c }
  let _ ← Process.request (.notify (.event (.runFinished (statusOf o.ending))))
  pure o

theorem runFrom_within (s : Setting) (start : String) (c : Context) :
    runFrom s start c = runWithin s s.config.maxVisits start c := rfl

theorem runWithin_agrees (s : Setting) {left budget budget' : Nat} (h : left ≤ budget) (h' : left ≤ budget') (start : String)
    (c : Context) : (runWithin s budget start c).Agree left (runWithin s budget' start c) := by
  refine .bind_right _ fun _ => .bind (.bind (segment_agrees s h h' [] start _) fun _ => .same _) fun _ => .same _

/-- A run takes the same courses with every budget that is not below the limit. -/
theorem budgets_do_not_matter (s : Setting) (start : String) (c : Context) {budget : Nat} (h : s.config.maxVisits ≤ budget)
    {b : Bool} {w w' : Shared} {acts : List Act} {o : Outcome} :
    Course s.config.maxVisits b (.at (runFrom s start c)) w acts (.finished o) w' ↔
      Course s.config.maxVisits b (.at (runWithin s budget start c)) w acts (.finished o) w' :=
  Course.ends_alike (runFrom_within s start c ▸ runWithin_agrees s (Nat.sub_le ..) ((Nat.sub_le ..).trans h) start c)

end Capability.Execution
