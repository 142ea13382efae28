/-
  Capability.Proofs.Deeds — what others see of a course.

  A run tells others of its progress and is answered by them; nothing else of it shows. A process
  recounts something if that is true of everything it can end with, together with all that it told
  and was answered on the way. What the branches of a split show is shown in some order.

  A process also keeps its reports in step: where it tells that a node is completed, the event that
  reports this comes next, and it comes nowhere else.

  (1) `Course.recounts`: what a process recounts is true of what its courses show.
  (2) `Process.Recounts.bind`, `Walk.Recounts.bind`: what is shown first comes before the rest.
-/

import Capability.Proofs.Replies
import Mathlib.Data.List.Perm.Basic

namespace Capability

/-! ## Notices -/

def Notice.event? : Notice → Option Event
  | .event e => some e
  | .started _ _ | .completed _ _ => none

/-- The node that is completed, for those who are told apart from the events. -/
def Notice.completed? : Notice → Option (String × StepStatus)
  | .completed node status => some (node, status)
  | .event _ | .started _ _ => none

def Event.started? : Event → Option String
  | .nodeStarted node _ => some node
  | _ => none

def Event.completed? : Event → Option (String × StepStatus)
  | .nodeCompleted node status => some (node, status)
  | _ => none

def Event.conditionFailed? : Event → Option ConditionFailure
  | .conditionFailed f => some f
  | _ => none

/-- The node that is reported as completed. -/
def Notice.reported? (n : Notice) : Option (String × StepStatus) := n.event?.bind Event.completed?

namespace Execution

/-! ## Deeds -/

/-- Something of a run that others see. -/
inductive Deed where
  | told (n : Notice)
  /-- The answer to a call. -/
  | answered (k : Call) (l : Option Duration) (a : Answer)

def Deed.notice? : Deed → Option Notice
  | .told n => some n
  | .answered _ _ _ => none

/-- What is seen of an act, in whichever branch. -/
def Act.deed? (act : Act) : Option Deed :=
  match act.core with
  | .told n _ => some (.told n)
  | .answered k l a _ => some (.answered k l a)
  | _ => none

def deedsIn (acts : List Act) : List Deed := acts.filterMap Act.deed?

theorem deedsIn_append (acts acts' : List Act) : deedsIn (acts ++ acts') = deedsIn acts ++ deedsIn acts' :=
  List.filterMap_append

def Request.deed? : (q : Request) → q.Reply → Option Deed
  | .notify n, _ => some (.told n)
  | .call k l, a => some (.answered k l a)
  | .visit, _ | .stopped, _ | .pause _, _ => none

/-- The node whose completion is told. -/
def Request.completed? : Request → Option (String × StepStatus)
  | .notify n => n.completed?
  | .visit | .stopped | .call _ _ | .pause _ => none

/-- The node whose completion is reported. -/
def Request.reported? : Request → Option (String × StepStatus)
  | .notify n => n.reported?
  | .visit | .stopped | .call _ _ | .pause _ => none

/-! ## Mingled lists -/

/-- What one branch shows may come before all that the others show. -/
theorem perm_flatten_update {δ : Type*} {n : Nat} (i : Fin n) (front : List δ) (logs : Fin n → List δ) :
    (front ++ (List.ofFn logs).flatten).Perm (List.ofFn (Function.update logs i (front ++ logs i))).flatten := by
  induction n with
  | zero => exact i.elim0
  | succ n ih =>
    simp only [List.ofFn_succ, List.flatten_cons]
    cases i using Fin.cases with
    | zero =>
      have rest : (fun j => Function.update logs 0 (front ++ logs 0) (Fin.succ j)) = fun j => logs j.succ :=
        funext fun j => Function.update_of_ne (Fin.succ_ne_zero j) _ _
      rw [Function.update_self, rest, List.append_assoc]
    | succ i =>
      have rest : (fun j => Function.update logs i.succ (front ++ logs i.succ) (Fin.succ j)) =
          Function.update (fun j => logs j.succ) i (front ++ logs i.succ) := by
        funext j
        by_cases e : j = i
        · subst e; simp
        · rw [Function.update_of_ne e, Function.update_of_ne fun h => e (Fin.succ_inj.mp h)]
      rw [Function.update_of_ne (Fin.succ_ne_zero i).symm, rest]
      refine .trans ?_ ((ih i fun j => logs j.succ).append_left (logs 0))
      rw [← List.append_assoc, ← List.append_assoc]
      exact List.perm_append_comm.append_right _

/-- A list made up of some others, each of which is seen in its own order. -/
structure Mingled {δ : Type*} (logs : List (List δ)) (ds : List δ) : Prop where
  perm : ds.Perm logs.flatten
  inOrder : ∀ log ∈ logs, log.Sublist ds

namespace Mingled

variable {δ : Type*} {logs : List (List δ)}

theorem flatten (logs : List (List δ)) : Mingled logs logs.flatten := ⟨.refl _, fun _ h => List.sublist_flatten_of_mem h⟩

/-- What one branch shows first may be seen first. -/
theorem update {n : Nat} {logs : Fin n → List δ} {ds : List δ} (h : Mingled (List.ofFn logs) ds) (i : Fin n) (front : List δ) :
    Mingled (List.ofFn (Function.update logs i (front ++ logs i))) (front ++ ds) := by
  refine ⟨(h.perm.append_left _).trans (perm_flatten_update i _ logs), fun log hm => ?_⟩
  obtain ⟨j, rfl⟩ := List.mem_ofFn.mp hm
  have seen (j : Fin n) : (logs j).Sublist ds := h.inOrder _ (List.mem_ofFn.mpr ⟨j, rfl⟩)
  by_cases e : j = i
  · subst e
    simpa using seen j
  · rw [Function.update_of_ne e]
    exact (seen j).trans (List.sublist_append_right _ _)

theorem single (ds : List δ) : Mingled [ds] ds := ⟨by simp, by simp⟩

theorem append {logs' : List (List δ)} {ds ds' : List δ} (h : Mingled logs ds) (h' : Mingled logs' ds') :
    Mingled (logs ++ logs') (ds ++ ds') where
  perm := by
    rw [List.flatten_append]
    exact h.perm.append h'.perm
  inOrder := List.forall_mem_append.mpr ⟨fun log hm => (h.inOrder log hm).trans (List.sublist_append_left _ _),
    fun log hm => (h'.inOrder log hm).trans (List.sublist_append_right _ _)⟩

theorem filter {ds : List δ} (h : Mingled logs ds) (p : δ → Bool) : Mingled (logs.map (List.filter p)) (ds.filter p) where
  perm := by
    rw [← List.filter_flatten]
    exact h.perm.filter p
  inOrder := List.forall_mem_map.mpr fun log hm => (h.inOrder log hm).filter p

/-- What is mingled may be made up of lists that are mingled themselves. -/
theorem nested {ι : Type*} {bs : List ι} {whole : ι → List δ} {parts : ι → List (List δ)} {ds : List δ}
    (h : Mingled (bs.map whole) ds) (hb : ∀ b ∈ bs, Mingled (parts b) (whole b)) : Mingled (bs.flatMap parts) ds where
  perm := by
    have flat : (bs.flatMap parts).flatten = bs.flatMap fun b => (parts b).flatten := by
      rw [← List.flatMap_id, List.flatMap_assoc]
      simp
    rw [flat]
    exact h.perm.trans (.flatMap_left _ fun b hm => (hb b hm).perm)
  inOrder := fun log hm => by
    obtain ⟨b, hm, hlog⟩ := List.mem_flatMap.mp hm
    exact ((hb b hm).inOrder log hlog).trans (h.inOrder _ (List.mem_map_of_mem hm))

end Mingled

/-! ## Processes -/

/-- Everything a process can end with satisfies `Q`, together with what is seen until then. `due` is
    the completion that was told and is to be reported next. -/
def Process.Recounts : {α : Type} → Process α → (due : Option (String × StepStatus)) → (List Deed → α → Prop) → Prop
  | _, .done a, due, Q => due = none ∧ Q [] a
  | _, .ask q next, due, Q =>
    q.reported? = due ∧ ∀ r, (next r).Recounts q.completed? fun ds => Q ((q.deed? r).toList ++ ds)
  | _, .split _ _ branch next, due, Q =>
    due = none ∧ ∃ P : List Deed → Outcome → Prop, (∀ i, (branch i).Recounts none P) ∧
      ∀ (shown : List (List Deed × Outcome)) winner ds, (∀ o ∈ shown, P o.1 o.2) → Mingled (shown.map Prod.fst) ds →
        (next ⟨shown.map Prod.snd, winner⟩).Recounts none fun es => Q (ds ++ es)

namespace Process.Recounts

variable {α β : Type} {due : Option (String × StepStatus)}

theorem mono {p : Process α} {Q Q' : List Deed → α → Prop} (h : p.Recounts due Q) (hQ : ∀ ds a, Q ds a → Q' ds a) :
    p.Recounts due Q' := by
  induction p generalizing due with
  | done a => exact ⟨h.1, hQ _ _ h.2⟩
  | ask q next ih => exact ⟨h.1, fun r => ih r (h.2 r) fun _ _ => hQ _ _⟩
  | split joining count branch next _ ih =>
    obtain ⟨hd, P, hP, hn⟩ := h
    exact ⟨hd, P, hP, fun shown w ds ho hp => ih _ (hn shown w ds ho hp) fun _ _ => hQ _ _⟩

/-- Two things that a process recounts are true of it together. -/
theorem and {p : Process α} {Q Q' : List Deed → α → Prop} (h : p.Recounts due Q) (h' : p.Recounts due Q') :
    p.Recounts due fun ds a => Q ds a ∧ Q' ds a := by
  induction p generalizing due with
  | done a => exact ⟨h.1, h.2, h'.2⟩
  | ask q next ih => exact ⟨h.1, fun r => ih r (h.2 r) (h'.2 r)⟩
  | split joining count branch next ihb ih =>
    obtain ⟨hd, P, hP, hn⟩ := h
    obtain ⟨-, P', hP', hn'⟩ := h'
    refine ⟨hd, fun ds o => P ds o ∧ P' ds o, fun i => ihb i (hP i) (hP' i), fun shown w ds ho hp => ?_⟩
    exact ih _ (hn shown w ds (fun o hm => (ho o hm).1) hp) (hn' shown w ds (fun o hm => (ho o hm).2) hp)

theorem bind {p : Process α} {f : α → Process β} {Q : List Deed → β → Prop}
    (h : p.Recounts due fun ds a => (f a).Recounts none fun es => Q (ds ++ es)) : (p.bind f).Recounts due Q := by
  induction p generalizing due Q with
  | done a =>
    obtain ⟨rfl, hf⟩ := h
    exact hf
  | ask q next ih =>
    refine ⟨h.1, fun r => ih r ((h.2 r).mono fun ds a ha => ?_)⟩
    simpa only [List.append_assoc] using ha
  | split joining count branch next _ ih =>
    obtain ⟨hd, P, hP, hn⟩ := h
    refine ⟨hd, P, hP, fun shown w ds ho hp => ih _ ((hn shown w ds ho hp).mono fun es a ha => ?_)⟩
    simpa only [List.append_assoc] using ha

end Process.Recounts

/-! ## Courses -/

/-- Everything that can become of a standing satisfies `Q`, together with what is seen until then. -/
def Standing.Recounts : {α : Type} → Standing α → (List Deed → α → Prop) → Prop
  | _, .at p, Q => ∃ due, p.Recounts due Q
  | _, .calling k l next, Q => ∀ a, (next a).Recounts none fun ds => Q (.answered k l a :: ds)
  | _, .fork _ count branches _ next, Q =>
    ∃ P : Fin count → List Deed → Outcome → Prop, (∀ i, (branches i).Recounts (P i)) ∧
      ∀ logs outcomes winner ds, (∀ i, P i (logs i) (outcomes i)) → Mingled (List.ofFn logs) ds →
        (next ⟨List.ofFn outcomes, winner⟩).Recounts none fun es => Q (ds ++ es)
  | _, .finished a, Q => Q [] a

section Courses

variable {limit : Nat} {α : Type} {b : Bool} {s s' : Standing α} {w w' : Shared} {Q : List Deed → α → Prop}

theorem Move.recounts {act : Act} (h : Move limit b s w act s' w') (hs : s.Recounts Q) :
    s'.Recounts fun ds => Q (act.deed?.toList ++ ds) := by
  induction h with
  | visit | stopped | pause | cut => exact ⟨_, hs.choose_spec.2 _⟩
  | notify n next cancels => exact ⟨_, hs.choose_spec.2 ()⟩
  | call k l next => exact fun a => hs.choose_spec.2 a
  | skip k l next => exact ⟨_, hs.choose_spec.2 .cancelled⟩
  | answer | expire | interrupt => exact ⟨none, hs _⟩
  | «open» joining count branch next =>
    obtain ⟨_, -, P, hP, hn⟩ := hs
    refine ⟨fun _ => P, fun i => ⟨none, hP i⟩, fun logs os winner ds ho hp => ?_⟩
    have shown : ∀ o ∈ List.ofFn fun i => (logs i, os i), P o.1 o.2 := fun o hm => by
      obtain ⟨i, rfl⟩ := List.mem_ofFn.mp hm
      exact ho i
    have gathered := hn _ winner ds shown
    simp only [List.map_ofFn, Function.comp_def] at gathered
    exact gathered hp
  | finish => exact hs.choose_spec.2
  | @branch _ _ _ _ _ _ _ _ _ i act t hm ih =>
    obtain ⟨P, hP, hn⟩ := hs
    refine ⟨Function.update P i fun ds => P i (act.deed?.toList ++ ds), fun j => ?_, fun logs os winner ds ho hp => ?_⟩
    · by_cases e : j = i
      · subst e; simpa using ih (hP j)
      · simpa [Function.update_of_ne e] using hP j
    -- the branch has moved in front of everything else that the branches still show
    · refine (hn (Function.update logs i (act.deed?.toList ++ logs i)) os winner (act.deed?.toList ++ ds) (fun j => ?_)
        (hp.update i _)).mono fun es a ha => by rwa [List.append_assoc] at ha
      by_cases e : j = i
      · subst e; simpa using ho j
      · simpa [Function.update_of_ne e] using ho j
  | gather outcomes ho =>
    obtain ⟨P, hP, hn⟩ := hs
    have ended (i) : P i [] (outcomes i) := by simpa [ho i, Standing.Recounts] using hP i
    exact ⟨none, hn (fun _ => []) outcomes _ [] ended ⟨by simp, by simp⟩⟩

/-- What a process recounts is true of whatever one of its courses ends with, and of what is seen of it. -/
theorem Course.recounts {p : Process α} {due : Option (String × StepStatus)} {a : α} {acts : List Act}
    (h : Course limit b (.at p) w acts (.finished a) w') (hp : p.Recounts due Q) : Q (deedsIn acts) a := by
  have follow {s u : Standing α} {w w' : Shared} {acts : List Act} (h : Course limit b s w acts u w') :
      ∀ {Q : List Deed → α → Prop}, s.Recounts Q → u.Recounts fun ds => Q (deedsIn acts ++ ds) := by
    induction h with
    | stay => exact fun hs => hs
    | @move _ _ _ _ _ _ act acts hm _ ih =>
      intro Q hs
      have shown : deedsIn (act :: acts) = act.deed?.toList ++ deedsIn acts := by
        cases ha : act.deed? <;> simp [deedsIn, ha]
      simpa only [shown, List.append_assoc] using ih (hm.recounts hs)
    | elsewhere visits cancels _ ih => exact fun hs => ih hs
  have ended := follow h (Q := Q) ⟨due, hp⟩
  rwa [Standing.Recounts, List.append_nil] at ended

end Courses

/-! ## Walks -/

namespace Walk

variable {α β : Type} {s : Scope}

/-- Everything a walk from a scope can come to satisfies `Q`, together with what is seen until then. -/
def Recounts (w : Walk α) (s : Scope) (Q : List Deed → Except Halt α → Scope → Prop) : Prop :=
  (w.process s).Recounts none fun ds p => Q ds p.1 p.2

namespace Recounts

theorem mono {w : Walk α} {Q Q' : List Deed → Except Halt α → Scope → Prop} (h : w.Recounts s Q)
    (hQ : ∀ ds r s', Q ds r s' → Q' ds r s') : w.Recounts s Q' :=
  Process.Recounts.mono h fun ds p => hQ ds p.1 p.2

theorem bind {w : Walk α} {f : α → Walk β} {Q : List Deed → Except Halt β → Scope → Prop}
    (h : w.Recounts s fun ds r s' =>
      match r with
      | .ok a => (f a).Recounts s' fun es => Q (ds ++ es)
      | .error halt => Q ds (.error halt) s') : (w >>= f).Recounts s Q := by
  unfold Recounts
  rw [process_bind]
  refine Process.Recounts.bind (Process.Recounts.mono h fun ds p hp => ?_)
  obtain ⟨_ | _, _⟩ := p
  · exact ⟨rfl, by simpa using hp⟩
  · exact hp

theorem and {w : Walk α} {Q Q' : List Deed → Except Halt α → Scope → Prop} (h : w.Recounts s Q) (h' : w.Recounts s Q') :
    w.Recounts s fun ds r s' => Q ds r s' ∧ Q' ds r s' :=
  Process.Recounts.and h h'

theorem pure {a : α} {Q : List Deed → Except Halt α → Scope → Prop} (h : Q [] (.ok a) s) : (pure a : Walk α).Recounts s Q :=
  ⟨rfl, h⟩

theorem throw {halt : Halt} {Q : List Deed → Except Halt α → Scope → Prop} (h : Q [] (.error halt) s) :
    (throw halt : Walk α).Recounts s Q :=
  ⟨rfl, h⟩

theorem get {Q : List Deed → Except Halt Scope → Scope → Prop} (h : Q [] (.ok s) s) : (get : Walk Scope).Recounts s Q := ⟨rfl, h⟩

theorem modify {f : Scope → Scope} {Q : List Deed → Except Halt Unit → Scope → Prop} (h : Q [] (.ok ()) (f s)) :
    (modify f : Walk Unit).Recounts s Q :=
  ⟨rfl, h⟩

theorem request {q : Request} {Q : List Deed → Except Halt q.Reply → Scope → Prop} (hr : q.reported? = none)
    (hc : q.completed? = none) (h : ∀ r, Q (q.deed? r).toList (.ok r) s) : (Walk.request q).Recounts s Q :=
  ⟨hr, fun r => ⟨hc, by simpa using h r⟩⟩

theorem emit {e : Event} {Q : List Deed → Except Halt Unit → Scope → Prop} (he : e.completed? = none)
    (h : Q [.told (.event e)] (.ok ()) s) : (Walk.emit e).Recounts s Q :=
  request (q := .notify (.event e)) he rfl fun _ => h

/-- At a checkpoint the walk goes on as it is, or it is cancelled. -/
theorem checkpoint {Q : List Deed → Except Halt Unit → Scope → Prop} (h : Q [] (.ok ()) s) (hc : Q [] (.error .cancelled) s) :
    Walk.checkpoint.Recounts s Q := by
  refine bind (request rfl rfl fun stopped => ?_)
  cases stopped with
  | false => exact pure h
  | true => exact throw hc

end Recounts

/-- What is told when the step of a node begins. -/
def opening (n : Node) : List Deed := [.told (.started n.id n.kind), .told (.event (.nodeStarted n.id n.kind))]

/-- What is told when it is over. -/
def closing (n : Node) (status : StepStatus) : List Deed :=
  [.told (.completed n.id status), .told (.event (.nodeCompleted n.id status))]

namespace Recounts

variable {n : Node}

theorem beginStep {Q : List Deed → Except Halt OpenStep → Scope → Prop}
    (h : Q (opening n) (.ok (s.nextStep n.id)) (s.beginStep n.id)) : (Walk.beginStep n).Recounts s Q :=
  ⟨rfl, fun _ => ⟨rfl, fun _ => ⟨rfl, h⟩⟩⟩

/-- An end is told, and reported right afterwards. -/
theorem finishStep {step : OpenStep} {status : StepStatus} {report : StepReport}
    {Q : List Deed → Except Halt Unit → Scope → Prop} (h : Q (closing n status) (.ok ()) (s.finishStep step status report)) :
    (Walk.finishStep n step status report).Recounts s Q :=
  ⟨rfl, fun _ => ⟨rfl, fun _ => ⟨rfl, h⟩⟩⟩

theorem cancelStep {step : OpenStep} {Q : List Deed → Except Halt α → Scope → Prop}
    (h : Q (closing n .skipped) (.error .cancelled) (s.cancelStep step)) : (Walk.cancelStep n step).Recounts s Q :=
  ⟨rfl, fun _ => ⟨rfl, fun _ => ⟨rfl, h⟩⟩⟩

theorem failStep {step : OpenStep} {report : StepReport} {fault : Fault} {Q : List Deed → Except Halt α → Scope → Prop}
    (h : Q (closing n .failed) (.error (.failed n.id fault))
      (s.finishStep step .failed { report with error := some fault.message })) :
    (Walk.failStep n step report fault).Recounts s Q :=
  ⟨rfl, fun _ => ⟨rfl, fun _ => ⟨rfl, h⟩⟩⟩

theorem passThrough {Q : List Deed → Except Halt Unit → Scope → Prop}
    (h : Q (opening n ++ closing n .completed) (.ok ()) ((s.beginStep n.id).finishStep (s.nextStep n.id) .completed {})) :
    (Walk.passThrough n).Recounts s Q :=
  bind (beginStep (finishStep h))

/-- Branches that show and come to what satisfies `P` show it in some order. -/
theorem split {joining : Joining} {branches : List (Walk Flow)} {fork : Scope}
    {Q : List Deed → Except Halt Gathered → Scope → Prop} (P : List Deed → Outcome → Prop)
    (hP : ∀ b ∈ branches, b.Recounts fork fun ds r s' => P ds ⟨r, s'⟩)
    (hQ : ∀ (shown : List (List Deed × Outcome)) winner ds, (∀ o ∈ shown, P o.1 o.2) → Mingled (shown.map Prod.fst) ds →
      Q ds (.ok ⟨shown.map Prod.snd, winner⟩) s) :
    (Walk.split joining branches fork).Recounts s Q := by
  refine ⟨rfl, P, fun i => ?_, fun shown winner ds ho hp => ⟨rfl, by simpa using hQ shown winner ds ho hp⟩⟩
  refine Process.Recounts.bind (Process.Recounts.mono (hP _ (List.getElem_mem i.isLt)) fun ds p h => ?_)
  exact ⟨rfl, by simpa using h⟩

end Recounts

end Walk

end Execution

end Capability
