/-
  Capability.Rehearsal.Script — runs whose collaborators follow a script.

  Each skill has a list of replies that are used up call by call, and so have questions. When
  a list is used up, calls of skills are answered by a catalog, or by a text that names the
  skill; questions are answered with the next of some prepared answers, or with what
  somebody would answer who agrees to everything. All that happens is written down.
-/

import Capability.Execution.Clock

namespace Capability.Rehearsal

open Json Execution

/-- What a scripted reply says. -/
inductive Content where
  | value (v : Json)
  /-- The call itself. -/
  | echo
  /-- A variable of the call, null if there is none. -/
  | lookup (name : String)
  /-- A fault, given the node and the skill of the call. -/
  | fault (f : (node skill : String) → Fault)
  deriving Inhabited

/-- A scripted reply to a call. -/
structure Reply where
  delay : Nat := 0
  cancels : Bool := false
  /-- Whether the reply never comes, after all else has happened. -/
  hangs : Bool := false
  content : Content
  deriving Inhabited

/-- What a reply says to a call of a skill. -/
def Content.toSkill (c : Content) (i : Invocation) : Except Fault Json :=
  match c with
  | .value v => .ok v
  | .echo => .ok i.toJson
  | .lookup name => .ok (ofOption (i.vars.lookup name))
  | .fault f => .error (f i.node i.skill)

/-- What a reply says to a question, which has neither variables nor a skill. -/
def Content.toQuestion (c : Content) (q : Question) : Except Fault Json :=
  match c with
  | .value v => .ok v
  | .echo | .lookup _ => .ok .null
  | .fault f => .error (f q.node "")

/-- The response that a reply with some content makes. -/
def Reply.response (r : Reply) (outcome : Except Fault Json) : Response :=
  ⟨r.delay, r.cancels, if r.hangs then none else some outcome⟩

/-- What the collaborators have still to say, and what happened so far. -/
structure Script where
  skills : Keyed (List Reply) := []
  /-- Answers for skills without replies. -/
  catalog : Option Catalog := none
  questions : List Reply := []
  /-- Whether every question without a reply is simply agreed to. -/
  agrees : Bool := false
  answers : List Json := []
  deriving Inhabited

/-- What happened; the times are milliseconds. While it is written, each list has the latest
    first. -/
structure Log where
  calls : List (Nat × Invocation) := []
  questions : List (Nat × Question) := []
  started : List (String × NodeKind) := []
  completed : List (String × StepStatus) := []
  events : List Event := []
  deriving Inhabited

/-- A script and a log. -/
structure Memory where
  script : Script
  log : Log := {}
  deriving Inhabited

/-- The reply to a call of a skill that has none in the script. -/
def Script.unscripted (s : Script) (i : Invocation) : Except Fault Json :=
  match s.catalog with
  | some catalog => catalog.invoke i.node i.skill
  | none => .ok (.str (i.skill ++ "_ok"))

/-- Answers a call of a skill. -/
def Script.callSkill (s : Script) (i : Invocation) : Response × Script :=
  match s.skills.lookup i.skill with
  | some (r :: rest) => (r.response (r.content.toSkill i), { s with skills := s.skills.insert i.skill rest })
  | _ => ({ outcome := some (s.unscripted i) }, s)

/-- Answers a question. -/
def Script.answer (s : Script) (q : Question) : Response × Script :=
  match s.questions with
  | r :: rest => (r.response (r.content.toQuestion q), { s with questions := rest })
  | [] =>
    if s.agrees then ({ outcome := some (.ok q.defaultAnswer) }, s)
    else match s.answers with
      | a :: rest => ({ outcome := some (.ok a) }, { s with answers := rest })
      | [] => ({ outcome := some (.ok q.defaultAnswer) }, s)

def Memory.respond (m : Memory) (call : Call) (now : Nat) : Response × Memory :=
  match call with
  | .skill i =>
    let (r, script) := m.script.callSkill i
    (r, { script, log := { m.log with calls := (now, i) :: m.log.calls } })
  | .question q =>
    let (r, script) := m.script.answer q
    (r, { script, log := { m.log with questions := (now, q) :: m.log.questions } })

def Log.add (l : Log) : Notice → Log
  | .event e => { l with events := e :: l.events }
  | .started node kind => { l with started := (node, kind) :: l.started }
  | .completed node status => { l with completed := (node, status) :: l.completed }

/-- The log with each list in the order of what happened. -/
def Log.finish (l : Log) : Log where
  calls := l.calls.reverse
  questions := l.questions.reverse
  started := l.started.reverse
  completed := l.completed.reverse
  events := l.events.reverse

/-- Collaborators that follow the script in their memory and keep the log. -/
def collaborators : Collaborators Memory where
  respond call now m := m.respond call now
  told n _ m := (false, { m with log := m.log.add n })

/-- A rehearsed run, with its log finished. -/
structure Report where
  result : RunResult
  log : Log
  /-- Whether the run was cancelled from outside. -/
  withdrawn : Bool
  deriving Inhabited

/-- How a rehearsal ends that is never over. -/
inductive Failure where
  | fault (f : Fault)
  /-- The run waits for something that never happens. -/
  | stuck
  deriving DecidableEq, Repr

/-- Rehearses a run. It is cancelled after `withdrawal` milliseconds, and when the time
    available to it is used up. -/
def rehearse (s : Setting) (c : Context) (script : Script) (withdrawal : Option Nat) : Except Failure Report :=
  match run s c with
  | .error f => .error (.fault f)
  | .ok p =>
    let deadlines : Deadlines := ⟨withdrawal, c.availableTime.map Duration.ticks⟩
    match p.play collaborators s.config.maxVisits deadlines s.waits { script } with
    | none => .error .stuck
    | some (o, st) => .ok ⟨o.result s.graph st.now, st.memory.log.finish, st.withdrawn⟩

/-- A script in which every skill succeeds and every question is agreed to. -/
def Script.simulated : Script := { catalog := some (.simulated []), agrees := true }

end Capability.Rehearsal
