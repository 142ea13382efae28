/-
  Capability.CommandLine.Console — a person at a terminal who is told of the progress of a run
  and answers its questions.

  A question is put as soon as nothing else can move, and takes a moment to answer; every
  question takes the next line that was typed, without the blanks around it. When a line is
  missing that may still be typed, what was printed up to that question is all that counts:
  the run has to be made again when the line is there.
-/

import Capability.CommandLine.Arguments
import Capability.Execution.Clock
import Capability.Text.Blank

namespace Capability.CommandLine

open Json Execution

/-- What was typed but not read, and what was printed. -/
structure Console where
  typed : List String
  /-- Whether nothing more is going to be typed. -/
  ended : Bool := true
  printed : List String := []
  /-- Lines that are printed when a later moment has come. -/
  upcoming : List String := []
  moment : Nat := 0
  /-- Whether a question lacks its line. -/
  starving : Bool := false
  /-- What was printed up to the question that lacks its line. -/
  shown : Option (List String) := none
  deriving Inhabited

namespace Console

/-- Prints what is upcoming. -/
def flush (c : Console) : Console :=
  let printed := c.printed ++ c.upcoming
  { c with printed, upcoming := [], shown := c.shown.or (if c.starving then some printed else none) }

/-- Brings the console to a moment. -/
def advance (c : Console) (now : Nat) : Console :=
  if c.moment < now then { c.flush with moment := now } else c

def print (c : Console) (line : String) : Console := { c with printed := c.printed ++ [line] }

/-- What is printed for a question. -/
def prompt (q : Question) : List String :=
  ("\n" ++ q.prompt) :: match q.kind with
    | .confirm => ["  [y/n]"]
    | .select => q.options.zipIdx.map fun p => "  [" ++ toString (p.2 + 1) ++ "] " ++ p.1
    | .input => match q.suggestion with
      | some s => ["  (default: " ++ s ++ ")"]
      | none => []

/-- What a typed line means as the answer to a question. -/
def interpret (q : Question) (line : String) : Json :=
  match q.kind with
  | .confirm => .bool (["y", "yes", "true", ""].contains (String.ofList (line.toList.map Char.toLower)))
  | .select =>
    match number? line with
    | some n => .str (if n = 0 then line else (q.options[n - 1]?).getD line)
    | none => .str line
  | .input => .str (if line = "" then q.suggestion.getD "" else line)

/-- Puts a question. -/
def ask (c : Console) (q : Question) : Response × Console :=
  let line := (c.typed.head?).getD ""
  ({ delay := 1, outcome := some (.ok (interpret q (Text.trim line))) },
    { c with typed := c.typed.tail, upcoming := c.upcoming ++ prompt q,
             starving := c.starving || (c.typed.isEmpty && !c.ended) })

/-- Prints the beginning or the end of a step. -/
def told (c : Console) : Notice → Console
  | .started node kind => c.print ("-> " ++ node ++ " (" ++ kind.name ++ ")")
  | .completed node status => c.print ("   " ++ node ++ ": " ++ status.title)
  | .event _ => c

end Console

/-- The catalog answers for skills; questions are put at the console, or simply agreed to
    without a word if nobody is to be bothered. -/
def collaborators (catalog : Catalog) (agrees : Bool) : Collaborators Console where
  respond call now c :=
    match call with
    | .skill i => ({ outcome := some (catalog.invoke i.node i.skill) }, c)
    | .question q => if agrees then ({ outcome := some (.ok q.defaultAnswer) }, c) else (c.advance now).ask q
  told n now c := (false, if agrees then c else (c.advance now).told n)

end Capability.CommandLine
