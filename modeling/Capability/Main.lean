/-
  Capability.Main — the program: reads the files a command line names, and prints what the
  command leaves behind.
-/

import Capability.CommandLine.Command

open Capability.CommandLine

/-- The content of a file, if it can be read. -/
def readFile? (path : String) : IO (Option String) := do
  try
    pure (some (← IO.FS.readFile path))
  catch _ => pure none

/-- Carries out a command line and asks for another line whenever one is missing; the lines
    printed so far are not printed again. -/
partial def converse (args : List String) (w : Surroundings) (printed : Nat) : IO UInt32 := do
  let p := execute args w
  for line in p.lines.drop printed do
    IO.println line
  if p.awaits then
    let line ← (← IO.getStdin).getLine
    let w := if line.isEmpty then { w with ended := true } else { w with typed := w.typed ++ [line] }
    converse args w p.lines.length
  else
    if let some complaint := p.complaint then
      IO.eprintln complaint
    pure p.status.toUInt32

def main (args : List String) : IO UInt32 := do
  let files ← (pathsRead args).mapM fun path => do pure (path, ← readFile? path)
  converse args { file? := fun path => (files.lookup path).join, ended := false } 0
