/-
  Capability.Proofs.Separation — white space between conditions.

  A text that does not leave quotes open is over at the white space behind it: whatever is being
  read there ends as it would at the end of the text, and what follows is read as if nothing stood in
  front of it. So texts are put together like their tokens, as long as there is white space in
  between; without it, signs and words may run into one another.

  (1) `scan_separated`: what white space separates is scanned part by part.
  (2) `tokenize_separated`: so the tokens of two texts are those of the first and then those of the
      second, and of two errors the first one counts.
  (3) `guard_parsed`: the condition that a run has of an edge is, but for its spelling, the one that
      the check of the graph has.
  (4) `white_space_only_separates`.
-/

import Capability.Proofs.Malformed

namespace Capability

namespace Condition

open Text (isBlank)

/-! ## Texts -/

/-- Of what white space separates, each part is scanned as if it stood alone; only quotes that the
    first one leaves open reach beyond it. -/
theorem scan_separated {c : Char} (blank : isBlank c = true) (cs ds : List Char) {p : Pending}
    (closed : scan p cs ≠ .error .unterminated) : scan p (cs ++ c :: ds) = together (scan p cs) (scan .nothing ds) := by
  -- What is pending is arbitrary, since the first text may end anywhere within a token.
  induction cs generalizing p with
  | nil =>
    have outside : p.isQuoting = false := Bool.eq_false_iff.mpr fun h => closed (Pending.close_of_isQuoting h)
    exact scan_blank_cons blank outside ds
  | cons d cs ih =>
    rw [scan_cons] at closed
    rw [List.cons_append, scan_cons, scan_cons]
    cases hs : p.next d with
    | error e => rfl
    | ok s =>
      rw [hs] at closed
      have rest : scan s.2 (cs ++ c :: ds) = together (scan s.2 cs) (scan .nothing ds) :=
        ih fun h => closed (congrArg (together (.ok s.1)) h)
      calc together (.ok s.1) (scan s.2 (cs ++ c :: ds))
          = together (.ok s.1) (together (scan s.2 cs) (scan .nothing ds)) := congrArg _ rest
        _ = together (together (.ok s.1) (scan s.2 cs)) (scan .nothing ds) := (together_assoc _ _ _).symm

/-- Two texts with white space in between have the tokens of the first and then those of the second,
    unless the first one leaves quotes open. -/
theorem tokenize_separated {a b w : String} (closed : tokenize a ≠ .error .unterminated) (gap : w ≠ "")
    (blank : ∀ c ∈ w.toList, isBlank c = true) : tokenize (a ++ w ++ b) = together (tokenize a) (tokenize b) := by
  obtain ⟨c, ws, hw⟩ := List.exists_cons_of_ne_nil fun h => gap (String.toList_eq_nil_iff.mp h)
  rw [hw] at blank
  have parts : (a ++ w ++ b).toList = a.toList ++ c :: (ws ++ b.toList) := by
    simp [hw]
  have behind : scan .nothing (ws ++ b.toList) = tokenize b := scan_blank_append (fun d hd => blank d (.tail _ hd)) _
  rw [tokenize, parts, scan_separated (blank c (.head _)) _ _ closed, behind]
  rfl

/-- Without white space in between, the end of one and the beginning of the other may be one token. -/
example : tokenize ("x <" ++ "= 0.5") = .ok [.path ["x"], .le, .number 0.5] := by decide +kernel

/-- White space in quotes that are left open is text, and what is behind it as well. -/
example : tokenize ("'a" ++ " " ++ "b'") = .ok [.str "a b"] := by decide +kernel

/-! ## Edges -/

/-- What a run has of the condition of an edge has the tree, or the error, of what is written there. -/
theorem guard_parsed {x : Edge} {c : String} (h : x.guard? = some c) :
    ∃ written, x.condition = some written ∧ parse c = parse written := by
  obtain ⟨written, hw, rfl⟩ := Edge.written_of_guard h
  exact ⟨written, hw, parse_trim written⟩

end Condition

namespace Execution

open Condition (Token tokenize)
open Lint (Place)
open Text (isBlank)

/-- Texts that have tokens are put together like their tokens if there is white space in between.
    White space around a text changes neither its tokens nor its error. So the condition of an edge
    that a run evaluates, without the white space around it, and the one that the check of its graph
    looks at have the same tree or the same error. If it is an error, a run that evaluates the one
    records the message with which the warning about the other ends. -/
theorem white_space_only_separates :
    (∀ {a b w : String} {ts us : List Token}, tokenize a = .ok ts → tokenize b = .ok us → w ≠ "" →
      (∀ c ∈ w.toList, isBlank c = true) → tokenize (a ++ w ++ b) = .ok (ts ++ us)) ∧
    (∀ {v w : String}, (∀ c ∈ v.toList, isBlank c = true) → (∀ c ∈ w.toList, isBlank c = true) →
      ∀ a, tokenize (v ++ a ++ w) = tokenize a) ∧
    ∀ {x : Edge} {evaluated : String}, x.guard? = some evaluated → ∃ checked, x.condition = some checked ∧
      Condition.parse evaluated = Condition.parse checked ∧
      ∀ e, Condition.parse evaluated = .error e →
        (∀ node, Walk.holds node evaluated = Walk.without node evaluated e (pure false)) ∧
        ∀ g : Graph, x ∈ g.edges → (Place.edge x.source x.target).warning checked e ∈ g.validate.diagnostics := by
  refine ⟨fun {a b w ts us} ha hb gap blank => ?_, fun front behind a => Condition.tokenize_surrounded front behind a,
    fun {x evaluated} hx => ?_⟩
  · have closed : tokenize a ≠ .error .unterminated := by simp [ha]
    rw [Condition.tokenize_separated closed gap blank, ha, hb]
    rfl
  · obtain ⟨checked, hc, same⟩ := Condition.guard_parsed hx
    refine ⟨checked, hc, same, fun e he => ⟨fun node => holds_malformed he node, fun g hg => ?_⟩⟩
    exact (Graph.syntax_warning_iff.mpr ⟨_, checked, e, .condition hg hc, same ▸ he, rfl⟩).1

/-- White space keeps two signs apart that are one without it, it does not close quotes, and it does
    not matter around the condition of an edge. -/
theorem a_gap_keeps_signs_apart :
    tokenize "x <" = .ok [.path ["x"], .lt] ∧ tokenize "= 0.5" = .ok [.eq, .number 0.5] ∧
    tokenize ("x <" ++ "\t\u3000" ++ "= 0.5") = .ok [.path ["x"], .lt, .eq, .number 0.5] ∧
    tokenize ("\n" ++ "'open" ++ " ") = .error .unterminated ∧
    ∃ x ∈ misspelt.graph.edges, x.condition = some "x == " ∧ x.guard? = some "x ==" ∧
      Condition.parse "x ==" = Condition.parse "x == " ∧
      ∃ d ∈ misspelt.graph.validate.diagnostics, d.message = "Cannot evaluate condition 'x == ': unexpected end of expression" := by
  obtain ⟨separates, surrounds, edges⟩ := white_space_only_separates
  have left : tokenize "x <" = .ok [.path ["x"], .lt] := by decide +kernel
  have right : tokenize "= 0.5" = .ok [.eq, .number 0.5] := by decide +kernel
  have quotes : tokenize "'open" = .error .unterminated := by decide +kernel
  let x : Edge := { source := "start", target := "a", condition := some "x == " }
  have guarded : x.guard? = some "x ==" := by decide +kernel
  obtain ⟨checked, hc, same, fails⟩ := edges guarded
  obtain rfl : "x == " = checked := Option.some.inj hc
  have warned := (fails (.parse .unexpectedEnd) rfl).2 misspelt.graph (.head _)
  have gap : ∀ c ∈ "\t\u3000".toList, isBlank c = true := List.all_eq_true.mp (by decide +kernel)
  have front : ∀ c ∈ "\n".toList, isBlank c = true := List.all_eq_true.mp (by decide +kernel)
  have behind : ∀ c ∈ " ".toList, isBlank c = true := List.all_eq_true.mp (by decide +kernel)
  exact ⟨left, right, separates left right (by decide) gap, (surrounds front behind _).trans quotes, x, .head _, rfl,
    guarded, same, _, warned, by decide +kernel⟩

end Execution

end Capability
