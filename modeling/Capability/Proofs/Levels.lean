/-
  Capability.Proofs.Levels — conditions read with one counter for the level of nesting.

  The parsers of conditions hand on the room that is left. Here the same grammar is read with a
  cell that counts the levels: it is raised in front of what sits deeper, lowered behind what was
  negated or in brackets, and set back behind a chain. Lowering it from zero is a mishap of its
  own, and so is a chain or a stack of brackets with more levels than there are.

  (1) `Counter.below_agrees`: both ways of keeping count find the same, and the counter is left
      as it was found.
  (2) `Counter.parseTokens_eq`: so no sequence of tokens ever leads to a mishap.
-/

import Capability.Proofs.Grammar

namespace Capability.Condition

namespace Counter

/-- What stops a parser that counts levels. -/
inductive Stop where
  | parse (e : ParseError)
  /-- A level was left that had not been entered. -/
  | underflow
  /-- More levels were entered than there are. -/
  | overrun
  deriving DecidableEq

/-- Work on the counter. -/
abbrev Counting := StateT Nat (Except Stop)

/-- A parser of the condition in front that counts levels. -/
abbrev Parser := List Token → Counting (Expr × List Token)

def fail {α : Type} (e : ParseError) : Counting α := fun _ => .error (.parse e)

def enter : Counting Unit := fun depth =>
  if maxNesting < depth + 1 then .error (.parse .tooDeep) else .ok ((), depth + 1)

def leave : Counting Unit
  | 0 => .error .underflow
  | depth + 1 => .ok ((), depth)

/-- The links after the first operand of a chain. There are no more of them than levels. -/
def links (op : Token → Option (Expr → Expr → Expr)) (operand : Parser) : Nat → Expr → Parser
  | _, l, [] => pure (l, [])
  | count, l, t :: ts =>
    match op t with
    | none => pure (l, t :: ts)
    | some mk => do
      enter
      match count with
      | 0 => fun _ => .error .overrun
      | count + 1 => do
        let (r, rest) ← operand ts
        links op operand count (mk l r) rest

/-- Operands joined by operators. The counter is set back behind the last of them. -/
def chain (op : Token → Option (Expr → Expr → Expr)) (operand : Parser) : Parser := fun ts => do
  let base ← get
  let (l, rest) ← operand ts
  let found ← links op operand maxNesting l rest
  set base
  pure found

/-- An operand after any number of one prefixed operator. -/
def prefixed (op : Token) (mk : Expr → Expr) (operand : Parser) : Parser
  | [] => operand []
  | t :: ts =>
    if t = op then do
      enter
      let (e, rest) ← prefixed op mk operand ts
      leave
      pure (mk e, rest)
    else operand (t :: ts)

/-- An operand, or two of them compared. -/
def compared (operand : Parser) : Parser := fun ts => do
  let (l, rest) ← operand ts
  match comparison rest with
  | none => pure (l, rest)
  | some (op, ts) => do
    let (r, rest) ← operand ts
    pure (.binary op l r, rest)

/-- Items up to the closing bracket. There are no more of them than tokens. -/
def listItems (item : Parser) : Nat → List Token → Counting (List Expr × List Token)
  | 0, _ => fail .unexpectedEnd
  | count + 1, ts => do
    let (e, rest) ← item ts
    match rest with
    | .comma :: more => do
      let (es, rest) ← listItems item count more
      pure (e :: es, rest)
    | .closeBracket :: rest => pure ([e], rest)
    | _ => fail .unclosedList

/-- A literal, a path, or brackets around `inner`. -/
def atom (inner : Parser) : Parser
  | [] => fail .unexpectedEnd
  | t :: ts =>
    match t with
    | .number x =>
      match numberValue x with
      | some v => pure (.literal v, ts)
      | none => fail (.nonFinite x)
    | .str s => pure (.literal (.str s), ts)
    | .yes => pure (.literal (.bool true), ts)
    | .no => pure (.literal (.bool false), ts)
    | .null => pure (.literal .null, ts)
    | .path segments => pure (.path segments, ts)
    | .openParen => do
      enter
      let (e, rest) ← inner ts
      match rest with
      | .closeParen :: rest => do
        leave
        pure (e, rest)
      | _ => fail .unclosedParen
    | .openBracket => do
      enter
      match ts with
      | .closeBracket :: rest => do
        leave
        pure (.list [], rest)
      | _ => do
        let (es, rest) ← listItems inner ts.length ts
        leave
        pure (.list es, rest)
    | t => fail (.unexpected t)

/-- The grammar over a parser of what is inside brackets. -/
def grammar (inner : Parser) : Parser :=
  let unary := prefixed .minus .neg (atom inner)
  let sum := chain sumOp (chain termOp unary)
  chain orOp (chain andOp (prefixed .not .not (compared sum)))

/-- The parser of conditions with brackets in less than so many brackets. -/
def below : Nat → Parser
  | 0 => fun _ _ => .error .overrun
  | bound + 1 => grammar (below bound)

/-- The tree of a sequence of tokens. -/
def parseTokens (ts : List Token) : Counting Expr :=
  if ts.isEmpty then fail .empty
  else do
    let (e, rest) ← below (maxNesting + 1) ts
    match rest with
    | [] => pure e
    | t :: _ => fail (.trailing t)

/-! ## Both counts agree -/

/-- What is found where the counter ends at `depth`. -/
def left {α : Type} (depth : Nat) : Except ParseError α → Except Stop (α × Nat)
  | .ok a => .ok (a, depth)
  | .error e => .error (.parse e)

/-- A parser that counts finds what one with the room that is left finds, where less than `bound`
    levels are left, and leaves the counter as it was. -/
def Agrees (bound : Nat) (counting : Parser) (parser : Condition.Parser) : Prop :=
  ∀ room depth ts, room + depth = maxNesting → room < bound → counting ts depth = left depth (parser room ts)

variable {bound room depth : Nat} {counting inner : Parser} {parser hollow : Condition.Parser}

variable {α β : Type} {x : Counting α} {f : α → Counting β}

/-- What goes on where the counter was left goes on from what was found there. -/
theorem bind_left {middle reached : Nat} {r : Except ParseError α} {g : α → Except ParseError β}
    (h : x depth = left middle r) (next : ∀ a, r = .ok a → f a middle = left reached (g a)) :
    (x >>= f) depth = left reached (r >>= g) := by
  cases r with
  | error e => simp only [bind, StateT.bind, h, left, Except.bind]
  | ok a => simpa only [bind, StateT.bind, h, left, Except.bind] using next a rfl

theorem enter_full {f : Unit → Counting α} (h : 0 + depth = maxNesting) :
    (enter >>= f) depth = .error (.parse .tooDeep) := by
  have full : enter depth = .error (.parse .tooDeep) := if_pos (by omega)
  simp only [bind, StateT.bind, full, Except.bind]

theorem enter_room {f : Unit → Counting α} (h : room + 1 + depth = maxNesting) :
    (enter >>= f) depth = f () (depth + 1) := by
  have free : enter depth = .ok ((), depth + 1) := if_neg (by omega)
  simp only [bind, StateT.bind, free, Except.bind]

/-- Links leave the counter where the last of them stands. -/
theorem links_agree {op : Token → Option (Expr → Expr → Expr)} (h : Agrees bound counting parser)
    (hd : room + depth = maxNesting) (hr : room < bound) {count : Nat} (hc : room ≤ count) (l : Expr) (ts : List Token) :
    ∃ reached, links op counting count l ts depth = left reached (Condition.links op parser room l ts) := by
  induction room generalizing count depth l ts with
  | zero =>
    cases ts with
    | nil => cases count <;> exact ⟨depth, rfl⟩
    | cons t ts =>
      cases hop : op t with
      | none => cases count <;> simp only [links, Condition.links, hop] <;> exact ⟨depth, rfl⟩
      | some mk => cases count <;> simp only [links, Condition.links, hop] <;> exact ⟨depth, enter_full hd⟩
  | succ room ih =>
    obtain ⟨count, rfl⟩ : ∃ k, count = k + 1 := ⟨count - 1, by omega⟩
    cases ts with
    | nil => exact ⟨depth, rfl⟩
    | cons t ts =>
      cases hop : op t with
      | none => simp only [links, Condition.links, hop]; exact ⟨depth, rfl⟩
      | some mk =>
        simp only [links, Condition.links, hop]
        rw [enter_room hd]
        have one := h room (depth + 1) ts (by omega) (by omega)
        cases found : parser room ts with
        | error e =>
          rw [found] at one
          exact ⟨depth, bind_left one fun _ h => by cases h⟩
        | ok r =>
          rw [found] at one
          obtain ⟨reached, others⟩ := ih (show room + (depth + 1) = maxNesting by omega) (by omega)
            (show room ≤ count by omega) (mk l r.1) r.2
          refine ⟨reached, bind_left one ?_⟩
          rintro _ ⟨⟩
          exact others

theorem chain_agrees {op : Token → Option (Expr → Expr → Expr)} (h : Agrees bound counting parser) :
    Agrees bound (chain op counting) (Condition.chain op parser) := by
  intro room depth ts hd hr
  show (counting ts >>= fun r => links op counting maxNesting r.1 r.2 >>= fun found _ => .ok (found, depth)) depth =
    left depth (parser room ts >>= fun r => Condition.links op parser room r.1 r.2)
  refine bind_left (h room depth ts hd hr) fun r _ => ?_
  obtain ⟨reached, others⟩ := links_agree h hd hr (show room ≤ maxNesting by omega) r.1 r.2
  rw [← bind_pure (Condition.links op parser room r.1 r.2)]
  exact bind_left others fun _ _ => rfl

theorem prefixed_agrees {op : Token} {mk : Expr → Expr} (h : Agrees bound counting parser) :
    Agrees bound (prefixed op mk counting) (Condition.prefixed op mk parser) := by
  intro room depth ts hd hr
  induction ts generalizing room depth with
  | nil => cases room <;> exact h _ _ _ hd hr
  | cons t ts ih =>
    cases room with
    | zero =>
      by_cases ht : t = op
      · simp only [prefixed, Condition.prefixed, if_pos ht]
        exact enter_full hd
      · simp only [prefixed, Condition.prefixed, if_neg ht]
        exact h 0 depth _ hd hr
    | succ room =>
      by_cases ht : t = op
      · simp only [prefixed, Condition.prefixed, if_pos ht]
        rw [enter_room hd]
        exact bind_left (ih room (depth + 1) (by omega) (by omega)) fun _ _ => rfl
      · simp only [prefixed, Condition.prefixed, if_neg ht]
        exact h (room + 1) depth _ hd hr

theorem compared_agrees (h : Agrees bound counting parser) : Agrees bound (compared counting) (Condition.compared parser) := by
  intro room depth ts hd hr
  refine bind_left (h room depth ts hd hr) ?_
  rintro ⟨l, rest⟩ -
  cases hc : comparison rest with
  | none => simp only [hc]; rfl
  | some found =>
    simp only [hc]
    exact bind_left (h room depth found.2 hd hr) fun _ _ => rfl

theorem listItems_agree (h : Agrees bound inner hollow) (hd : room + depth = maxNesting) (hr : room < bound) (count : Nat)
    (ts : List Token) : listItems inner count ts depth = left depth (Condition.listItems (hollow room) count ts) := by
  induction count generalizing ts with
  | zero => rfl
  | succ count ih =>
    refine bind_left (h room depth ts hd hr) ?_
    rintro ⟨e, rest⟩ -
    cases rest with
    | nil => rfl
    | cons u us =>
      cases u
      case comma => exact bind_left (ih us) fun _ _ => rfl
      all_goals rfl

/-- Brackets take a level on the way in and give it back on the way out. -/
theorem atom_agrees (h : Agrees bound inner hollow) : Agrees (bound + 1) (atom inner) (Condition.atom hollow) := by
  intro room depth ts hd hr
  cases ts with
  | nil => rfl
  | cons t ts =>
    cases t
    case number x =>
      cases hv : numberValue x <;> simp only [atom, Condition.atom, hv] <;> rfl
    case openParen =>
      cases room with
      | zero => exact enter_full hd
      | succ room =>
        simp only [atom, Condition.atom]
        rw [enter_room hd]
        refine bind_left (h room (depth + 1) ts (by omega) (by omega)) ?_
        rintro ⟨e, rest⟩ -
        cases rest with
        | nil => rfl
        | cons u us => cases u <;> rfl
    case openBracket =>
      cases room with
      | zero => exact enter_full hd
      | succ room =>
        have items := listItems_agree h (show room + (depth + 1) = maxNesting by omega) (by omega) ts.length ts
        simp only [atom, Condition.atom]
        rw [enter_room hd]
        cases ts with
        | nil => rfl
        | cons u us =>
          cases u
          case closeBracket => rfl
          all_goals exact bind_left items fun _ _ => rfl
    all_goals rfl

theorem grammar_agrees (h : Agrees bound inner hollow) :
    Agrees (bound + 1) (grammar inner) (Condition.grammar hollow) :=
  have sum := chain_agrees (chain_agrees (prefixed_agrees (atom_agrees h)))
  chain_agrees (chain_agrees (prefixed_agrees (compared_agrees sum)))

/-- Both ways of keeping count find the same. -/
theorem below_agrees (bound : Nat) : Agrees bound (below bound) (Condition.below bound) := by
  induction bound with
  | zero => intro room depth ts _ hr; cases hr
  | succ bound ih => exact grammar_agrees ih

/-- A reader that starts at no level meets no mishap, and ends at no level. -/
theorem parseTokens_eq (ts : List Token) : parseTokens ts 0 = left 0 (Condition.parseTokens ts) := by
  by_cases he : ts.isEmpty
  · simp only [parseTokens, Condition.parseTokens, if_pos he]
    rfl
  · simp only [parseTokens, Condition.parseTokens, if_neg he]
    refine bind_left (below_agrees (maxNesting + 1) maxNesting 0 ts rfl (by omega)) ?_
    rintro ⟨e, rest⟩ -
    cases rest <;> rfl

end Counter

/-- Every finite number is a condition by itself, with one literal. -/
theorem atomic_of_isFinite {x : Float} (h : x.isFinite) : ∃! v, Atomic (.number x) (.literal v) := by
  obtain ⟨v, hv, unique⟩ := Denotes.exists_unique h
  refine ⟨v, .number hv, fun w hw => ?_⟩
  cases hw with
  | number hw => exact unique w hw

/-- A sequence of tokens is a condition with a tree just when the grammar derives it with that tree
    and nests it no deeper than 256 levels. What is nested deeper is turned away for that. Every finite
    number has one literal, the integer it is or its double. A reader that counts the levels finds the
    same, leaves its counter at zero and never lowers it below. -/
theorem conditions_are_the_sentences_that_fit (ts : List Token) :
    (∀ e, parseTokens ts = .ok e ↔ ∃ D : Sentence ts e, D.nesting 0 ≤ 256) ∧
    (∀ e, ∀ D : Sentence ts e, 256 < D.nesting 0 →
      parseTokens ts = .error .tooDeep ∧ ParseError.tooDeep.message = "expression nested too deeply") ∧
    (∀ x : Float, x.isFinite → ∃! v, Atomic (.number x) (.literal v)) ∧
    Counter.parseTokens ts 0 = Counter.left 0 (parseTokens ts) ∧
    Counter.parseTokens ts 0 ≠ .error .underflow := by
  refine ⟨fun e => parseTokens_eq_ok_iff, fun e D deep => ⟨?_, rfl⟩, fun x => atomic_of_isFinite,
    Counter.parseTokens_eq ts, ?_⟩
  · exact (parseTokens_sentence D).trans (if_neg (Nat.not_le.mpr deep))
  · rw [Counter.parseTokens_eq]
    cases parseTokens ts <;> simp [Counter.left]

/-- A whole number is read as an integer. -/
example : parseTokens [.path ["a", "b"], .ge, .number 2.0] = .ok (.binary .ge (.path ["a", "b"]) (.literal (.int 2))) :=
  rfl

end Capability.Condition
