/-
  Capability.Proofs.Depth — how deep the trees of conditions are, against how deep their sentences
  are nested.

  The nesting of a sentence is bounded, but the links of a chain are put on top of the operands in
  front of them, and the first operand of a chain is read where nothing of the chain has been
  counted. So each of the four kinds of chains inside one pair of brackets may add a full count of
  levels to the same path.

  (1) `Derivation.depth_le`: how deep the tree of a phrase is at most, by the kind of the phrase
      and its nesting.
  (2) `Derivation.levels_le_nesting`: the tree is no deeper than the nesting where no operand of a
      chain is deeper than what comes behind it.
  (3) `exists_deepest`: the bound is reached at every nesting.
  (4) `Expr.evalWithin_eq`: evaluation nests as deep as the tree.
-/

import Mathlib.Tactic.Linarith
import Capability.Condition.Eval
import Capability.Proofs.Grammar

namespace Capability.Condition

/-! ## The depth of a tree -/

/-- Whether an operator computes rather than compares. -/
def BinaryOp.isArithmetic : BinaryOp → Bool
  | .add | .sub | .mul | .div | .rem => true
  | _ => false

mutual

/-- The most that the nodes on a path from the root to a leaf count, where a comparison counts
    `compare`, a leaf nothing and every other node one. -/
def Expr.depth (compare : Nat) : Expr → Nat
  | .literal _ | .path _ => 0
  | .list items => Expr.depthItems compare items + 1
  | .not e | .neg e => e.depth compare + 1
  | .and l r | .or l r => max (l.depth compare) (r.depth compare) + 1
  | .binary op l r => max (l.depth compare) (r.depth compare) + if op.isArithmetic then 1 else compare

def Expr.depthItems (compare : Nat) : List Expr → Nat
  | [] => 0
  | e :: es => max (e.depth compare) (Expr.depthItems compare es)

end

/-- The levels of a tree: comparisons count nothing. -/
abbrev Expr.levels (e : Expr) : Nat := e.depth 0

/-- The nodes on the longest path of a tree, its leaf included. -/
def Expr.height (e : Expr) : Nat := e.depth 1 + 1

namespace Derivation

variable {p : Phrase} {c : Chain} {ts us : List Token} {t : Token} {e l r : Expr} {compare : Nat}

theorem joins_eq_zero (D : Derivation p ts e) (h : ∀ c, p ≠ .chain c) : D.joins = 0 := by
  cases D with
  | link => exact absurd rfl (h _)
  | _ => rfl

/-- Every link is one level on top of both its sides. -/
theorem depth_of_joins (h : c.Joins t l r e) : e.depth compare = max (l.depth compare) (r.depth compare) + 1 := by
  cases h <;> simp [Expr.depth, BinaryOp.isArithmetic]

theorem depth_of_atomic (h : Atomic t e) : e.depth compare = 0 := by
  cases h <;> simp only [Expr.depth]

/-- A comparison counts once on top of both its sides. -/
theorem depth_of_spells {op : BinaryOp} (h : Spells ts op) :
    (Expr.binary op l r).depth compare = max (l.depth compare) (r.depth compare) + compare := by
  cases h <;> simp [Expr.depth, BinaryOp.isArithmetic]

end Derivation

/-! ## The deepest trees -/

/-- How deep what is in brackets, or an operand of the tightest chain, may be where there are
    `room` levels: the brackets take one of them and add one, and each kind of chain inside them
    adds the rest. -/
def bracketed (compare : Nat) : Nat → Nat
  | 0 => 0
  | room + 1 => bracketed compare room + 4 * room + compare + 1

theorem bracketed_add (compare room : Nat) : bracketed compare room + room = 2 * room ^ 2 + compare * room := by
  induction room with
  | zero => rfl
  | succ room ih =>
    rw [bracketed]
    linarith

/-- More room makes for a tree that is deeper by at least as much. -/
theorem bracketed_le (compare room more : Nat) : bracketed compare room + more ≤ bracketed compare (room + more) := by
  induction more with
  | zero => exact le_refl _
  | succ more ih =>
    rw [← Nat.add_assoc, ← Nat.add_assoc room, bracketed]
    omega

/-- How deep a phrase may be where there are `room` levels, apart from its own links. Every kind of
    chain that may stand in an operand of it adds a full count of levels. -/
def Phrase.deepest (compare : Nat) (p : Phrase) (room : Nat) : Nat :=
  bracketed compare room +
    match p with
    | .atom | .unary | .chain .term => 0
    | .chain .sum => room
    | .cmp | .not | .chain .and => 2 * room + compare
    | .chain .or => 3 * room + compare
    | .items => 4 * room + compare + 1

theorem Phrase.deepest_le (compare : Nat) (p : Phrase) (room more : Nat) :
    p.deepest compare room + more ≤ p.deepest compare (room + more) := by
  have h := bracketed_le compare room more
  simp only [deepest]
  split <;> omega

namespace Derivation

variable {p : Phrase} {c : Chain} {ts : List Token} {e : Expr} {compare room : Nat}

/-- The links of an operand count toward the chain around it. -/
theorem operand_deepest (D : Derivation c.operand ts e) (h : D.nesting 0 ≤ room) :
    c.operand.deepest compare room + D.joins ≤ (Phrase.chain c).deepest compare room := by
  have own := D.joins_le_nesting
  have unchained := D.joins_eq_zero
  generalize D.joins = links at own unchained ⊢
  cases c with
  | or | sum => simp only [Chain.operand, Phrase.deepest]; omega
  | and | term =>
    rw [unchained (by simp [Chain.operand])]
    exact le_refl _

/-- What stands some levels further in has so much less room. -/
theorem exists_room (D : Derivation p ts e) {levels : Nat} (h : D.nesting (0 + levels) ≤ room) :
    ∃ rest, room = rest + levels ∧ D.nesting 0 ≤ rest := by
  rw [nesting_eq] at h
  exact ⟨room - levels, by omega, by omega⟩

/-- The tree of a phrase that fits into its room is no deeper than such a phrase may be and its
    own links on top. -/
theorem depth_le (D : Derivation p ts e) (h : D.nesting 0 ≤ room) :
    e.depth compare ≤ p.deepest compare room + D.joins := by
  induction D generalizing room with
  | single a ih => exact (ih h).trans (a.operand_deepest h)
  | @link c ts us t l r e hj a b iha ihb =>
    rw [nesting, Nat.max_le] at h
    -- The right side has less room, by what its links take, than the links on top of it add.
    obtain ⟨rest, rfl, fits⟩ := b.exists_room h.2
    have left := iha h.1
    have right := (ihb fits).trans (b.operand_deepest fits)
    have wider := (Phrase.chain c).deepest_le compare rest (a.joins + 1)
    rw [depth_of_joins hj, joins]
    omega
  | not a ih =>
    rw [nesting] at h
    obtain ⟨rest, rfl, fits⟩ := a.exists_room h
    have inside := ih fits
    have wider := Phrase.not.deepest_le compare rest 1
    rw [a.joins_eq_zero (by simp)] at inside
    rw [a.not.joins_eq_zero (by simp), Expr.depth]
    omega
  | neg a ih =>
    rw [nesting] at h
    obtain ⟨rest, rfl, fits⟩ := a.exists_room h
    have inside := ih fits
    have wider := Phrase.unary.deepest_le compare rest 1
    rw [a.joins_eq_zero (by simp)] at inside
    rw [a.neg.joins_eq_zero (by simp), Expr.depth]
    omega
  | asserted a ih | plain a ih =>
    have inside := ih h
    rwa [a.joins_eq_zero (by simp)] at inside
  | alone a ih =>
    have inside := ih h
    have own := a.joins_le_nesting
    simp only [nesting, Phrase.deepest, joins] at h inside ⊢
    omega
  | compared hs a b iha ihb =>
    rw [nesting, Nat.max_le] at h
    have left := iha h.1
    have right := ihb h.2
    have ownl := a.joins_le_nesting
    have ownr := b.joins_le_nesting
    simp only [Phrase.deepest, joins] at left right ⊢
    rw [depth_of_spells hs]
    omega
  | atomic ha => simp [depth_of_atomic ha]
  | paren a ih =>
    rw [nesting] at h
    obtain ⟨rest, rfl, fits⟩ := a.exists_room h
    have inside := ih fits
    have own := a.joins_le_nesting
    simp only [Phrase.deepest, bracketed] at inside ⊢
    omega
  | emptyList =>
    rw [nesting] at h
    obtain ⟨rest, rfl⟩ : ∃ rest, room = rest + 1 := ⟨room - 1, by omega⟩
    simp only [Expr.depth, Expr.depthItems, Phrase.deepest, bracketed]
    omega
  | list a ih =>
    rw [nesting] at h
    obtain ⟨rest, rfl, fits⟩ := a.exists_room h
    have inside := ih fits
    rw [a.joins_eq_zero (by simp)] at inside
    simp only [Phrase.deepest, bracketed] at inside ⊢
    omega
  | lastItem a ih =>
    have inside := ih h
    have own := a.joins_le_nesting
    simp only [nesting, Phrase.deepest, Expr.depth, Expr.depthItems, joins] at h inside ⊢
    omega
  | item a b iha ihb =>
    rw [nesting, Nat.max_le] at h
    have first := iha h.1
    have others := ihb h.2
    have own := a.joins_le_nesting
    rw [b.joins_eq_zero (by simp)] at others
    simp only [Phrase.deepest, Expr.depth, Expr.depthItems, joins] at first others ⊢
    omega

end Derivation

/-- How deep the tree of a condition is at most. -/
theorem Derivation.depth_le_of_nesting (D : Sentence ts e) (compare : Nat) {room : Nat} (h : D.nesting 0 ≤ room) :
    e.depth compare ≤ 2 * room ^ 2 + 3 * room + compare * (room + 1) := by
  have deep : e.depth compare ≤ _ + D.joins := D.depth_le h
  have own := D.joins_le_nesting
  have inside := bracketed_add compare room
  simp only [Phrase.deepest] at deep
  rw [Nat.mul_succ]
  omega

/-! ## Chains that lean to no side -/

namespace Derivation

variable {p : Phrase} {ts : List Token} {e : Expr}

/-- What stands in front of a link is no deeper than the links in it and the operand behind it. -/
def Even {p : Phrase} {ts : List Token} {e : Expr} (D : Derivation p ts e) : Prop :=
  match D with
  | @link _ _ _ _ l r _ _ a b => l.levels ≤ r.levels + a.joins ∧ a.Even ∧ b.Even
  | .single a | .asserted a | .alone a | .plain a | .lastItem a | .not a | .neg a | .paren a | .list a => a.Even
  | .compared _ a b | .item a b => a.Even ∧ b.Even
  | .atomic _ | .emptyList => True

/-- A tree of even chains is no deeper than its sentence is nested. -/
theorem levels_le_nesting (D : Derivation p ts e) (h : D.Even) :
    e.levels ≤ D.nesting 0 + if p = .items then 1 else 0 := by
  induction D with
  | single a ih => simpa [operand_ne_items] using ih h
  | link hj a b iha ihb =>
    obtain ⟨even, ha, hb⟩ := h
    have right := ihb hb
    simp only [Expr.levels, if_neg (operand_ne_items _)] at even right ⊢
    rw [depth_of_joins hj, nesting, b.nesting_eq]
    omega
  | not a ih | neg a ih =>
    have inside := ih h
    simp only [Expr.levels, Expr.depth, nesting, a.nesting_eq (0 + 1), reduceCtorEq, if_false] at inside ⊢
    omega
  | asserted a ih | plain a ih | alone a ih => exact ih h
  | compared hs a b iha ihb =>
    have left := iha h.1
    have right := ihb h.2
    simp only [Expr.levels, depth_of_spells hs, nesting, reduceCtorEq, if_false] at left right ⊢
    omega
  | atomic ha => simp [Expr.levels, depth_of_atomic ha]
  | paren a ih | list a ih =>
    have inside := ih h
    simp only [nesting, a.nesting_eq (0 + 1), reduceCtorEq, if_false, if_true] at inside ⊢
    omega
  | emptyList => simp [Expr.levels, Expr.depth, Expr.depthItems]
  | lastItem a ih =>
    have inside := ih h
    simp only [Expr.levels, Expr.depth, Expr.depthItems, nesting, reduceCtorEq, if_false, if_true] at inside ⊢
    omega
  | item a b iha ihb =>
    have first := iha h.1
    have others := ihb h.2
    simp only [Expr.levels, Expr.depth, Expr.depthItems, nesting, reduceCtorEq, if_false, if_true] at first others ⊢
    omega

end Derivation

/-! ## The bound is reached -/

/-- A variable is an operand of every chain. -/
def Derivation.variable (c : Chain) (name : String) : Derivation c.operand [.path [name]] (.path [name]) :=
  let unary : Derivation .unary [.path [name]] (.path [name]) := .plain (.atomic (.path [name]))
  let not : Derivation .not [.path [name]] (.path [name]) := .asserted (.alone (.single (c := .sum) (.single (c := .term) unary)))
  match c with
  | .or => .single (c := .and) not
  | .and => not
  | .sum => .single (c := .term) unary
  | .term => unary


theorem Derivation.variable_nesting (c : Chain) (name : String) (d : Nat) : (Derivation.variable c name).nesting d = d := by
  cases c <;> rfl

/-- Every chain joins any two operands. -/
theorem Chain.exists_joins (c : Chain) (l r : Expr) : ∃ t e, c.Joins t l r e := by
  cases c with
  | or => exact ⟨_, _, .or⟩
  | and => exact ⟨_, _, .and⟩
  | sum => exact ⟨_, _, .plus⟩
  | term => exact ⟨_, _, .star⟩

/-- A chain may have as many links as its first operand is nested, and puts as many levels on it. -/
theorem Derivation.exists_chain {c : Chain} {ts : List Token} {e : Expr} (D : Derivation c.operand ts e) {depth links : Nat}
    (hD : D.nesting 0 = depth) (h : links ≤ depth) : ∃ us e', ∃ D' : Derivation (.chain c) us e',
      D'.joins = links ∧ D'.nesting 0 = depth ∧ e'.levels = e.levels + links := by
  induction links with
  | zero => exact ⟨ts, e, .single D, rfl, hD, rfl⟩
  | succ links ih =>
    obtain ⟨us, l, L, hj, hn, hl⟩ := ih (by omega)
    obtain ⟨t, e', joins⟩ := c.exists_joins l (.path ["x"])
    refine ⟨us ++ [t, .path ["x"]], e', .link joins L (.variable c "x"), congrArg (· + 1) hj, ?_, ?_⟩
    · rw [nesting, variable_nesting, hn]
      omega
    · simp only [Expr.levels] at hl ⊢
      rw [depth_of_joins joins, hl, Expr.depth]
      omega

/-- Chains of all four kinds around an atom each put as many levels on it as it is nested. -/
theorem Derivation.exists_around {ts : List Token} {e : Expr} (A : Derivation .atom ts e) {depth : Nat}
    (hA : A.nesting 0 = depth) :
    ∃ us e', ∃ D : Sentence us e', D.nesting 0 = depth ∧ e'.levels = e.levels + 4 * depth := by
  obtain ⟨_, _, term, -, ht, lt⟩ := exists_chain (c := .term) (.plain A) hA (le_refl depth)
  obtain ⟨_, _, sum, -, hs, ls⟩ := exists_chain (c := .sum) term ht (le_refl depth)
  obtain ⟨_, _, and, -, ha, la⟩ := exists_chain (c := .and) (.asserted (.alone sum)) hs (le_refl depth)
  obtain ⟨us, e', or, -, ho, lo⟩ := exists_chain (c := .or) and ha (le_refl depth)
  exact ⟨us, e', or, ho, by omega⟩

/-- Sentences of every nesting have trees as deep as any of that nesting. -/
theorem exists_deepest (room : Nat) :
    ∃ ts e, ∃ D : Sentence ts e, D.nesting 0 = room ∧ e.levels = 2 * room ^ 2 + 3 * room := by
  induction room with
  | zero => exact (Derivation.atomic (.path ["x"])).exists_around rfl
  | succ room ih =>
    obtain ⟨ts, e, D, hn, hl⟩ := ih
    have nested : (Derivation.list (.lastItem D)).nesting 0 = room + 1 := by
      rw [Derivation.nesting, Derivation.nesting_eq, Derivation.nesting, hn]
    have deep : (Expr.list [e]).levels = e.levels + 1 := by simp [Expr.levels, Expr.depth, Expr.depthItems]
    obtain ⟨us, e', D', hn', hl'⟩ := Derivation.exists_around _ nested
    refine ⟨us, e', D', hn', ?_⟩
    rw [hl', deep, hl]
    linarith

/-! ## Evaluation -/

/-- A computation that comes to an end, with a value or an error. -/
def ended {α : Type} (x : Except EvalError α) : ExceptT EvalError Option α := ExceptT.mk (some x)

/-- The value of a condition where evaluation may call itself so many times within itself; there
    is none where that does not do. -/
def Expr.evalWithin (vars : Keyed Json) : Nat → Expr → ExceptT EvalError Option Json
  | 0, _ => ExceptT.mk none
  | calls + 1, e =>
    let inside := Expr.evalWithin vars calls
    match e with
    | .literal v => pure v
    | .path segments => ended (resolve segments vars)
    | .list items => do pure (.arr (← items.mapM inside))
    | .not e => do pure (.bool !isTruthy (← inside e))
    | .neg e => do
      let v ← inside e
      match v.toFloat? with
      | some x => ended (computed (-x))
      | none => throw (.negation v.typeName)
    | .and l r => do
      if isTruthy (← inside l) then pure (.bool (isTruthy (← inside r))) else pure (.bool false)
    | .or l r => do
      if isTruthy (← inside l) then pure (.bool true) else pure (.bool (isTruthy (← inside r)))
    | .binary op l r => do
      let a ← inside l
      let b ← inside r
      ended (apply op a b)

theorem ended_bind {α β : Type} {x : Except EvalError α} {f : α → ExceptT EvalError Option β} {g : α → Except EvalError β}
    (h : ∀ a, f a = ended (g a)) : ended x >>= f = ended (x >>= g) := by
  cases x with
  | error => rfl
  | ok a => exact h a

mutual

/-- Evaluation calls itself within itself no more often than the tree is high. -/
theorem Expr.evalWithin_eq (vars : Keyed Json) : ∀ (e : Expr) {calls : Nat}, e.height ≤ calls →
    e.evalWithin vars calls = ended (e.eval vars)
  | e, 0, h => by simp [height] at h
  | .literal v, calls + 1, _ => rfl
  | .path segments, calls + 1, _ => rfl
  | .list items, calls + 1, h => by
    simp only [height, depth] at h
    rw [evalWithin, evalItemsWithin_eq vars items (by omega), eval]
    exact ended_bind fun _ => rfl
  | .not e, calls + 1, h => by
    simp only [height, depth] at h
    rw [evalWithin, evalWithin_eq vars e (by rw [height]; omega), eval]
    exact ended_bind fun _ => rfl
  | .neg e, calls + 1, h => by
    simp only [height, depth] at h
    rw [evalWithin, evalWithin_eq vars e (by rw [height]; omega), eval]
    exact ended_bind fun v => by cases v.toFloat? <;> rfl
  | .and l r, calls + 1, h => by
    simp only [height, depth] at h
    rw [evalWithin, evalWithin_eq vars l (by rw [height]; omega), evalWithin_eq vars r (by rw [height]; omega), eval]
    refine ended_bind fun a => ?_
    split
    · exact ended_bind fun _ => rfl
    · rfl
  | .or l r, calls + 1, h => by
    simp only [height, depth] at h
    rw [evalWithin, evalWithin_eq vars l (by rw [height]; omega), evalWithin_eq vars r (by rw [height]; omega), eval]
    refine ended_bind fun a => ?_
    split
    · rfl
    · exact ended_bind fun _ => rfl
  | .binary op l r, calls + 1, h => by
    have op_le : (if op.isArithmetic then 1 else 1) = 1 := by split <;> rfl
    simp only [height, depth, op_le] at h
    rw [evalWithin, evalWithin_eq vars l (by rw [height]; omega), evalWithin_eq vars r (by rw [height]; omega), eval]
    exact ended_bind fun a => ended_bind fun b => rfl

theorem Expr.evalItemsWithin_eq (vars : Keyed Json) : ∀ (items : List Expr) {calls : Nat}, depthItems 1 items + 1 ≤ calls →
    items.mapM (evalWithin vars calls) = ended (evalItems vars items)
  | [], calls, _ => rfl
  | e :: es, calls, h => by
    rw [depthItems] at h
    rw [List.mapM_cons, evalWithin_eq vars e (by rw [height]; omega), evalItemsWithin_eq vars es (by omega), evalItems]
    exact ended_bind fun v => ended_bind fun vs => rfl

end

/-! ## Texts -/

/-- What is read as a condition was split into the tokens of a sentence that fits. -/
theorem parse_eq_ok {text : String} {e : Expr} (h : parse text = .ok e) :
    ∃ ts, tokenize text = .ok ts ∧ ∃ D : Sentence ts e, D.nesting 0 ≤ maxNesting := by
  obtain ⟨ts, ht, hp⟩ := ok_of_bind h
  refine ⟨ts, ?_, parseTokens_eq_ok_iff.mp ?_⟩
  · cases hts : tokenize text with
    | error => rw [hts] at ht; cases ht
    | ok => rw [hts] at ht; cases ht; rfl
  · cases hps : parseTokens ts with
    | error => rw [hps] at hp; cases hp
    | ok => rw [hps] at hp; cases hp; rfl

/-- The deepest trees that are read. -/
theorem exists_deepest_condition : ∃ ts e, parseTokens ts = .ok e ∧ e.levels = 2 * maxNesting ^ 2 + 3 * maxNesting := by
  obtain ⟨ts, e, D, hn, hl⟩ := exists_deepest maxNesting
  exact ⟨ts, e, parseTokens_eq_ok_iff.mpr ⟨D, hn.le⟩, hl⟩

/-- The tree of a text is nested no deeper than 256 levels where nothing in front of a link is deeper
    than what comes behind it. In general it has a number of levels that is quadratic in that, some
    tree has as many, and evaluation calls itself no deeper than that, with the comparisons added. -/
theorem conditions_are_as_deep_as_their_chains (text : String) (e : Expr) (h : parse text = .ok e) :
    (∃ ts, tokenize text = .ok ts ∧ ∃ D : Sentence ts e, D.nesting 0 ≤ 256 ∧ (D.Even → e.levels ≤ 256)) ∧
    e.levels ≤ 2 * 256 ^ 2 + 3 * 256 ∧
    (∃ ts' e', parseTokens ts' = .ok e' ∧ e'.levels = 2 * 256 ^ 2 + 3 * 256) ∧
    e.height ≤ 2 * 257 ^ 2 ∧
    ∀ vars calls, 2 * 257 ^ 2 ≤ calls → e.evalWithin vars calls = ended (e.eval vars) := by
  obtain ⟨ts, hts, D, fits⟩ := parse_eq_ok h
  have height : e.height ≤ 2 * 257 ^ 2 := by
    have deep := D.depth_le_of_nesting 1 fits
    simp only [maxNesting] at deep
    rw [Expr.height]
    omega
  refine ⟨⟨ts, hts, D, fits, fun even => ?_⟩, D.depth_le_of_nesting 0 fits, exists_deepest_condition, height,
    fun vars calls hc => e.evalWithin_eq vars (height.trans hc)⟩
  exact (D.levels_le_nesting even).trans fits

/-- As many negations as fit, in front of the first operand of a chain. -/
def negatedOperand : String := String.ofList (List.replicate 256 '!' ++ ['x', '&', '&', 'x'])

theorem negatedOperand_levels : (parse negatedOperand).toOption.map Expr.levels = some 257 := by decide +kernel

/-- The link of the chain is on top of all the negations. -/
theorem a_chain_is_deeper_than_its_negations : ∃ e, parse negatedOperand = .ok e ∧ e.levels = 257 := by
  have levels := negatedOperand_levels
  cases h : parse negatedOperand with
  | error => rw [h] at levels; cases levels
  | ok e =>
    rw [h] at levels
    exact ⟨e, rfl, Option.some.inj levels⟩

theorem a_chain_of_negations_can_be_evaluated :
    ∃ e, parse negatedOperand = .ok e ∧ e.levels ≤ 2 * 256 ^ 2 + 3 * 256 ∧
      ∀ vars calls, 2 * 257 ^ 2 ≤ calls → e.evalWithin vars calls = ended (e.eval vars) := by
  have levels := negatedOperand_levels
  cases h : parse negatedOperand with
  | error => rw [h] at levels; cases levels
  | ok e =>
    obtain ⟨-, atMost, -, -, evaluated⟩ := conditions_are_as_deep_as_their_chains negatedOperand e h
    exact ⟨e, rfl, atMost, evaluated⟩

end Capability.Condition
