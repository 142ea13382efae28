/-
  Capability.Proofs.Grammar — the sentences of the condition language and how deep they are
  nested.

  A derivation builds a phrase, and its tree, from the tokens of it by the rules of the grammar.
  Operands that are chained are grouped to the left, and the nesting of a derivation is counted
  from its outside: an operand of a chain sits one level deeper than the one before it, both sides
  of a comparison sit level with it, and what is negated or in brackets sits one level deeper.

  (1) `Derivation.reads`: the parser follows a derivation up to its end or to the level at which
      its room is used up.
  (2) `below_finds`: what the parser finds has a derivation that fits into its room.
  (3) `parseTokens_sentence`, `parseTokens_eq_ok_iff`: so it accepts just the sentences that are
      not nested too deeply, and says of the others that they are.
  (4) `Derivation.unique`: the grammar is unambiguous, since one parser follows all derivations.
-/

import Capability.Condition.Parser
import Capability.Proofs.Numerals
import Mathlib.Order.MinMax

namespace Capability.Condition

/-! ## Phrases -/

/-- The operators that chain operands, the loosest first. -/
inductive Chain where
  | or
  | and
  | sum
  | term
  deriving DecidableEq, Repr

/-- The kinds of phrases. -/
inductive Phrase where
  | chain (c : Chain)
  | not
  | cmp
  | unary
  | atom
  /-- What stands between the brackets of a list. -/
  | items
  deriving DecidableEq, Repr

/-- The phrases that a chain joins. -/
def Chain.operand : Chain → Phrase
  | .or => .chain .and
  | .and => .not
  | .sum => .chain .term
  | .term => .unary

/-- The tokens that join the operands of a chain, and what they make of two of them. -/
inductive Chain.Joins : Chain → Token → (l r joined : Expr) → Prop
  | or {l r : Expr} : Joins .or .or l r (.or l r)
  | and {l r : Expr} : Joins .and .and l r (.and l r)
  | plus {l r : Expr} : Joins .sum .plus l r (.binary .add l r)
  | minus {l r : Expr} : Joins .sum .minus l r (.binary .sub l r)
  | star {l r : Expr} : Joins .term .star l r (.binary .mul l r)
  | slash {l r : Expr} : Joins .term .slash l r (.binary .div l r)
  | percent {l r : Expr} : Joins .term .percent l r (.binary .rem l r)

/-- The spellings of the comparisons. -/
inductive Spells : List Token → BinaryOp → Prop
  | eq : Spells [.eq] .eq
  | notEq : Spells [.notEq] .notEq
  | lt : Spells [.lt] .lt
  | le : Spells [.le] .le
  | gt : Spells [.gt] .gt
  | ge : Spells [.ge] .ge
  | isIn : Spells [.isIn] .isIn
  | notIn : Spells [.not, .isIn] .notIn

/-- The tokens that are conditions by themselves. -/
inductive Atomic : Token → Expr → Prop
  | number {x : Float} {v : Json} : Denotes x v → Atomic (.number x) (.literal v)
  | str (s : String) : Atomic (.str s) (.literal (.str s))
  | yes : Atomic .yes (.literal (.bool true))
  | no : Atomic .no (.literal (.bool false))
  | null : Atomic .null (.literal .null)
  | path (segments : List String) : Atomic (.path segments) (.path segments)

/-- How tokens make a phrase with a tree. -/
inductive Derivation : Phrase → List Token → Expr → Type
  | single {c : Chain} {ts : List Token} {e : Expr} : Derivation c.operand ts e → Derivation (.chain c) ts e
  | link {c : Chain} {ts us : List Token} {t : Token} {l r e : Expr} : c.Joins t l r e →
      Derivation (.chain c) ts l → Derivation c.operand us r → Derivation (.chain c) (ts ++ t :: us) e
  | not {ts : List Token} {e : Expr} : Derivation .not ts e → Derivation .not (.not :: ts) (.not e)
  | asserted {ts : List Token} {e : Expr} : Derivation .cmp ts e → Derivation .not ts e
  | alone {ts : List Token} {e : Expr} : Derivation (.chain .sum) ts e → Derivation .cmp ts e
  | compared {ts os us : List Token} {op : BinaryOp} {l r : Expr} : Spells os op →
      Derivation (.chain .sum) ts l → Derivation (.chain .sum) us r → Derivation .cmp (ts ++ (os ++ us)) (.binary op l r)
  | neg {ts : List Token} {e : Expr} : Derivation .unary ts e → Derivation .unary (.minus :: ts) (.neg e)
  | plain {ts : List Token} {e : Expr} : Derivation .atom ts e → Derivation .unary ts e
  | atomic {t : Token} {e : Expr} : Atomic t e → Derivation .atom [t] e
  | paren {ts : List Token} {e : Expr} : Derivation (.chain .or) ts e →
      Derivation .atom (.openParen :: (ts ++ [.closeParen])) e
  | emptyList : Derivation .atom [.openBracket, .closeBracket] (.list [])
  | list {ts : List Token} {es : List Expr} : Derivation .items ts (.list es) →
      Derivation .atom (.openBracket :: (ts ++ [.closeBracket])) (.list es)
  | lastItem {ts : List Token} {e : Expr} : Derivation (.chain .or) ts e → Derivation .items ts (.list [e])
  | item {ts us : List Token} {e : Expr} {es : List Expr} : Derivation (.chain .or) ts e →
      Derivation .items us (.list es) → Derivation .items (ts ++ .comma :: us) (.list (e :: es))

namespace Derivation

variable {p : Phrase} {ts : List Token} {e : Expr}

/-- How many operands a chain has besides its first. -/
def joins {p : Phrase} {ts : List Token} {e : Expr} (D : Derivation p ts e) : Nat :=
  match D with
  | .link _ l _ => l.joins + 1
  | _ => 0

/-- The deepest level of a derivation whose outside is at level `d`. -/
@[simp] def nesting {p : Phrase} {ts : List Token} {e : Expr} (D : Derivation p ts e) (d : Nat) : Nat :=
  match D with
  | .single a | .asserted a | .alone a | .plain a | .lastItem a => a.nesting d
  | .link _ l r => max (l.nesting d) (r.nesting (d + (l.joins + 1)))
  | .not a | .neg a | .paren a | .list a => a.nesting (d + 1)
  | .compared _ l r => max (l.nesting d) (r.nesting d)
  | .atomic _ => d
  | .emptyList => d + 1
  | .item a b => max (a.nesting d) (b.nesting d)

/-- The operands of a chain sit one level deeper each. -/
example {us vs : List Token} {l m r : Expr} (a : Derivation .not ts l) (b : Derivation .not us m) (c : Derivation .not vs r)
    (d : Nat) : (link .and (link .and (single a) b) c).nesting d = max (max (a.nesting d) (b.nesting (d + 1))) (c.nesting (d + 2)) :=
  rfl

theorem nesting_add (D : Derivation p ts e) (d k : Nat) : D.nesting (d + k) = D.nesting d + k := by
  induction D generalizing d with
  | single a ih | asserted a ih | alone a ih | plain a ih | lastItem a ih => exact ih d
  | link h l r ihl ihr =>
    simp only [nesting, ihl, ← Nat.add_max_add_right, ← ihr]
    congr 2
    omega
  | not a ih | neg a ih | paren a ih | list a ih =>
    simp only [nesting, ← ih]
    congr 1
    omega
  | compared h l r ihl ihr => simp only [nesting, ihl, ihr, Nat.add_max_add_right]
  | item a b iha ihb => simp only [nesting, iha, ihb, Nat.add_max_add_right]
  | atomic h => rfl
  | emptyList => simp only [nesting]; omega

theorem nesting_eq (D : Derivation p ts e) (d : Nat) : D.nesting d = D.nesting 0 + d := by
  simpa using D.nesting_add 0 d

theorem joins_le_nesting (D : Derivation p ts e) : D.joins ≤ D.nesting 0 := by
  cases D with
  | link h l r =>
    have hr := r.nesting_eq (0 + (l.joins + 1))
    simp only [joins, nesting]
    omega
  | _ => exact Nat.zero_le _

end Derivation

/-- Which tokens a phrase does not begin with. -/
def Phrase.Shuns : Phrase → Token → Prop
  | .atom, t => t = .not ∨ t = .minus ∨ t = .closeBracket
  | .unary, t | .chain .term, t | .chain .sum, t | .cmp, t => t = .not ∨ t = .closeBracket
  | .not, t | .chain .and, t | .chain .or, t | .items, t => t = .closeBracket

theorem Phrase.Shuns.operand {c : Chain} {t : Token} (h : (Phrase.chain c).Shuns t) : c.operand.Shuns t := by
  cases c <;> exact h

/-- A phrase begins with a token that it does not shun. -/
theorem Derivation.begins {p : Phrase} {ts : List Token} {e : Expr} (D : Derivation p ts e) :
    ∃ t us, ts = t :: us ∧ ¬p.Shuns t := by
  induction D with
  | single a ih =>
    obtain ⟨t, us, rfl, ht⟩ := ih
    exact ⟨t, us, rfl, fun h => ht h.operand⟩
  | link h l r ihl ihr =>
    obtain ⟨t, us, rfl, ht⟩ := ihl
    exact ⟨t, _, rfl, ht⟩
  | not a ih | neg a ih => exact ⟨_, _, rfl, by simp [Phrase.Shuns]⟩
  | asserted a ih | plain a ih =>
    obtain ⟨t, us, rfl, ht⟩ := ih
    exact ⟨t, us, rfl, fun h => ht (by simp_all [Phrase.Shuns])⟩
  | alone a ih => exact ih
  | compared h l r ihl ihr =>
    obtain ⟨t, us, rfl, ht⟩ := ihl
    exact ⟨t, _, rfl, ht⟩
  | atomic h => cases h <;> exact ⟨_, _, rfl, by simp [Phrase.Shuns]⟩
  | paren a ih | list a ih | emptyList => exact ⟨_, _, rfl, by simp [Phrase.Shuns]⟩
  | lastItem a ih => exact ih
  | item a b iha ihb =>
    obtain ⟨t, us, rfl, ht⟩ := iha
    exact ⟨t, _, rfl, ht⟩

/-! ## Parsers of phrases -/

def Chain.op : Chain → Token → Option (Expr → Expr → Expr)
  | .or => orOp
  | .and => andOp
  | .sum => sumOp
  | .term => termOp

theorem Chain.joins_iff {c : Chain} {t : Token} {l r e : Expr} : c.Joins t l r e ↔ ∃ mk, c.op t = some mk ∧ mk l r = e := by
  constructor
  · rintro ⟨⟩ <;> exact ⟨_, rfl, rfl⟩
  · rintro ⟨mk, h, rfl⟩
    cases c <;> cases t <;> cases h <;> constructor

theorem spells_iff {os us : List Token} {op : BinaryOp} :
    comparison us = some (op, os) ↔ ∃ ts, Spells ts op ∧ us = ts ++ os := by
  constructor
  · intro h
    unfold comparison at h
    split at h <;> cases h <;> exact ⟨_, by constructor, rfl⟩
  · rintro ⟨ts, ⟨⟩, rfl⟩ <;> rfl

/-- The parser of a phrase over a parser of what is inside brackets. -/
def parserOf (inner : Parser) (p : Phrase) : Parser :=
  let unary := prefixed .minus .neg (atom inner)
  let term := chain termOp unary
  let sum := chain sumOp term
  let cmp := compared sum
  let not := prefixed .not .not cmp
  let and := chain andOp not
  match p with
  | .atom => atom inner
  | .unary => unary
  | .chain .term => term
  | .chain .sum => sum
  | .cmp => cmp
  | .not => not
  | .chain .and => and
  | .chain .or => chain orOp and
  | .items => fun room ts => do
    let (es, rest) ← listItems (inner room) ts.length ts
    .ok (.list es, rest)

theorem parserOf_chain (inner : Parser) (c : Chain) : parserOf inner (.chain c) = chain c.op (parserOf inner c.operand) := by
  cases c <;> rfl

/-- The tokens after a chain do not go on with it. -/
def Chain.Stops (c : Chain) (ts : List Token) : Prop := ∀ t ∈ ts.head?, c.op t = none

/-- The tokens after a phrase go on neither with it nor with a phrase at its end. -/
def Phrase.Ends (p : Phrase) (ts : List Token) : Prop :=
  let unary := True
  let term := Chain.term.Stops ts ∧ unary
  let sum := Chain.sum.Stops ts ∧ term
  let cmp := comparison ts = none ∧ sum
  let and := Chain.and.Stops ts ∧ cmp
  match p with
  | .atom | .items => True
  | .unary => unary
  | .chain .term => term
  | .chain .sum => sum
  | .cmp | .not => cmp
  | .chain .and => and
  | .chain .or => Chain.or.Stops ts ∧ and

theorem Phrase.ends_chain {c : Chain} {ts : List Token} :
    (Phrase.chain c).Ends ts ↔ c.Stops ts ∧ c.operand.Ends ts := by
  cases c <;> rfl

/-- An operand ends where a token goes on with its chain. -/
theorem Chain.Joins.ends {c : Chain} {t : Token} {l r e : Expr} (h : c.Joins t l r e) (us : List Token) :
    c.operand.Ends (t :: us) := by
  cases h <;> simp [Phrase.Ends, operand, Stops, op, comparison, andOp, sumOp, termOp]

theorem Spells.ends {ts : List Token} {op : BinaryOp} (h : Spells ts op) (us : List Token) :
    (Phrase.chain .sum).Ends (ts ++ us) := by
  cases h <;> simp [Phrase.Ends, Chain.Stops, Chain.op, sumOp, termOp]

/-- A condition ends where brackets close and where items are set apart. -/
theorem Phrase.ends_or (ts : List Token) (h : ∀ t ∈ ts.head?, t = .closeParen ∨ t = .closeBracket ∨ t = .comma) :
    (Phrase.chain .or).Ends ts := by
  cases ts with
  | nil => simp [Ends, Chain.Stops, comparison]
  | cons t ts =>
    rcases h t rfl with rfl | rfl | rfl <;> simp [Ends, Chain.Stops, Chain.op, comparison, orOp, andOp, sumOp, termOp]

theorem links_of_ends {op : Token → Option (Expr → Expr → Expr)} {ts : List Token} (h : ∀ t ∈ ts.head?, op t = none)
    (operand : Parser) (room : Nat) (e : Expr) : links op operand room e ts = .ok (e, ts) := by
  cases ts with
  | nil => cases room <;> rfl
  | cons t ts => cases room <;> simp [links, h t rfl]

theorem prefixed_of_ne {op : Token} {ts : List Token} (h : ∀ t ∈ ts.head?, t ≠ op) (mk : Expr → Expr) (operand : Parser)
    (room : Nat) : prefixed op mk operand room ts = operand room ts := by
  cases ts with
  | nil => cases room <;> rfl
  | cons t ts => cases room <;> simp [prefixed, h t rfl]

/-! ## What is derived is parsed -/

/-- The parser follows a derivation as far as its room goes. Behind a chain it may still find
    links; behind the items of a list it finds the bracket that closes it. -/
def Derivation.Reads {p : Phrase} {us : List Token} {e : Expr} (D : Derivation p us e) : Prop :=
  ∀ bound room rest, room ≤ bound →
    match p with
    | .chain c => c.operand.Ends rest → parserOf (below bound) (.chain c) room (us ++ rest) =
        if D.nesting 0 ≤ room then links c.op (parserOf (below bound) c.operand) (room - D.joins) e rest
        else .error .tooDeep
    | .items => ∀ count, us.length ≤ count →
        (listItems (below (bound + 1) room) count (us ++ .closeBracket :: rest)).map (fun r => (Expr.list r.1, r.2)) =
          if D.nesting 0 ≤ room then .ok (e, rest) else .error .tooDeep
    | p => p.Ends rest → parserOf (below bound) p room (us ++ rest) =
        if D.nesting 0 ≤ room then .ok (e, rest) else .error .tooDeep

namespace Derivation

variable {p : Phrase} {c : Chain} {us vs : List Token} {e l r : Expr} {bound room : Nat} {rest : List Token}

theorem Reads.closed {D : Derivation p us e} (h : D.Reads) (hp : p ≠ .items) (hr : room ≤ bound) (he : p.Ends rest) :
    parserOf (below bound) p room (us ++ rest) = if D.nesting 0 ≤ room then .ok (e, rest) else .error .tooDeep := by
  cases p with
  | chain c =>
    obtain ⟨hs, ho⟩ := Phrase.ends_chain.mp he
    rw [h bound room rest hr ho, links_of_ends hs]
  | items => exact absurd rfl hp
  | _ => exact h bound room rest hr he

theorem operand_ne_items (c : Chain) : c.operand ≠ .items := by cases c <;> simp [Chain.operand]

theorem Reads.single {a : Derivation c.operand us e} (h : a.Reads) : (Derivation.single a).Reads := by
  intro bound room rest hr he
  show parserOf (below bound) (.chain c) room (us ++ rest) =
    if a.nesting 0 ≤ room then links c.op (parserOf (below bound) c.operand) (room - 0) e rest else .error .tooDeep
  rw [parserOf_chain, chain, h.closed (operand_ne_items c) hr he]
  split <;> rfl

theorem Reads.link {t : Token} (hj : c.Joins t l r e) {a : Derivation (.chain c) us l} {b : Derivation c.operand vs r}
    (ha : a.Reads) (hb : b.Reads) : (Derivation.link hj a b).Reads := by
  intro bound room rest hr he
  obtain ⟨mk, hop, rfl⟩ := Chain.joins_iff.mp hj
  have left := ha bound room (t :: (vs ++ rest)) hr (hj.ends _)
  have deep : (Derivation.link hj a b).nesting 0 = max (a.nesting 0) (b.nesting 0 + (a.joins + 1)) := by
    rw [nesting, b.nesting_eq, Nat.zero_add]
  have within := a.joins_le_nesting
  simp only [List.append_assoc, List.cons_append, left, deep]
  by_cases hl : a.nesting 0 ≤ room
  · rw [if_pos hl]
    cases hk : room - a.joins with
    | zero => rw [links, hop, if_neg (by omega)]
    | succ k =>
      have right := hb.closed (operand_ne_items c) (show k ≤ bound by omega) he
      simp only [links, hop, right]
      by_cases hn : b.nesting 0 ≤ k
      · rw [if_pos hn, if_pos (by omega), Derivation.joins, show room - (a.joins + 1) = k by omega]
        rfl
      · rw [if_neg hn, if_neg (by omega)]
        rfl
  · rw [if_neg hl, if_neg (by omega)]

/-- An operator in front of a phrase takes a level. -/
theorem prefixed_reads {op : Token} {mk : Expr → Expr} {operand : Parser} {n : Nat} {ts : List Token}
    (h : ∀ room ≤ bound, prefixed op mk operand room (us ++ rest) = if n ≤ room then .ok (e, ts) else .error .tooDeep)
    (hr : room ≤ bound) :
    prefixed op mk operand room (op :: us ++ rest) = if n + 1 ≤ room then .ok (mk e, ts) else .error .tooDeep := by
  cases room with
  | zero => simp [prefixed]
  | succ k =>
    simp only [List.cons_append, prefixed, if_true, h k (by omega), Nat.add_le_add_iff_right]
    split <;> rfl

theorem Reads.not {a : Derivation .not us e} (h : a.Reads) : (Derivation.not a).Reads := by
  intro bound room rest hr he
  rw [nesting, nesting_eq]
  exact prefixed_reads (fun k hk => h bound k rest hk he) hr

theorem Reads.neg {a : Derivation .unary us e} (h : a.Reads) : (Derivation.neg a).Reads := by
  intro bound room rest hr he
  rw [nesting, nesting_eq]
  exact prefixed_reads (fun k hk => h bound k rest hk he) hr

/-- No operator stands in front of a phrase that shuns it. -/
theorem head_ne (a : Derivation p us e) (rest : List Token) {t : Token} (ht : p.Shuns t) : ∀ u ∈ (us ++ rest).head?, u ≠ t := by
  obtain ⟨u, us, rfl, hu⟩ := a.begins
  rintro _ ⟨⟩ rfl
  exact hu ht

theorem Reads.asserted {a : Derivation .cmp us e} (h : a.Reads) : (Derivation.asserted a).Reads := by
  intro bound room rest hr he
  exact (prefixed_of_ne (a.head_ne rest (.inl rfl)) _ _ _).trans (h bound room rest hr he)

theorem Reads.plain {a : Derivation .atom us e} (h : a.Reads) : (Derivation.plain a).Reads := by
  intro bound room rest hr he
  exact (prefixed_of_ne (a.head_ne rest (.inr (.inl rfl))) _ _ _).trans (h bound room rest hr trivial)

theorem Reads.alone {a : Derivation (.chain .sum) us e} (h : a.Reads) : (Derivation.alone a).Reads := by
  intro bound room rest hr he
  show Condition.compared (parserOf (below bound) (.chain .sum)) room (us ++ rest) = if a.nesting 0 ≤ room then _ else _
  rw [Condition.compared, h.closed (by simp) hr he.2]
  split
  · simp only [bind, Except.bind, he.1]
  · rfl

theorem Reads.compared {os : List Token} {op : BinaryOp} (hs : Spells os op) {a : Derivation (.chain .sum) us l}
    {b : Derivation (.chain .sum) vs r} (ha : a.Reads) (hb : b.Reads) : (Derivation.compared hs a b).Reads := by
  intro bound room rest hr he
  have left := ha.closed (by simp) hr (hs.ends (vs ++ rest))
  have right := hb.closed (by simp) hr he.2
  have between : comparison (os ++ (vs ++ rest)) = some (op, vs ++ rest) := spells_iff.mpr ⟨os, hs, rfl⟩
  show Condition.compared (parserOf (below bound) (.chain .sum)) room (us ++ (os ++ vs) ++ rest) =
    if max (a.nesting 0) (b.nesting 0) ≤ room then _ else _
  simp only [List.append_assoc, Condition.compared, left]
  by_cases hl : a.nesting 0 ≤ room
  · simp only [if_pos hl, bind, Except.bind, between, right]
    by_cases hn : b.nesting 0 ≤ room
    · rw [if_pos hn, if_pos (by omega)]
    · rw [if_neg hn, if_neg (by omega)]
  · rw [if_neg hl, if_neg (by omega)]
    rfl

theorem Reads.atomic {t : Token} (h : Atomic t e) : (Derivation.atomic h).Reads := by
  intro bound room rest hr _
  rw [nesting, if_pos (Nat.zero_le room)]
  cases h with
  | number h => simp [parserOf, atom, numberValue_eq_some_iff.mpr h]
  | _ => rfl

/-- Brackets take a level and lead back to the loosest phrase. -/
theorem Reads.paren {a : Derivation (.chain .or) us e} (h : a.Reads) : (Derivation.paren a).Reads := by
  intro bound room rest hr _
  rw [nesting, nesting_eq]
  cases room with
  | zero => rfl
  | succ k =>
    obtain ⟨b, rfl⟩ : ∃ b, bound = b + 1 := ⟨bound - 1, by omega⟩
    have inside := h.closed (by simp) (show k ≤ b by omega) (Phrase.ends_or (.closeParen :: rest) (by simp))
    have inside : below (b + 1) k (us ++ .closeParen :: rest) = _ := inside
    simp only [List.cons_append, List.append_assoc, List.nil_append, parserOf, atom, inside,
      Nat.add_le_add_iff_right]
    split <;> rfl

theorem emptyList_reads : emptyList.Reads := by
  intro bound room rest hr _
  cases room <;> rfl

/-- Brackets that are not closed at once hold items. -/
theorem atom_list (inner : Parser) (room : Nat) {ts : List Token} (h : ∀ t ∈ ts.head?, t ≠ .closeBracket) :
    atom inner (room + 1) (.openBracket :: ts) =
      (listItems (inner room) ts.length ts).map fun r => (Expr.list r.1, r.2) := by
  cases ts with
  | nil => rfl
  | cons t ts =>
    have ht := h t rfl
    simp only [atom]
    cases listItems (inner room) (t :: ts).length (t :: ts) <;> cases t <;> first | rfl | exact absurd rfl ht

theorem Reads.list {es : List Expr} {a : Derivation .items us (.list es)} (h : a.Reads) : (Derivation.list a).Reads := by
  intro bound room rest hr _
  rw [nesting, nesting_eq]
  cases room with
  | zero => rfl
  | succ k =>
    obtain ⟨b, rfl⟩ : ∃ b, bound = b + 1 := ⟨bound - 1, by omega⟩
    have inside := h b k rest (by omega) (us ++ .closeBracket :: rest).length (by simp)
    have opened := atom_list (below (b + 1)) k (a.head_ne (.closeBracket :: rest) rfl)
    simp only [List.cons_append, List.append_assoc, List.nil_append, Nat.add_le_add_iff_right]
    exact opened.trans inside

theorem Reads.lastItem {a : Derivation (.chain .or) us e} (h : a.Reads) : (Derivation.lastItem a).Reads := by
  intro bound room rest hr count hcount
  have inside := h.closed (by simp) hr (Phrase.ends_or (.closeBracket :: rest) (by simp))
  have inside : below (bound + 1) room (us ++ .closeBracket :: rest) = _ := inside
  obtain ⟨t, us, rfl, -⟩ := a.begins
  obtain ⟨k, rfl⟩ : ∃ k, count = k + 1 := ⟨count - 1, by simp at hcount; omega⟩
  show Except.map _ (listItems _ (k + 1) _) = if a.nesting 0 ≤ room then _ else _
  rw [listItems, inside]
  split <;> rfl

theorem Reads.item {es : List Expr} {a : Derivation (.chain .or) us e} {b : Derivation .items vs (.list es)}
    (ha : a.Reads) (hb : b.Reads) : (Derivation.item a b).Reads := by
  intro bound room rest hr count hcount
  have first := ha.closed (by simp) hr (Phrase.ends_or (.comma :: (vs ++ .closeBracket :: rest)) (by simp))
  have first : below (bound + 1) room (us ++ .comma :: (vs ++ .closeBracket :: rest)) = _ := first
  obtain ⟨k, rfl⟩ : ∃ k, count = k + 1 := ⟨count - 1, by simp at hcount; omega⟩
  have others := hb bound room rest hr k (by simp at hcount; omega)
  show Except.map _ (listItems _ (k + 1) _) = if max (a.nesting 0) (b.nesting 0) ≤ room then _ else _
  simp only [List.append_assoc, List.cons_append, listItems, first]
  by_cases hl : a.nesting 0 ≤ room
  · simp only [if_pos hl, bind, Except.bind]
    generalize listItems (below (bound + 1) room) k (vs ++ .closeBracket :: rest) = found at others ⊢
    by_cases hn : b.nesting 0 ≤ room
    · rw [if_pos hn] at others
      rw [if_pos (by omega)]
      cases found with
      | error => cases others
      | ok r =>
        cases others
        rfl
    · rw [if_neg hn] at others
      rw [if_neg (by omega)]
      cases found with
      | ok => cases others
      | error => exact others
  · rw [if_neg hl, if_neg (by omega)]
    rfl

end Derivation

/-- The parser follows every derivation. -/
theorem Derivation.reads {p : Phrase} {us : List Token} {e : Expr} (D : Derivation p us e) : D.Reads := by
  induction D with
  | single a ih => exact ih.single
  | link h l r ihl ihr => exact ihl.link h ihr
  | not a ih => exact ih.not
  | asserted a ih => exact ih.asserted
  | alone a ih => exact ih.alone
  | compared h l r ihl ihr => exact ihl.compared h ihr
  | neg a ih => exact ih.neg
  | plain a ih => exact ih.plain
  | atomic h => exact .atomic h
  | paren a ih => exact ih.paren
  | emptyList => exact emptyList_reads
  | list a ih => exact ih.list
  | lastItem a ih => exact ih.lastItem
  | item a b iha ihb => exact iha.item ihb

/-! ## What is parsed is derived -/

theorem ok_of_bind {ε α β : Type} {x : Except ε α} {f : α → Except ε β} {b : β} (h : x >>= f = .ok b) :
    ∃ a, x = .ok a ∧ f a = .ok b := by
  cases x with
  | error => cases h
  | ok a => exact ⟨a, rfl, h⟩

/-- Everything that a parser finds is a phrase in front of the tokens that fits into its room. -/
def Parser.Finds (parser : Parser) (p : Phrase) : Prop :=
  ∀ room ts e rest, parser room ts = .ok (e, rest) →
    ∃ us, ts = us ++ rest ∧ ∃ D : Derivation p us e, D.nesting 0 ≤ room

variable {inner operand : Parser} {room : Nat} {ts rest : List Token} {e : Expr}

/-- Links go on with the chain in front of them. -/
theorem links_find {c : Chain} (h : operand.Finds c.operand) {us : List Token} {l : Expr} (D : Derivation (.chain c) us l)
    (hn : D.nesting 0 ≤ D.joins + room) (hl : links c.op operand room l ts = .ok (e, rest)) :
    ∃ vs, ts = vs ++ rest ∧ ∃ D' : Derivation (.chain c) (us ++ vs) e, D'.nesting 0 ≤ D.joins + room := by
  have stop : ∃ vs, ts = vs ++ ts ∧ ∃ D' : Derivation (.chain c) (us ++ vs) l, D'.nesting 0 ≤ D.joins + room :=
    ⟨[], rfl, by rw [List.append_nil]; exact ⟨D, hn⟩⟩
  induction room generalizing us l ts with
  | zero =>
    cases ts with
    | nil => cases hl; exact stop
    | cons t ts =>
      simp only [links] at hl
      split at hl
      · cases hl; exact stop
      · cases hl
  | succ room ih =>
    cases ts with
    | nil => cases hl; exact stop
    | cons t ts =>
      simp only [links] at hl
      split at hl
      · cases hl; exact stop
      · next mk hop =>
        obtain ⟨⟨r, more⟩, hr, hlinks⟩ := ok_of_bind hl
        obtain ⟨ws, rfl, R, hR⟩ := h _ _ _ _ hr
        let L := Derivation.link (Chain.joins_iff.mpr ⟨mk, hop, rfl⟩) D R
        have joined : L.joins = D.joins + 1 := rfl
        have deep : L.nesting 0 = max (D.nesting 0) (R.nesting 0 + (D.joins + 1)) := by
          rw [Derivation.nesting, R.nesting_eq, Nat.zero_add]
        have fits : L.nesting 0 ≤ L.joins + room := by omega
        obtain ⟨vs, rfl, D', hD'⟩ := ih L fits hlinks ⟨[], rfl, by rw [List.append_nil]; exact ⟨L, fits⟩⟩
        have same : us ++ t :: ws ++ vs = us ++ (t :: ws ++ vs) := by simp
        exact ⟨t :: ws ++ vs, by simp, same ▸ ⟨D', by omega⟩⟩

theorem chain_finds {c : Chain} (h : operand.Finds c.operand) : (chain c.op operand).Finds (.chain c) := by
  intro room ts e rest hp
  obtain ⟨⟨l, more⟩, hl, hlinks⟩ := ok_of_bind hp
  obtain ⟨us, rfl, D, hD⟩ := h _ _ _ _ hl
  obtain ⟨vs, rfl, D', hD'⟩ := links_find h (.single D) (Nat.le_add_left_of_le hD) hlinks
  exact ⟨us ++ vs, by simp, D', by simpa [Derivation.joins] using hD'⟩

theorem prefixed_finds {p q : Phrase} {op : Token} {mk : Expr → Expr} (h : operand.Finds p)
    (one : ∀ us e, (D : Derivation p us e) → ∃ D' : Derivation q us e, D'.nesting 0 = D.nesting 0)
    (more : ∀ us e, (D : Derivation q us e) → ∃ D' : Derivation q (op :: us) (mk e), D'.nesting 0 = D.nesting 0 + 1) :
    Parser.Finds (prefixed op mk operand) q := by
  have plain {room : Nat} {ts : List Token} {e : Expr} {rest : List Token} (hp : operand room ts = .ok (e, rest)) :
      ∃ us, ts = us ++ rest ∧ ∃ D : Derivation q us e, D.nesting 0 ≤ room := by
    obtain ⟨us, hts, D, hD⟩ := h _ _ _ _ hp
    obtain ⟨D', hD'⟩ := one us e D
    exact ⟨us, hts, D', by omega⟩
  intro room ts e rest hp
  induction ts generalizing room e with
  | nil =>
    cases room <;> exact plain hp
  | cons t ts ih =>
    cases room with
    | zero =>
      simp only [prefixed] at hp
      split at hp
      · cases hp
      · exact plain hp
    | succ room =>
      simp only [prefixed] at hp
      split at hp
      · next ht =>
        obtain ⟨⟨e', rest'⟩, he, hok⟩ := ok_of_bind hp
        cases hok
        obtain ⟨us, rfl, D, hD⟩ := ih room e' he
        obtain ⟨D', hD'⟩ := more us e' D
        exact ⟨op :: us, by rw [ht]; rfl, D', by omega⟩
      · exact plain hp

theorem compared_finds (h : operand.Finds (.chain .sum)) : (compared operand).Finds .cmp := by
  intro room ts e rest hp
  obtain ⟨⟨l, more⟩, hl, hrest⟩ := ok_of_bind hp
  obtain ⟨us, rfl, L, hL⟩ := h _ _ _ _ hl
  cases hc : comparison more with
  | none =>
    simp only [hc] at hrest
    cases hrest
    exact ⟨us, rfl, .alone L, hL⟩
  | some found =>
    obtain ⟨op, after⟩ := found
    simp only [hc] at hrest
    obtain ⟨⟨r, rest'⟩, hr, hok⟩ := ok_of_bind hrest
    cases hok
    obtain ⟨vs, rfl, R, hR⟩ := h _ _ _ _ hr
    obtain ⟨os, hs, rfl⟩ := spells_iff.mp hc
    exact ⟨us ++ (os ++ vs), by simp, .compared hs L R, Nat.max_le.mpr ⟨hL, hR⟩⟩

theorem listItems_find (h : inner.Finds (.chain .or)) {count : Nat} {es : List Expr}
    (hp : listItems (inner room) count ts = .ok (es, rest)) :
    ∃ us, ts = us ++ .closeBracket :: rest ∧ ∃ D : Derivation .items us (.list es), D.nesting 0 ≤ room := by
  induction count generalizing ts es with
  | zero => cases hp
  | succ count ih =>
    obtain ⟨⟨e, more⟩, he, hrest⟩ := ok_of_bind hp
    obtain ⟨us, rfl, D, hD⟩ := h _ _ _ _ he
    dsimp only at hrest
    split at hrest
    · obtain ⟨⟨es', rest'⟩, hes, hok⟩ := ok_of_bind hrest
      cases hok
      obtain ⟨vs, rfl, D', hD'⟩ := ih hes
      exact ⟨us ++ .comma :: vs, by simp, .item D D', Nat.max_le.mpr ⟨hD, hD'⟩⟩
    · cases hrest
      exact ⟨us, rfl, .lastItem D, hD⟩
    · cases hrest

theorem atom_finds (h : inner.Finds (.chain .or)) : (atom inner).Finds .atom := by
  intro room ts e rest hp
  have single {t : Token} {e : Expr} (ht : Atomic t e) :
      ∃ us, t :: rest = us ++ rest ∧ ∃ D : Derivation .atom us e, D.nesting 0 ≤ room :=
    ⟨[t], rfl, .atomic ht, Nat.zero_le room⟩
  cases ts with
  | nil => cases hp
  | cons t ts =>
    cases t
    case openParen =>
      cases room with
      | zero => cases hp
      | succ room =>
        obtain ⟨⟨e', more⟩, he, hrest⟩ := ok_of_bind hp
        obtain ⟨us, rfl, D, hD⟩ := h _ _ _ _ he
        dsimp only at hrest
        split at hrest <;> cases hrest
        refine ⟨.openParen :: (us ++ [.closeParen]), by simp, .paren D, ?_⟩
        rw [Derivation.nesting, D.nesting_eq]
        omega
    case openBracket =>
      cases room with
      | zero => cases hp
      | succ room =>
        simp only [atom] at hp
        split at hp
        · cases hp
          exact ⟨[.openBracket, .closeBracket], rfl, .emptyList, by simp [Derivation.nesting]⟩
        · obtain ⟨⟨es, more⟩, he, hok⟩ := ok_of_bind hp
          cases hok
          obtain ⟨us, rfl, D, hD⟩ := listItems_find h he
          refine ⟨.openBracket :: (us ++ [.closeBracket]), by simp, .list D, ?_⟩
          rw [Derivation.nesting, D.nesting_eq]
          omega
    case number x =>
      simp only [atom] at hp
      split at hp <;> cases hp
      exact single (.number (numberValue_eq_some_iff.mp ‹_›))
    all_goals cases hp
    all_goals exact single (by constructor)

/-- The parsers of all phrases find what they are named for. -/
theorem parserOf_finds (h : inner.Finds (.chain .or)) {p : Phrase} (hp : p ≠ .items) : (parserOf inner p).Finds p := by
  have unary : (parserOf inner .unary).Finds .unary :=
    prefixed_finds (atom_finds h) (fun _ _ D => ⟨.plain D, rfl⟩) fun _ _ D => ⟨.neg D, D.nesting_eq 1⟩
  have term : (parserOf inner (.chain .term)).Finds (.chain .term) := chain_finds (c := .term) unary
  have sum : (parserOf inner (.chain .sum)).Finds (.chain .sum) := chain_finds (c := .sum) term
  have cmp : (parserOf inner .cmp).Finds .cmp := compared_finds sum
  have not : (parserOf inner .not).Finds .not :=
    prefixed_finds cmp (fun _ _ D => ⟨.asserted D, rfl⟩) fun _ _ D => ⟨.not D, D.nesting_eq 1⟩
  have and : (parserOf inner (.chain .and)).Finds (.chain .and) := chain_finds (c := .and) not
  match p with
  | .atom => exact atom_finds h
  | .unary => exact unary
  | .chain .term => exact term
  | .chain .sum => exact sum
  | .cmp => exact cmp
  | .not => exact not
  | .chain .and => exact and
  | .chain .or => exact chain_finds (c := .or) and
  | .items => exact absurd rfl hp

theorem below_finds (bound : Nat) : (below bound).Finds (.chain .or) := by
  induction bound with
  | zero => intro room ts e rest hp; cases hp
  | succ bound ih => exact parserOf_finds ih (p := .chain .or) (by simp)

/-! ## Conditions -/

/-- How tokens make a condition with a tree. -/
abbrev Sentence (ts : List Token) (e : Expr) : Type := Derivation (.chain .or) ts e

/-- A sentence is read up to its end, or up to the level that is too deep. -/
theorem Derivation.below_reads (D : Sentence ts e) (room : Nat) :
    below (room + 1) room ts = if D.nesting 0 ≤ room then .ok (e, []) else .error .tooDeep := by
  have read := D.reads.closed (by simp) (le_refl room) (Phrase.ends_or [] (by simp))
  rwa [List.append_nil] at read

/-- A sentence has one tree and one nesting. -/
theorem Derivation.unique {e' : Expr} (D : Sentence ts e) (D' : Sentence ts e') : e = e' ∧ D.nesting 0 = D'.nesting 0 := by
  have roomy := D.below_reads (max (D.nesting 0) (D'.nesting 0))
  rw [D'.below_reads, if_pos (Nat.le_max_right ..), if_pos (Nat.le_max_left ..)] at roomy
  cases roomy
  have tight := D.below_reads (D.nesting 0)
  have tight' := D.below_reads (D'.nesting 0)
  rw [D'.below_reads] at tight tight'
  refine ⟨rfl, Nat.le_antisymm ?_ ?_⟩ <;> by_contra h
  · rw [if_neg h, if_pos (le_refl _)] at tight'
    cases tight'
  · rw [if_neg h, if_pos (le_refl _)] at tight
    cases tight

theorem parseTokens_sentence (D : Sentence ts e) :
    parseTokens ts = if D.nesting 0 ≤ maxNesting then .ok e else .error .tooDeep := by
  obtain ⟨t, us, rfl, -⟩ := D.begins
  rw [parseTokens, D.below_reads, List.isEmpty_cons, if_neg Bool.false_ne_true]
  split <;> rfl

/-- The conditions are the sentences that are not nested too deeply. -/
theorem parseTokens_eq_ok_iff : parseTokens ts = .ok e ↔ ∃ D : Sentence ts e, D.nesting 0 ≤ maxNesting := by
  constructor
  · intro hp
    rw [parseTokens] at hp
    split at hp
    · cases hp
    · obtain ⟨⟨e', rest⟩, he, hok⟩ := ok_of_bind hp
      cases rest with
      | nil =>
        cases hok
        obtain ⟨us, rfl, D, hD⟩ := below_finds _ _ _ _ _ he
        rw [List.append_nil]
        exact ⟨D, hD⟩
      | cons t ts => cases hok
  · rintro ⟨D, hD⟩
    rw [parseTokens_sentence D, if_pos hD]

end Capability.Condition
