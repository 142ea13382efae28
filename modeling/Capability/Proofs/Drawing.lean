/-
  Capability.Proofs.Drawing — the keys and the labels in the lines of a diagram.

  Every line behind the heading draws a node, an edge or a condition: it begins with a key, an arrow
  also ends with one, and a label stands between two quotes or two bars. A key has letters, digits and
  underscores only, so it can be read off its line again. In a label quotes and bars are written as
  entities, all else as it is.

  Declared ids are told apart by their positions. Of undeclared ones only the letters and digits are
  kept, so two of them share a key when they differ in other characters only. And since line breaks in
  labels are kept as well, a label takes as many lines more as it has line breaks.

  (1) `key_eq_iff`: when two ids share a key.
  (2) `drawn_key`: each key that can be read off the diagram is that of the id it was drawn for.
  (3) `ids_share_keys_only_if_undeclared`: so the arrows that seem to meet are known.
  (4) `strokes_framed`: nothing around a label is a delimiter or a line break.
  (5) `diagrams_break_lines_in_labels_only`: so labels are well delimited and the lines are known.
-/

import Capability.Diagram
import Capability.Proofs.Checked
import Mathlib.Data.List.Forall2
import Mathlib.Algebra.GroupWithZero.Nat

namespace Capability.Diagram

/-! ## Lines -/

/-- A line behind the heading: the ids that it draws, the text in it, and what that is put between. -/
structure Stroke where
  ids : List String
  label : Option String
  delimiter : Char
  line : String

/-- The id of a node, and the skill it calls. -/
def nodeLabel (n : Node) : String :=
  match n.skillId with
  | some skill => n.id ++ ": " ++ skill
  | none => n.id

/-- The condition of an edge, unless it is a fallback. -/
def edgeLabel? (e : Edge) : Option String := if e.kind = .fallback then none else e.condition

def nodeStroke (g : Graph) (n : Node) : Stroke := ⟨[n.id], some (nodeLabel n), '"', nodeLine g n⟩

def edgeStroke (g : Graph) (e : Edge) : Stroke := ⟨[e.source, e.target], edgeLabel? e, '|', edgeLine g e⟩

def conditionStroke (g : Graph) (n : Node) (c : BranchCondition) : Stroke :=
  ⟨[n.id, c.target], some c.expression, '|', conditionLine g n c⟩

/-- A stroke for every node, then one for every edge, then one for every condition of a branch node
    that leads where no edge of the node does. -/
def strokes (g : Graph) : List Stroke :=
  g.nodes.map (nodeStroke g) ++ g.edges.map (edgeStroke g)
    ++ (g.nodes.filter (·.kind = .branch)).flatMap fun n => (undrawn g n).map (conditionStroke g n)

variable {g : Graph} {s : Stroke}

theorem lines_eq (g : Graph) : lines g = "graph TD" :: (strokes g).map (·.line) := by
  simp [lines, strokes, nodeStroke, edgeStroke, conditionStroke, List.map_flatMap, Function.comp_def]

theorem mem_strokes : s ∈ strokes g ↔ (∃ n ∈ g.nodes, nodeStroke g n = s) ∨ (∃ e ∈ g.edges, edgeStroke g e = s) ∨
    ∃ n ∈ g.nodes, n.kind = .branch ∧ ∃ c ∈ undrawn g n, conditionStroke g n c = s := by
  simp [strokes, and_assoc]

theorem nodeLine_eq (g : Graph) (n : Node) : nodeLine g n = "    " ++ key g n.id ++
    ((brackets n.kind).1 ++ ("\"" ++ escape (nodeLabel n) ++ "\"" ++ (brackets n.kind).2)) := by
  simp only [← String.append_assoc]
  rfl

theorem edgeLine_eq (g : Graph) (e : Edge) : edgeLine g e = "    " ++ key g e.source ++
    (" " ++ (arrow e.kind ++ (edgeLabel? e).elim "" (fun l => "|" ++ escape l ++ "|") ++ " " ++ key g e.target)) := by
  unfold edgeLine edgeLabel?
  simp only [← String.append_assoc]
  cases e.condition with
  | none => simp
  | some c => by_cases h : e.kind = .fallback <;> simp [h, ← String.append_assoc]

theorem conditionLine_eq (g : Graph) (n : Node) (c : BranchCondition) : conditionLine g n c = "    " ++ key g n.id ++
    (" -.->|" ++ (escape c.expression ++ "| " ++ key g c.target)) := by
  simp only [← String.append_assoc]
  rfl

/-! ## Keys -/

section Keys

theorem lastPosition_eq_none_iff {id : String} {ns : List Node} {start : Nat} :
    lastPosition id ns start = none ↔ ∀ n ∈ ns, n.id ≠ id := by
  induction ns generalizing start with
  | nil => simp [lastPosition]
  | cons n ns ih => simp [lastPosition, ih, and_comm]

/-- A position holds a node with the id. -/
theorem lastPosition_eq_some {id : String} {ns : List Node} {start position : Nat}
    (h : lastPosition id ns start = some position) : start ≤ position ∧ ∃ n, ns[position - start]? = some n ∧ n.id = id := by
  induction ns generalizing start with
  | nil => cases h
  | cons n ns ih =>
    rcases Option.or_eq_some_iff.mp h with later | ⟨-, here⟩
    · obtain ⟨behind, m, hm, hid⟩ := ih later
      have next : position - start = position - (start + 1) + 1 := by omega
      exact ⟨by omega, m, by rwa [next, List.getElem?_cons_succ], hid⟩
    · split at here
      · next hid =>
        cases here
        exact ⟨Nat.le_refl _, n, by simp, hid⟩
      · cases here

theorem lastPosition_eq_none_iff_undeclared {id : String} : lastPosition id g.nodes 0 = none ↔ g.isDeclared id = false := by
  rw [lastPosition_eq_none_iff, ← Bool.not_eq_true, Graph.isDeclared_iff_mem]
  simp

/-- Ids that are declared are at different positions. -/
theorem lastPosition_inj {a b : String} {position : Nat} (ha : lastPosition a g.nodes 0 = some position)
    (hb : lastPosition b g.nodes 0 = some position) : a = b := by
  obtain ⟨-, n, hn, rfl⟩ := lastPosition_eq_some ha
  obtain ⟨-, m, hm, rfl⟩ := lastPosition_eq_some hb
  rw [Option.some.inj (hn.symm.trans hm)]

/-- Two characters are the same, or neither is an ASCII letter or digit. -/
def Blurred (c d : Char) : Prop := c = d ∨ c.isAlphanum = false ∧ d.isAlphanum = false

instance (c d : Char) : Decidable (Blurred c d) := inferInstanceAs (Decidable (_ ∨ _))

theorem sanitize_eq_iff {a b : String} : sanitize a = sanitize b ↔ List.Forall₂ Blurred a.toList b.toList := by
  have letters (c d : Char) : (if c.isAlphanum then c else '_') = (if d.isAlphanum then d else '_') ↔ Blurred c d := by
    have underscore : '_'.isAlphanum = false := rfl
    unfold Blurred
    by_cases hc : c.isAlphanum = true <;> by_cases hd : d.isAlphanum = true
    · simp [hc, hd]
    · rw [if_pos hc, if_neg hd]
      constructor
      · rintro rfl
        exact absurd hc (by simp [underscore])
      · rintro (rfl | ⟨h, -⟩)
        · exact absurd hc hd
        · exact absurd hc (by simp [h])
    · rw [if_neg hc, if_pos hd]
      constructor
      · rintro rfl
        exact absurd hd (by simp [underscore])
      · rintro (rfl | ⟨-, h⟩)
        · exact absurd hd hc
        · exact absurd hd (by simp [h])
    · simp [hc, hd]
  rw [sanitize, sanitize, String.ofList_inj, ← List.forall₂_eq_eq_eq, List.forall₂_map_left_iff, List.forall₂_map_right_iff]
  simp only [letters]

/-- Two ids are undeclared and differ in characters only that no key can have. -/
def Confused (g : Graph) (a b : String) : Prop :=
  g.isDeclared a = false ∧ g.isDeclared b = false ∧ List.Forall₂ Blurred a.toList b.toList

instance (g : Graph) (a b : String) : Decidable (Confused g a b) := inferInstanceAs (Decidable (_ ∧ _ ∧ _))

theorem position_inj {i j : Nat} (h : toString i = toString j) : i = j := by
  have digits : Nat.toDigits 10 i = Nat.toDigits 10 j := by
    rw [← Nat.toList_repr, ← Nat.toList_repr]
    exact congrArg String.toList h
  rw [← Nat.ofDigitChars_ten_toDigits (n := i), digits, Nat.ofDigitChars_ten_toDigits]

theorem positional_ne_missing (position : Nat) (rest : String) : "n" ++ toString position ≠ "missing_" ++ rest := by
  intro h
  have chars := congrArg String.toList h
  simp [String.toList_append] at chars

theorem key_eq_iff {a b : String} : key g a = key g b ↔ a = b ∨ Confused g a b := by
  unfold key Confused
  simp only [← lastPosition_eq_none_iff_undeclared]
  cases ha : lastPosition a g.nodes 0 with
  | some i =>
    cases hb : lastPosition b g.nodes 0 with
    | some j =>
      simp only [String.append_right_inj, reduceCtorEq, false_and, or_false]
      constructor
      · intro same
        rw [position_inj same] at ha
        exact lastPosition_inj ha hb
      · rintro rfl
        rw [Option.some.inj (ha.symm.trans hb)]
    | none =>
      have apart : a ≠ b := by
        rintro rfl
        cases ha.symm.trans hb
      exact iff_of_false (positional_ne_missing i _) (by simp [apart])
  | none =>
    cases hb : lastPosition b g.nodes 0 with
    | some j =>
      have apart : a ≠ b := by
        rintro rfl
        cases ha.symm.trans hb
      exact iff_of_false (positional_ne_missing j _).symm (by simp [apart])
    | none =>
      simp only [String.append_right_inj, sanitize_eq_iff, true_and]
      constructor
      · exact .inr
      · rintro (rfl | h)
        · exact List.forall₂_same.mpr fun c _ => .inl rfl
        · exact h

/-- What a key is made of. -/
def isKeyChar (c : Char) : Bool := c.isAlphanum || c = '_'

theorem isKeyChar_key (g : Graph) (id : String) : ∀ c ∈ (key g id).toList, isKeyChar c = true := by
  intro c hc
  unfold key at hc
  split at hc
  · rw [String.toList_append, Nat.toString_eq_repr, Nat.toList_repr, List.mem_append] at hc
    rcases hc with hc | hc
    · rw [List.mem_singleton.mp hc]
      rfl
    · have digit : c.isDigit = true := Nat.isDigit_of_mem_toDigits (by decide) (by decide) hc
      simp [isKeyChar, Char.isAlphanum, digit]
  · rw [String.toList_append, List.mem_append] at hc
    rcases hc with hc | hc
    · have word : "missing_".toList.all isKeyChar = true := by decide
      exact List.all_eq_true.mp word c hc
    · rw [sanitize, String.toList_ofList] at hc
      obtain ⟨d, -, rfl⟩ := List.mem_map.mp hc
      split
      · next h => simp [isKeyChar, h]
      · rfl

/-! Keys are read off lines: the first one behind the indentation, the last one at the end. -/

def firstKey (line : String) : String := String.ofList ((line.toList.drop 4).takeWhile isKeyChar)

def lastKey (line : String) : String := String.ofList (line.toList.reverse.takeWhile isKeyChar).reverse

theorem takeWhile_isKeyChar {cs rest : List Char} {c : Char} (hcs : ∀ d ∈ cs, isKeyChar d = true)
    (hc : isKeyChar c = false) : (cs ++ c :: rest).takeWhile isKeyChar = cs := by
  rw [List.takeWhile_append_of_pos hcs, List.takeWhile_cons_of_neg (by simp [hc]), List.append_nil]

theorem firstKey_eq {id stop rest : String} (h : ∃ c cs, stop.toList = c :: cs ∧ isKeyChar c = false) :
    firstKey ("    " ++ key g id ++ (stop ++ rest)) = key g id := by
  obtain ⟨c, cs, hs, hc⟩ := h
  have behind : ("    " ++ key g id ++ (stop ++ rest)).toList.drop 4 = (key g id).toList ++ c :: (cs ++ rest.toList) := by
    simp only [String.toList_append, hs, List.append_assoc, List.cons_append]
    exact List.drop_left' rfl
  rw [firstKey, behind, takeWhile_isKeyChar (isKeyChar_key g id) hc, String.ofList_toList]

theorem lastKey_eq {id front stop : String} (h : ∃ cs c, stop.toList = cs ++ [c] ∧ isKeyChar c = false) :
    lastKey (front ++ stop ++ key g id) = key g id := by
  obtain ⟨cs, c, hs, hc⟩ := h
  have backwards : (front ++ stop ++ key g id).toList.reverse =
      (key g id).toList.reverse ++ c :: (cs.reverse ++ front.toList.reverse) := by
    simp [String.toList_append, hs]
  have keyed : ∀ d ∈ (key g id).toList.reverse, isKeyChar d = true := fun d hd =>
    isKeyChar_key g id d (List.mem_reverse.mp hd)
  rw [lastKey, backwards, takeWhile_isKeyChar keyed hc, List.reverse_reverse, String.ofList_toList]

theorem firstKey_nodeLine (g : Graph) (n : Node) : firstKey (nodeLine g n) = key g n.id := by
  rw [nodeLine_eq]
  refine firstKey_eq ?_
  cases n.kind <;> exact ⟨_, _, rfl, rfl⟩

theorem firstKey_edgeLine (g : Graph) (e : Edge) : firstKey (edgeLine g e) = key g e.source := by
  rw [edgeLine_eq]
  exact firstKey_eq ⟨' ', [], rfl, rfl⟩

theorem lastKey_edgeLine (g : Graph) (e : Edge) : lastKey (edgeLine g e) = key g e.target := by
  rw [edgeLine_eq]
  simp only [← String.append_assoc]
  exact lastKey_eq ⟨[], ' ', rfl, rfl⟩

theorem firstKey_conditionLine (g : Graph) (n : Node) (c : BranchCondition) : firstKey (conditionLine g n c) = key g n.id := by
  rw [conditionLine_eq]
  exact firstKey_eq ⟨' ', "-.->|".toList, rfl, rfl⟩

theorem lastKey_conditionLine (g : Graph) (n : Node) (c : BranchCondition) : lastKey (conditionLine g n c) = key g c.target := by
  rw [conditionLine_eq]
  simp only [← String.append_assoc]
  exact lastKey_eq ⟨['|'], ' ', rfl, rfl⟩

/-! ## Drawn ids -/

/-- The ids that occur in a graph. -/
def mentioned (g : Graph) : List String :=
  g.nodes.map (·.id) ++ g.edges.flatMap (fun e => [e.source, e.target])
    ++ (g.nodes.filter (·.kind = .branch)).flatMap (·.conditions.map (·.target))

/-- The ids that a diagram draws, each time with the key that can be read there. -/
def drawn (g : Graph) : List (String × String) :=
  (strokes g).flatMap fun s => s.ids.zip [firstKey s.line, lastKey s.line]

theorem drawn_key {p : String × String} (h : p ∈ drawn g) : p.2 = key g p.1 := by
  obtain ⟨s, hs, hp⟩ := List.mem_flatMap.mp h
  rcases mem_strokes.mp hs with ⟨n, -, rfl⟩ | ⟨e, -, rfl⟩ | ⟨n, -, -, c, -, rfl⟩
  · simp only [nodeStroke, List.zip_cons_cons, List.zip_nil_left, List.mem_singleton] at hp
    rw [hp, firstKey_nodeLine]
  · simp only [edgeStroke, List.zip_cons_cons, List.zip_nil_left, List.mem_cons, List.not_mem_nil, or_false] at hp
    rcases hp with rfl | rfl
    · exact firstKey_edgeLine g e
    · exact lastKey_edgeLine g e
  · simp only [conditionStroke, List.zip_cons_cons, List.zip_nil_left, List.mem_cons, List.not_mem_nil, or_false] at hp
    rcases hp with rfl | rfl
    · exact firstKey_conditionLine g n c
    · exact lastKey_conditionLine g n c

theorem ids_drawn (g : Graph) : (drawn g).map (·.1) = (strokes g).flatMap (·.ids) := by
  rw [drawn, List.map_flatMap]
  refine List.flatMap_congr fun s hs => List.map_fst_zip ?_
  rcases mem_strokes.mp hs with ⟨n, -, rfl⟩ | ⟨e, -, rfl⟩ | ⟨n, -, -, c, -, rfl⟩
  · exact Nat.le_succ 1
  · exact Nat.le_refl 2
  · exact Nat.le_refl 2

/-- Every id that occurs is drawn. A target of a condition that has no arrow of its own is that of an
    edge. -/
theorem mem_mentioned_iff {id : String} : id ∈ mentioned g ↔ id ∈ (drawn g).map (·.1) := by
  rw [ids_drawn, List.mem_flatMap]
  simp only [mentioned, List.mem_append, List.mem_map, List.mem_flatMap, List.mem_filter, decide_eq_true_eq]
  constructor
  · rintro ((⟨n, hn, rfl⟩ | ⟨e, he, hid⟩) | ⟨n, ⟨hn, hk⟩, c, hc, rfl⟩)
    · exact ⟨_, mem_strokes.mpr (.inl ⟨n, hn, rfl⟩), .head _⟩
    · exact ⟨_, mem_strokes.mpr (.inr (.inl ⟨e, he, rfl⟩)), hid⟩
    · by_cases led : c.target ∈ g.successors n.id
      · obtain ⟨e, he, ht⟩ := List.mem_map.mp led
        exact ⟨_, mem_strokes.mpr (.inr (.inl ⟨e, (List.mem_filter.mp he).1, rfl⟩)), ht ▸ .tail _ (.head _)⟩
      · have alone : c ∈ undrawn g n := List.mem_filter.mpr ⟨hc, by simpa using led⟩
        exact ⟨_, mem_strokes.mpr (.inr (.inr ⟨n, hn, hk, c, alone, rfl⟩)), .tail _ (.head _)⟩
  · rintro ⟨s, hs, hid⟩
    rcases mem_strokes.mp hs with ⟨n, hn, rfl⟩ | ⟨e, he, rfl⟩ | ⟨n, hn, hk, c, hc, rfl⟩
    · exact .inl (.inl ⟨n, hn, (List.mem_singleton.mp hid).symm⟩)
    · exact .inl (.inr ⟨e, he, hid⟩)
    · rcases List.mem_cons.mp hid with rfl | hid
      · exact .inl (.inl ⟨n, hn, rfl⟩)
      · exact .inr ⟨n, ⟨hn, hk⟩, c, (List.mem_filter.mp hc).1, (List.mem_singleton.mp hid).symm⟩

/-- The lines of a diagram behind its heading draw just the ids that occur in the graph. Wherever two
    keys stand in them, they are the same just if their ids are, or if both ids are undeclared and differ
    in characters only that are no ASCII letters or digits. So keys identify ids in just those graphs in
    which no two ids differ like that. -/
theorem ids_share_keys_only_if_undeclared (g : Graph) :
    lines g = "graph TD" :: (strokes g).map (·.line) ∧ (∀ id, id ∈ mentioned g ↔ id ∈ (drawn g).map (·.1)) ∧
      (∀ p ∈ drawn g, ∀ q ∈ drawn g, p.2 = q.2 ↔ p.1 = q.1 ∨ Confused g p.1 q.1) ∧
      ((∀ p ∈ drawn g, ∀ q ∈ drawn g, p.2 = q.2 → p.1 = q.1) ↔
        ∀ a ∈ mentioned g, ∀ b ∈ mentioned g, Confused g a b → a = b) := by
  have same : ∀ p ∈ drawn g, ∀ q ∈ drawn g, p.2 = q.2 ↔ p.1 = q.1 ∨ Confused g p.1 q.1 := by
    intro p hp q hq
    rw [drawn_key hp, drawn_key hq, key_eq_iff]
  refine ⟨lines_eq g, fun _ => mem_mentioned_iff, same, ?_, ?_⟩
  · intro h a ha b hb confused
    obtain ⟨p, hp, rfl⟩ := List.mem_map.mp (mem_mentioned_iff.mp ha)
    obtain ⟨q, hq, rfl⟩ := List.mem_map.mp (mem_mentioned_iff.mp hb)
    exact h p hp q hq ((same p hp q hq).mpr (.inr confused))
  · intro h p hp q hq shared
    rcases (same p hp q hq).mp shared with equal | confused
    · exact equal
    · exact h _ (mem_mentioned_iff.mpr (List.mem_map_of_mem hp)) _ (mem_mentioned_iff.mpr (List.mem_map_of_mem hq)) confused

/-- A start node, an end node and edges that lead to nodes that are not declared. -/
def haunted (ghosts : List String) : Graph where
  id := "haunted"
  version := "1.0"
  name := ""
  description := ""
  metadata := none
  strategy := .abort
  maxRetries := 0
  retryDelay := none
  nodes := [{ id := "start", kind := .start }, { id := "end", kind := .finish }]
  edges := { source := "start", target := "end" } :: ghosts.map fun ghost => { source := "end", target := ghost }

/-- Two different ids are drawn under one key. -/
theorem two_ghosts_are_drawn_as_one : "ghost-node" ∈ mentioned (haunted ["ghost-node", "ghost node"]) ∧
    "ghost node" ∈ mentioned (haunted ["ghost-node", "ghost node"]) ∧
      ("ghost-node", "missing_ghost_node") ∈ drawn (haunted ["ghost-node", "ghost node"]) ∧
        ("ghost node", "missing_ghost_node") ∈ drawn (haunted ["ghost-node", "ghost node"]) := by
  decide +kernel

/-- Ghosts that differ in a letter are kept apart. -/
theorem other_ghosts_are_told_apart :
    (∀ a ∈ mentioned (haunted ["ghost-node", "ghost-mode", "n0"]), ∀ b ∈ mentioned (haunted ["ghost-node", "ghost-mode", "n0"]),
        Confused (haunted ["ghost-node", "ghost-mode", "n0"]) a b → a = b) ∧
      ∀ p ∈ drawn (haunted ["ghost-node", "ghost-mode", "n0"]), ∀ q ∈ drawn (haunted ["ghost-node", "ghost-mode", "n0"]),
        p.2 = q.2 → p.1 = q.1 := by
  have clear : ∀ a ∈ mentioned (haunted ["ghost-node", "ghost-mode", "n0"]),
      ∀ b ∈ mentioned (haunted ["ghost-node", "ghost-mode", "n0"]),
        Confused (haunted ["ghost-node", "ghost-mode", "n0"]) a b → a = b := by
    decide +kernel
  exact ⟨clear, (ids_share_keys_only_if_undeclared _).2.2.2.mpr clear⟩

end Keys

/-! ## Labels -/

section Labels

/-- The parts of a text between the occurrences of a character. -/
def sections (separator : Char) (text : String) : List String := (text.toList.splitOn separator).map String.ofList

theorem length_splitOn (c : Char) (cs : List Char) : (cs.splitOn c).length = cs.count c + 1 := by
  induction cs with
  | nil => rfl
  | cons d cs ih =>
    rw [List.splitOn_cons_eq_if_modifyHead, List.count_cons]
    split
    · rw [List.length_cons, ih]
    · rw [List.length_modifyHead, ih, Nat.add_zero]

theorem count_intercalate (c : Char) {ls : List (List Char)} (h : ls ≠ []) :
    ([c].intercalate ls).count c + 1 = (ls.map (·.count c)).sum + ls.length := by
  induction ls with
  | nil => exact absurd rfl h
  | cons l ls ih =>
    cases ls with
    | nil => simp
    | cons m ls =>
      have rest := ih (List.cons_ne_nil m ls)
      rw [List.intercalate_cons_cons, List.count_append, List.count_append, List.count_singleton_self, List.map_cons,
        List.sum_cons, List.length_cons]
      omega

/-- A character that a label is put between. -/
def isDelimiter (c : Char) : Bool := c = '"' || c = '|'

theorem escapeChar_delimiters (c : Char) : (escapeChar c).any isDelimiter = false := by
  unfold escapeChar
  split
  · decide
  · split
    · decide
    · next quote bar => simp [isDelimiter, quote, bar]

theorem escape_delimiters (text : String) : (escape text).toList.any isDelimiter = false := by
  rw [escape, String.toList_ofList, List.any_flatMap]
  exact List.any_eq_false.mpr fun c _ => by rw [escapeChar_delimiters]; decide

/-- Line breaks are not escaped. -/
theorem count_escape (text : String) : (escape text).toList.count '\n' = text.toList.count '\n' := by
  rw [escape, String.toList_ofList]
  induction text.toList with
  | nil => rfl
  | cons c cs ih =>
    have kept : (escapeChar c).count '\n' = [c].count '\n' := by
      unfold escapeChar
      split
      · next quote => subst quote; decide
      · split
        · next bar => subst bar; decide
        · rfl
    rw [List.flatMap_cons, List.count_append, ih, kept, ← List.count_append, List.singleton_append]

/-- A character that ends no label and no line. -/
def isPlain (c : Char) : Bool := !isDelimiter c && c != '\n'

theorem plain_key (g : Graph) (id : String) : (key g id).toList.all isPlain = true := by
  refine List.all_eq_true.mpr fun c hc => ?_
  have keyed := isKeyChar_key g id c hc
  have apart {d : Char} (hd : isKeyChar d = false) : c ≠ d := by
    rintro rfl
    cases keyed.symm.trans hd
  simp [isPlain, isDelimiter, apart (d := '"') rfl, apart (d := '|') rfl, apart (d := '\n') rfl]

/-- The label of a line with what it is put between. -/
def Stroke.frame (s : Stroke) : List Char :=
  match s.label with
  | some l => s.delimiter :: ((escape l).toList ++ [s.delimiter])
  | none => []

/-- Only the label of a line has delimiters around it, and line breaks in it. -/
structure Stroke.Framed (s : Stroke) (front back : List Char) : Prop where
  line : s.line.toList = front ++ s.frame ++ back
  front : front.all isPlain = true
  back : back.all isPlain = true
  delimiter : isDelimiter s.delimiter = true

theorem nodeStroke_framed (g : Graph) (n : Node) :
    (nodeStroke g n).Framed ("    " ++ key g n.id ++ (brackets n.kind).1).toList (brackets n.kind).2.toList where
  line := by
    show (nodeLine g n).toList = _
    rw [nodeLine_eq]
    simp [String.toList_append, Stroke.frame, nodeStroke]
  front := by
    have left : (brackets n.kind).1.toList.all isPlain = true := by cases n.kind <;> decide
    rw [String.toList_append, String.toList_append, List.all_append, List.all_append, plain_key, left]
    decide
  back := by cases n.kind <;> decide
  delimiter := rfl

theorem edgeStroke_framed (g : Graph) (e : Edge) :
    (edgeStroke g e).Framed ("    " ++ key g e.source ++ " " ++ arrow e.kind).toList (" " ++ key g e.target).toList where
  line := by
    show (edgeLine g e).toList = _
    rw [edgeLine_eq]
    cases h : edgeLabel? e <;> simp [String.toList_append, Stroke.frame, edgeStroke, h]
  front := by
    have shaft : (arrow e.kind).toList.all isPlain = true := by cases e.kind <;> decide
    rw [String.toList_append, String.toList_append, String.toList_append, List.all_append, List.all_append, List.all_append,
      plain_key, shaft]
    decide
  back := by
    rw [String.toList_append, List.all_append, plain_key]
    decide
  delimiter := rfl

theorem conditionStroke_framed (g : Graph) (n : Node) (c : BranchCondition) :
    (conditionStroke g n c).Framed ("    " ++ key g n.id ++ " -.->").toList (" " ++ key g c.target).toList where
  line := by
    show (conditionLine g n c).toList = _
    rw [conditionLine_eq]
    simp [String.toList_append, Stroke.frame, conditionStroke]
  front := by
    rw [String.toList_append, String.toList_append, List.all_append, List.all_append, plain_key]
    decide
  back := by
    rw [String.toList_append, List.all_append, plain_key]
    decide
  delimiter := rfl

theorem strokes_framed (h : s ∈ strokes g) : ∃ front back, s.Framed front back := by
  rcases mem_strokes.mp h with ⟨n, -, rfl⟩ | ⟨e, -, rfl⟩ | ⟨n, -, -, c, -, rfl⟩
  · exact ⟨_, _, nodeStroke_framed g n⟩
  · exact ⟨_, _, edgeStroke_framed g e⟩
  · exact ⟨_, _, conditionStroke_framed g n c⟩

/-- The line breaks of a line's label. -/
def Stroke.breaks (s : Stroke) : Nat := s.label.elim 0 (·.toList.count '\n')

/-- The only quotes and bars of a line are around its label, if it has one, and the escaped label is
    all that stands between them. -/
def Stroke.Sealed (s : Stroke) : Prop :=
  s.line.toList.filter isDelimiter = s.label.elim [] (fun _ => [s.delimiter, s.delimiter]) ∧
    ∀ l, s.label = some l → ∃ before after, sections s.delimiter s.line = [before, escape l, after]

namespace Stroke.Framed

variable {front back : List Char}

theorem count_line (h : s.Framed front back) : s.line.toList.count '\n' = s.breaks := by
  have none {cs : List Char} (hp : cs.all isPlain = true) : cs.count '\n' = 0 :=
    List.count_eq_zero.mpr fun hc => absurd (List.all_eq_true.mp hp _ hc) (by decide)
  have around : [s.delimiter].count '\n' = 0 := by
    refine List.count_eq_zero.mpr fun broken => ?_
    have mark := h.delimiter
    rw [← List.mem_singleton.mp broken] at mark
    cases mark
  rw [h.line, List.count_append, List.count_append, none h.front, none h.back, Stroke.frame, Stroke.breaks]
  cases s.label with
  | none => rfl
  | some l =>
    show 0 + ([s.delimiter] ++ ((escape l).toList ++ [s.delimiter])).count '\n' + 0 = l.toList.count '\n'
    rw [List.count_append, List.count_append, around, count_escape]
    omega

theorem sealed (h : s.Framed front back) : s.Sealed := by
  have none {cs : List Char} (hp : cs.all isPlain = true) : cs.any isDelimiter = false := by
    refine List.any_eq_false.mpr fun c hc => ?_
    have plain := List.all_eq_true.mp hp c hc
    rw [isPlain, Bool.and_eq_true, Bool.not_eq_true'] at plain
    rw [plain.1]
    decide
  have clean {cs : List Char} (hc : cs.any isDelimiter = false) : cs.filter isDelimiter = [] :=
    List.filter_eq_nil_iff.mpr (List.any_eq_false.mp hc)
  have apart {cs : List Char} (hc : cs.any isDelimiter = false) : s.delimiter ∉ cs := fun within =>
    List.any_eq_false.mp hc _ within h.delimiter
  refine ⟨?_, fun l hl => ⟨String.ofList front, String.ofList back, ?_⟩⟩
  · rw [h.line, List.filter_append, List.filter_append, clean (none h.front), clean (none h.back), Stroke.frame]
    cases s.label with
    | none => rfl
    | some l => simp [List.filter_append, clean (escape_delimiters l), h.delimiter]
  · have parts : s.line.toList = front ++ s.delimiter :: ((escape l).toList ++ s.delimiter :: back) := by
      rw [h.line, Stroke.frame, hl]
      simp
    rw [sections, parts, List.splitOn_append_cons_self_of_not_mem (apart (none h.front)),
      List.splitOn_append_cons_self_of_not_mem (apart (escape_delimiters l)), List.splitOn_eq_singleton (apart (none h.back))]
    simp

end Stroke.Framed

/-- How many conditions of branch nodes lead where no edge of their node does. -/
def arrowless (g : Graph) : Nat :=
  ((g.nodes.filter (·.kind = .branch)).map fun n =>
    n.conditions.countP fun c => !g.edges.any fun e => e.source = n.id && e.target = c.target).sum

/-- How many line breaks there are in the labels of a diagram. -/
def breaks (g : Graph) : Nat := ((strokes g).map Stroke.breaks).sum

theorem length_strokes (g : Graph) : (strokes g).length = g.nodes.length + g.edges.length + arrowless g := by
  have alone (n : Node) : (undrawn g n).length =
      n.conditions.countP fun c => !g.edges.any fun e => e.source = n.id && e.target = c.target := by
    rw [undrawn, ← List.countP_eq_length_filter]
    refine List.countP_congr fun c _ => ?_
    simp [Graph.successors, Graph.outgoing]
  simp only [strokes, List.length_append, List.length_map, List.length_flatMap, alone, arrowless]

theorem count_lines (g : Graph) : ((lines g).map (·.toList.count '\n')).sum = breaks g := by
  have each : ∀ s ∈ strokes g, s.line.toList.count '\n' = s.breaks := by
    intro s hs
    obtain ⟨front, back, framed⟩ := strokes_framed hs
    exact framed.count_line
  rw [lines_eq, List.map_cons, List.sum_cons, List.map_map, breaks]
  have heading : "graph TD".toList.count '\n' = 0 := by decide
  rw [heading, Nat.zero_add]
  exact congrArg List.sum (List.map_congr_left each)

theorem toList_render (g : Graph) : (render g).toList = ['\n'].intercalate ((lines g).map String.toList) :=
  String.toList_intercalate

/-- The lines of a text are one more than its line breaks: those between the lines that are written,
    and those in the labels. -/
theorem length_sections (g : Graph) : (sections '\n' (render g)).length = (lines g).length + breaks g := by
  have written : (lines g).map String.toList ≠ [] := by simp [lines_eq]
  rw [sections, List.length_map, length_splitOn, toList_render, count_intercalate '\n' written, List.map_map,
    List.length_map, Nat.add_comm, ← count_lines]
  rfl

theorem sections_eq_lines (h : breaks g = 0) : sections '\n' (render g) = lines g := by
  have unbroken : ∀ l ∈ (lines g).map String.toList, '\n' ∉ l := by
    rw [← count_lines, List.sum_eq_zero_iff_forall_eq_nat] at h
    intro l hl
    obtain ⟨line, hm, rfl⟩ := List.mem_map.mp hl
    exact List.count_eq_zero.mp (h _ (List.mem_map_of_mem hm))
  have written : (lines g).map String.toList ≠ [] := by simp [lines_eq]
  rw [sections, toList_render, List.splitOn_intercalate '\n' unbroken written, List.map_map]
  simp [Function.comp_def]

/-- A diagram has a line for its heading, one for every node, every edge and every condition of a
    branch node without an arrow, and one more for every line break in a label. If no label has a line
    break, these are the lines of the diagram in this order, and otherwise they are not. In each of them
    the only quotes and bars are those around the label, and only the label is between these. -/
theorem diagrams_break_lines_in_labels_only (g : Graph) :
    (sections '\n' (render g)).length = 1 + g.nodes.length + g.edges.length + arrowless g + breaks g ∧
      (sections '\n' (render g) = "graph TD" :: (strokes g).map (·.line) ↔ breaks g = 0) ∧
      ∀ s ∈ strokes g, s.Sealed := by
  have counted : (lines g).length = 1 + g.nodes.length + g.edges.length + arrowless g := by
    rw [lines_eq, List.length_cons, List.length_map, length_strokes]
    omega
  refine ⟨by rw [length_sections, counted], ⟨fun h => ?_, fun h => ?_⟩, fun s hs => ?_⟩
  · have lengths := length_sections g
    rw [h, ← lines_eq] at lengths
    omega
  · rw [sections_eq_lines h, lines_eq]
  · obtain ⟨front, back, framed⟩ := strokes_framed hs
    exact framed.sealed

/-- An edge with a condition. -/
def guard (condition : String) : Edge := { source := "start", target := "end", condition := some condition }

/-- A start node and an end node behind a guard. -/
def guarded (condition : String) : Graph where
  id := "guarded"
  version := "1.0"
  name := ""
  description := ""
  metadata := none
  strategy := .abort
  maxRetries := 0
  retryDelay := none
  nodes := [{ id := "start", kind := .start }, { id := "end", kind := .finish }]
  edges := [guard condition]

/-- A condition written in two lines takes two lines of the diagram. -/
theorem a_condition_in_two_lines_breaks_its_line :
    1 + (guarded "ready &&\nwilling").nodes.length + (guarded "ready &&\nwilling").edges.length
        + arrowless (guarded "ready &&\nwilling") = 4 ∧
      sections '\n' (render (guarded "ready &&\nwilling")) =
        ["graph TD", "    n0((\"start\"))", "    n1((\"end\"))", "    n0 -->|ready &&", "willing| n1"] := by
  decide +kernel

/-- Quotes and bars in a condition are no delimiters. -/
theorem a_quoted_alternative_stays_inside :
    (breaks (guarded "a == \"b\" || c") = 0 ∧
      sections '\n' (render (guarded "a == \"b\" || c")) =
        "graph TD" :: (strokes (guarded "a == \"b\" || c")).map (·.line)) ∧
      edgeStroke (guarded "a == \"b\" || c") (guard "a == \"b\" || c") ∈ strokes (guarded "a == \"b\" || c") ∧
      (edgeStroke (guarded "a == \"b\" || c") (guard "a == \"b\" || c")).Sealed := by
  obtain ⟨-, known, sealed⟩ := diagrams_break_lines_in_labels_only (guarded "a == \"b\" || c")
  have unbroken : breaks (guarded "a == \"b\" || c") = 0 := by decide +kernel
  have drawn : edgeStroke (guarded "a == \"b\" || c") (guard "a == \"b\" || c") ∈ strokes (guarded "a == \"b\" || c") :=
    mem_strokes.mpr (.inr (.inl ⟨_, .head _, rfl⟩))
  exact ⟨⟨unbroken, known.mpr unbroken⟩, drawn, sealed _ drawn⟩

end Labels

end Capability.Diagram
