/-
  Capability.Proofs.Blanks — white space around a condition.

  White space ends the token that is being read and begins none, so none of it matters in front of
  a text or behind it. Inside quotes it is text like any other, but quotes that are open at the end
  of a text are never closed by white space, and then there are no tokens at all.

  (1) `scan_cons`: a text is read one character after the other.
  (2) `tokenize_surrounded`: its tokens, or its error, do not depend on the white space around it.
  (3) `parse_trim`: nor does the tree of a condition.
-/

import Capability.Condition.Eval
import Mathlib.Data.List.TakeWhile

namespace Capability.Condition

open Text (isBlank)

/-! ## White space -/

/-- All white space. -/
def blanks : List Char :=
  (Text.blankRanges.flatMap fun r => List.range' r.1 (r.2 + 1 - r.1)).map Char.ofNat

theorem mem_blanks {c : Char} (h : isBlank c = true) : c ∈ blanks := by
  obtain ⟨r, hr, hc⟩ := List.any_eq_true.mp h
  simp only [Bool.and_eq_true, decide_eq_true_eq] at hc
  refine List.mem_map.mpr ⟨c.toNat, List.mem_flatMap.mpr ⟨r, hr, List.mem_range'_1.mpr (by omega)⟩, Char.ofNat_toNat c⟩

/-- White space has no other meaning in a condition. -/
theorem blank_is_no_text {c : Char} (h : isBlank c = true) :
    c.isDigit = false ∧ inWord c = false ∧ c ≠ '.' ∧ c ≠ '\\' ∧ ∀ s, twoCharacter s c = none := by
  have others : blanks.all (fun c => !c.isDigit && !inWord c && c != '.' && c != '\\' && c != '=' && c != '&' && c != '|') = true := by
    decide +kernel
  have plain := List.all_eq_true.mp others c (mem_blanks h)
  simp only [Bool.and_eq_true, Bool.not_eq_true', bne_iff_ne] at plain
  obtain ⟨⟨⟨⟨⟨⟨digit, word⟩, point⟩, backslash⟩, eq⟩, both⟩, either⟩ := plain
  refine ⟨digit, word, point, backslash, fun s => ?_⟩
  unfold twoCharacter
  split <;> first | rfl | exact absurd rfl eq | exact absurd rfl both | exact absurd rfl either

theorem opening_blank {c : Char} (h : isBlank c = true) : opening c = .ok ([], .nothing) := if_pos h

/-! ## One character -/

/-- The tokens of two texts, one behind the other; the first that has none is at fault. -/
def together (x y : Except LexError (List Token)) : Except LexError (List Token) := do .ok ((← x) ++ (← y))

@[simp] theorem together_nil (x : Except LexError (List Token)) : together x (.ok []) = x := by
  cases x with
  | error e => rfl
  | ok ts => exact congrArg Except.ok (List.append_nil ts)

@[simp] theorem nil_together (x : Except LexError (List Token)) : together (.ok []) x = x := by
  cases x <;> rfl

theorem together_assoc (x y z : Except LexError (List Token)) : together (together x y) z = together x (together y z) := by
  cases x with
  | error e => rfl
  | ok ts =>
    cases y with
    | error e => rfl
    | ok us =>
      cases z with
      | error e => rfl
      | ok vs => exact congrArg Except.ok (List.append_assoc ts us vs)

/-- What a character does: the tokens that are complete with it, and what is being read then. -/
def Pending.next (p : Pending) (c : Char) : Except LexError (List Token × Pending) :=
  match p.reach c with
  | .extends p' => .ok ([], p')
  | .completes t => .ok ([t], .nothing)
  | .outside => do
    let before ← p.close
    let (own, p') ← opening c
    .ok (before ++ own, p')

/-- A text is read one character after the other. -/
theorem scan_cons (p : Pending) (c : Char) (cs : List Char) :
    scan p (c :: cs) = (do let (ts, p') ← p.next c; together (.ok ts) (scan p' cs)) := by
  rw [scan, Pending.next]
  cases p.reach c with
  | «extends» p' => exact (nil_together _).symm
  | completes t => rfl
  | outside =>
    cases p.close with
    | error e => rfl
    | ok before =>
      cases opening c with
      | error e => rfl
      | ok start => rfl

/-- Quotes that are being read are no white space. -/
def Pending.Quoted : Pending → Prop
  | .quoted quote _ | .escape quote _ => isBlank quote = false
  | _ => True

theorem Pending.Quoted.reach {p p' : Pending} (hp : p.Quoted) {c : Char} (h : p.reach c = .extends p') : p'.Quoted := by
  cases p with
  | quoted quote done =>
    simp only [Pending.reach] at h
    split at h
    · cases h; exact hp
    · split at h
      · cases h
      · cases h; exact hp
  | escape quote done => cases h; exact hp
  | _ =>
    simp only [Pending.reach] at h
    repeat' split at h
    all_goals first | (cases h; done) | (cases h; trivial)

theorem quoted_of_opening {c : Char} {ts : List Token} {p : Pending} (h : opening c = .ok (ts, p)) : p.Quoted := by
  unfold opening at h
  split at h
  · cases h; trivial
  · next blank =>
    split at h
    · cases h; trivial
    · repeat' split at h
      all_goals first | (cases h; done) | (cases h; trivial) | (cases h; simpa [Pending.Quoted] using blank)

theorem Pending.Quoted.next {p : Pending} (hp : p.Quoted) {c : Char} {s : List Token × Pending} (h : p.next c = .ok s) : s.2.Quoted := by
  unfold Pending.next at h
  cases hr : p.reach c with
  | «extends» p' =>
    rw [hr] at h
    cases h
    exact hp.reach hr
  | completes t =>
    rw [hr] at h
    cases h
    trivial
  | outside =>
    rw [hr] at h
    cases hclose : p.close with
    | error e =>
      rw [hclose] at h
      cases h
    | ok before =>
      cases hopen : opening c with
      | error e =>
        rw [hclose, hopen] at h
        cases h
      | ok start =>
        rw [hclose, hopen] at h
        cases h
        exact quoted_of_opening (p := start.2) hopen

/-- Whether text in quotes is being read. -/
def Pending.isQuoting : Pending → Bool
  | .quoted _ _ | .escape _ _ => true
  | _ => false

theorem Pending.close_of_isQuoting {p : Pending} (h : p.isQuoting = true) : p.close = .error .unterminated := by
  cases p with
  | quoted | escape => rfl
  | _ => cases h

/-- White space ends all that is being read, but for text in quotes. -/
theorem next_blank {c : Char} (h : isBlank c = true) {p : Pending} (hp : p.isQuoting = false) :
    p.next c = (do .ok (← p.close, .nothing)) := by
  obtain ⟨digit, word, point, -, sign⟩ := blank_is_no_text h
  have outside : p.reach c = .outside := by
    cases p with
    | nothing => rfl
    | sign s => simp [Pending.reach, sign]
    | point => simp [Pending.reach, digit]
    | number done => simp [Pending.reach, digit, point]
    | word segments done => simp [Pending.reach, word, point]
    | quoted | escape => cases hp
  rw [Pending.next, outside]
  dsimp only
  rw [opening_blank h]
  cases p.close with
  | error e => rfl
  | ok before => exact congrArg (fun ts => Except.ok (ts, Pending.nothing)) (List.append_nil before)

/-- In quotes it is text, and does not end them. -/
theorem next_blank_quoting {c : Char} (h : isBlank c = true) {p : Pending} (hp : p.Quoted) (open' : p.isQuoting = true) :
    ∃ p', p.next c = .ok ([], p') ∧ p'.isQuoting = true := by
  cases p with
  | quoted quote done =>
    obtain ⟨-, -, -, backslash, -⟩ := blank_is_no_text h
    have other : c ≠ quote := fun e => by simp [← e, Pending.Quoted, h] at hp
    exact ⟨.quoted quote (c :: done), by simp [Pending.next, Pending.reach, backslash, other], rfl⟩
  | escape quote done => exact ⟨.quoted quote (unescape c :: done), rfl, rfl⟩
  | _ => cases open'

/-! ## Scanning -/

/-- Behind white space a text is read afresh, unless that stands in quotes. -/
theorem scan_blank_cons {c : Char} (h : isBlank c = true) {p : Pending} (hp : p.isQuoting = false) (cs : List Char) :
    scan p (c :: cs) = together p.close (scan .nothing cs) := by
  rw [scan_cons, next_blank h hp]
  cases p.close <;> rfl

theorem scan_blank {cs : List Char} (h : ∀ c ∈ cs, isBlank c = true) {p : Pending} (hp : p.Quoted) : scan p cs = p.close := by
  induction cs generalizing p with
  | nil => rfl
  | cons c cs ih =>
    have rest {p : Pending} (hp : p.Quoted) := ih (fun d hd => h d (.tail _ hd)) hp
    have blank := h c (.head _)
    cases open' : p.isQuoting with
    | false => rw [scan_blank_cons blank open', rest (p := .nothing) trivial, Pending.close, together_nil]
    | true =>
      -- It is read as text, and the quotes stay open: there are no tokens with it and none without it.
      obtain ⟨p', next, still⟩ := next_blank_quoting blank hp open'
      rw [scan_cons, next, Pending.close_of_isQuoting open']
      exact (nil_together _).trans ((rest (hp.next next)).trans (Pending.close_of_isQuoting still))

/-- White space behind a text adds no tokens. -/
theorem scan_append_blank {ws : List Char} (h : ∀ c ∈ ws, isBlank c = true) (cs : List Char) {p : Pending} (hp : p.Quoted) :
    scan p (cs ++ ws) = scan p cs := by
  induction cs generalizing p with
  | nil => exact scan_blank h hp
  | cons c cs ih =>
    rw [List.cons_append, scan_cons, scan_cons]
    cases hs : p.next c with
    | error e => rfl
    | ok s => exact congrArg (together (.ok s.1)) (ih (hp.next hs))

/-- White space in front of a text adds no tokens either. -/
theorem scan_blank_append {ws : List Char} (h : ∀ c ∈ ws, isBlank c = true) (cs : List Char) :
    scan .nothing (ws ++ cs) = scan .nothing cs := by
  induction ws with
  | nil => rfl
  | cons c ws ih =>
    rw [List.cons_append, scan_blank_cons (h c (.head _)) rfl, Pending.close, nil_together]
    exact ih fun d hd => h d (.tail _ hd)

/-! ## Conditions -/

/-- A text has the same tokens, or the same error, with white space around it. -/
theorem tokenize_surrounded {v w : String} (front : ∀ c ∈ v.toList, isBlank c = true) (behind : ∀ c ∈ w.toList, isBlank c = true)
    (text : String) : tokenize (v ++ text ++ w) = tokenize text := by
  rw [tokenize, String.toList_append, String.toList_append, scan_append_blank behind _ (p := .nothing) trivial,
    scan_blank_append front]
  rfl

/-- Trimming takes white space away at both ends, and nothing else. -/
theorem exists_around_trim (text : String) : ∃ v w : String, (∀ c ∈ v.toList, isBlank c = true) ∧
    (∀ c ∈ w.toList, isBlank c = true) ∧ v ++ Text.trim text ++ w = text := by
  let rest := text.toList.dropWhile isBlank
  have kept : Text.trimList text.toList ++ (rest.reverse.takeWhile isBlank).reverse = rest := by
    rw [Text.trimList, ← List.reverse_append, List.takeWhile_append_dropWhile, List.reverse_reverse]
  refine ⟨String.ofList (text.toList.takeWhile isBlank), String.ofList (rest.reverse.takeWhile isBlank).reverse,
    fun c hc => ?_, fun c hc => ?_, String.toList_injective ?_⟩
  · exact List.mem_takeWhile_imp (String.toList_ofList ▸ hc)
  · exact List.mem_takeWhile_imp (List.mem_reverse.mp (String.toList_ofList ▸ hc))
  · simp only [Text.trim, String.toList_append, String.toList_ofList]
    rw [List.append_assoc, kept, List.takeWhile_append_dropWhile]

theorem tokenize_trim (text : String) : tokenize (Text.trim text) = tokenize text := by
  obtain ⟨v, w, front, behind, whole⟩ := exists_around_trim text
  calc tokenize (Text.trim text) = tokenize (v ++ Text.trim text ++ w) := (tokenize_surrounded front behind _).symm
    _ = tokenize text := congrArg tokenize whole

/-- A condition is the same without the white space around it. -/
theorem parse_trim (text : String) : parse (Text.trim text) = parse text := by
  unfold parse
  rw [tokenize_trim]

end Capability.Condition
