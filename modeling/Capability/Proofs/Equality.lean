/-
  Capability.Proofs.Equality — what `==`, `!=` and membership in a list test.

  Values are compared part by part. Numbers that stand alone or in lists are compared as the doubles
  nearest to them, and numbers in objects by what they are worth themselves, if both are written as
  integers or both as doubles. So 1 and 1.0 are equal, and so are two integers beyond 2^53 that come to
  one double; where doubles hold the numbers exactly, equal values are those that are worth the same.

  (1) `same_iff`, `looseEq_iff`: both tests go through values alike and differ in the test for numbers.
  (2) `standsFor_iff`: what the tests for numbers say about the numbers' worth.
  (3) `equality_is_of_doubles_outside_objects`: so what `==`, `!=` and `in` say about two values.
-/

import Capability.Proofs.Doubles
import Capability.Condition.Eval

namespace Capability

namespace Json

/-! ## The shape of values -/

mutual

/-- Two values are the same part by part, if a relation holds between their numbers. The relation is
    told whether they stand inside an object. -/
def Alike (R : Bool → Json → Json → Prop) (inside : Bool) : Json → Json → Prop
  | .null, .null => True
  | .bool a, .bool b => a = b
  | .str a, .str b => a = b
  | .int a, .int b => R inside (.int a) (.int b)
  | .int a, .float b => R inside (.int a) (.float b)
  | .float a, .int b => R inside (.float a) (.int b)
  | .float a, .float b => R inside (.float a) (.float b)
  | .arr a, .arr b => AlikeItems R inside a b
  | .obj a, .obj b => AlikeFields R a b
  | _, _ => False

def AlikeItems (R : Bool → Json → Json → Prop) (inside : Bool) : List Json → List Json → Prop
  | [], [] => True
  | a :: as, b :: bs => Alike R inside a b ∧ AlikeItems R inside as bs
  | _, _ => False

def AlikeFields (R : Bool → Json → Json → Prop) : List (String × Json) → List (String × Json) → Prop
  | [], [] => True
  | (k, a) :: as, (l, b) :: bs => k = l ∧ Alike R true a b ∧ AlikeFields R as bs
  | _, _ => False

end

mutual

/-- All numbers in a value have a property. -/
def EachNumber (P : Json → Prop) : Json → Prop
  | .int n => P (.int n)
  | .float x => P (.float x)
  | .arr items => EachNumberOf P items
  | .obj fields => EachNumberIn P fields
  | _ => True

def EachNumberOf (P : Json → Prop) : List Json → Prop
  | [] => True
  | v :: rest => EachNumber P v ∧ EachNumberOf P rest

def EachNumberIn (P : Json → Prop) : List (String × Json) → Prop
  | [] => True
  | (_, v) :: rest => EachNumber P v ∧ EachNumberIn P rest

end

variable {R S : Bool → Json → Json → Prop} {P Q : Json → Prop}

mutual

theorem EachNumber.mono (h : ∀ x, P x → Q x) : ∀ {v : Json}, EachNumber P v → EachNumber Q v
  | .null, _ | .bool _, _ | .str _, _ => trivial
  | .int _, hv | .float _, hv => h _ hv
  | .arr _, hv => EachNumberOf.mono h hv
  | .obj _, hv => EachNumberIn.mono h hv

theorem EachNumberOf.mono (h : ∀ x, P x → Q x) : ∀ {items : List Json}, EachNumberOf P items → EachNumberOf Q items
  | [], _ => trivial
  | _ :: _, hv => ⟨hv.1.mono h, hv.2.mono h⟩

theorem EachNumberIn.mono (h : ∀ x, P x → Q x) :
    ∀ {fields : List (String × Json)}, EachNumberIn P fields → EachNumberIn Q fields
  | [], _ => trivial
  | _ :: _, hv => ⟨hv.1.mono h, hv.2.mono h⟩

end

mutual

theorem Alike.imp (h : ∀ inside x y, P x → P y → R inside x y → S inside x y) :
    ∀ {inside : Bool} {a b : Json}, EachNumber P a → EachNumber P b → Alike R inside a b → Alike S inside a b
  | _, .null, .null, _, _, _ => trivial
  | _, .bool _, .bool _, _, _, r => r
  | _, .str _, .str _, _, _, r => r
  | _, .int _, .int _, ha, hb, r => h _ _ _ ha hb r
  | _, .int _, .float _, ha, hb, r => h _ _ _ ha hb r
  | _, .float _, .int _, ha, hb, r => h _ _ _ ha hb r
  | _, .float _, .float _, ha, hb, r => h _ _ _ ha hb r
  | _, .arr _, .arr _, ha, hb, r => AlikeItems.imp h ha hb r
  | _, .obj _, .obj _, ha, hb, r => AlikeFields.imp h ha hb r

theorem AlikeItems.imp (h : ∀ inside x y, P x → P y → R inside x y → S inside x y) :
    ∀ {inside : Bool} {a b : List Json}, EachNumberOf P a → EachNumberOf P b → AlikeItems R inside a b →
      AlikeItems S inside a b
  | _, [], [], _, _, _ => trivial
  | _, _ :: _, _ :: _, ha, hb, r => ⟨Alike.imp h ha.1 hb.1 r.1, AlikeItems.imp h ha.2 hb.2 r.2⟩

theorem AlikeFields.imp (h : ∀ inside x y, P x → P y → R inside x y → S inside x y) :
    ∀ {a b : List (String × Json)}, EachNumberIn P a → EachNumberIn P b → AlikeFields R a b → AlikeFields S a b
  | [], [], _, _, _ => trivial
  | _ :: _, _ :: _, ha, hb, r => ⟨r.1, Alike.imp h ha.1 hb.1 r.2.1, AlikeFields.imp h ha.2 hb.2 r.2.2⟩

end

mutual

theorem Alike.and : ∀ {inside : Bool} {a b : Json}, Alike R inside a b → Alike S inside a b →
    Alike (fun inside x y => R inside x y ∧ S inside x y) inside a b
  | _, .null, .null, _, _ => trivial
  | _, .bool _, .bool _, r, _ => r
  | _, .str _, .str _, r, _ => r
  | _, .int _, .int _, r, s => ⟨r, s⟩
  | _, .int _, .float _, r, s => ⟨r, s⟩
  | _, .float _, .int _, r, s => ⟨r, s⟩
  | _, .float _, .float _, r, s => ⟨r, s⟩
  | _, .arr _, .arr _, r, s => AlikeItems.and r s
  | _, .obj _, .obj _, r, s => AlikeFields.and r s

theorem AlikeItems.and : ∀ {inside : Bool} {a b : List Json}, AlikeItems R inside a b → AlikeItems S inside a b →
    AlikeItems (fun inside x y => R inside x y ∧ S inside x y) inside a b
  | _, [], [], _, _ => trivial
  | _, _ :: _, _ :: _, r, s => ⟨r.1.and s.1, r.2.and s.2⟩

theorem AlikeFields.and : ∀ {a b : List (String × Json)}, AlikeFields R a b → AlikeFields S a b →
    AlikeFields (fun inside x y => R inside x y ∧ S inside x y) a b
  | [], [], _, _ => trivial
  | _ :: _, _ :: _, r, s => ⟨r.1, r.2.1.and s.2.1, r.2.2.and s.2.2⟩

end

mutual

theorem Alike.symm (h : ∀ inside x y, R inside x y → R inside y x) :
    ∀ {inside : Bool} {a b : Json}, Alike R inside a b → Alike R inside b a
  | _, .null, .null, _ => trivial
  | _, .bool _, .bool _, r => Eq.symm r
  | _, .str _, .str _, r => Eq.symm r
  | _, .int _, .int _, r => h _ _ _ r
  | _, .int _, .float _, r => h _ _ _ r
  | _, .float _, .int _, r => h _ _ _ r
  | _, .float _, .float _, r => h _ _ _ r
  | _, .arr _, .arr _, r => AlikeItems.symm h r
  | _, .obj _, .obj _, r => AlikeFields.symm h r

theorem AlikeItems.symm (h : ∀ inside x y, R inside x y → R inside y x) :
    ∀ {inside : Bool} {a b : List Json}, AlikeItems R inside a b → AlikeItems R inside b a
  | _, [], [], _ => trivial
  | _, _ :: _, _ :: _, r => ⟨r.1.symm h, r.2.symm h⟩

theorem AlikeFields.symm (h : ∀ inside x y, R inside x y → R inside y x) :
    ∀ {a b : List (String × Json)}, AlikeFields R a b → AlikeFields R b a
  | [], [], _ => trivial
  | _ :: _, _ :: _, r => ⟨r.1.symm, r.2.1.symm h, r.2.2.symm h⟩

end

/-- The tests numbers have to pass: as doubles, and inside objects as written. -/
def Passes (inside : Bool) (x y : Json) : Prop :=
  if inside then x.same y = true else Condition.looseEq x y = true

mutual

theorem same_iff : ∀ {a b : Json}, a.same b = true ↔ Alike Passes true a b
  | .null, b => by cases b <;> simp [same, Alike]
  | .bool _, b => by cases b <;> simp [same, Alike]
  | .str _, b => by cases b <;> simp [same, Alike]
  | .int _, b => by cases b <;> simp [same, Alike, Passes]
  | .float _, b => by cases b <;> simp [same, Alike, Passes]
  | .arr as, b => by
    cases b with
    | arr bs => exact sameItems_iff
    | _ => simp [same, Alike]
  | .obj as, b => by
    cases b with
    | obj bs => exact sameFields_iff
    | _ => simp [same, Alike]

theorem sameItems_iff : ∀ {a b : List Json}, sameItems a b = true ↔ AlikeItems Passes true a b
  | [], b => by cases b <;> simp [sameItems, AlikeItems]
  | _ :: _, [] => by simp [sameItems, AlikeItems]
  | _ :: _, _ :: _ => by
    rw [sameItems, Bool.and_eq_true, AlikeItems]
    exact and_congr same_iff sameItems_iff

theorem sameFields_iff : ∀ {a b : List (String × Json)}, sameFields a b = true ↔ AlikeFields Passes a b
  | [], b => by cases b <;> simp [sameFields, AlikeFields]
  | _ :: _, [] => by simp [sameFields, AlikeFields]
  | _ :: _, _ :: _ => by
    rw [sameFields, Bool.and_eq_true, Bool.and_eq_true, beq_iff_eq, and_assoc, AlikeFields]
    exact and_congr_right fun _ => and_congr same_iff sameFields_iff

end

open Condition

mutual

theorem looseEq_iff : ∀ {a b : Json}, looseEq a b = true ↔ Alike Passes false a b
  | .null, b => by cases b <;> simp [looseEq, same, Alike]
  | .bool _, b => by cases b <;> simp [looseEq, same, Alike]
  | .str _, b => by cases b <;> simp [looseEq, same, Alike]
  | .int _, b => by cases b <;> simp [looseEq, same, Alike, Passes]
  | .float _, b => by cases b <;> simp [looseEq, same, Alike, Passes]
  | .arr as, b => by
    cases b with
    | arr bs => exact looseEqItems_iff
    | _ => simp [looseEq, same, Alike]
  | .obj as, b => by
    cases b with
    | obj bs => exact sameFields_iff
    | _ => simp [looseEq, same, Alike]

theorem looseEqItems_iff : ∀ {a b : List Json}, looseEqItems a b = true ↔ AlikeItems Passes false a b
  | [], b => by cases b <;> simp [looseEqItems, AlikeItems]
  | _ :: _, [] => by simp [looseEqItems, AlikeItems]
  | _ :: _, _ :: _ => by
    rw [looseEqItems, Bool.and_eq_true, AlikeItems]
    exact and_congr looseEq_iff looseEqItems_iff

end

/-! ## The worth of numbers -/

/-- What a number is worth. -/
def worth : Json → Option ℚ
  | .int n => some n
  | .float x => Decimal.valueOf x
  | _ => none

/-- What the double is worth that a number is computed with. -/
def asDouble (v : Json) : Option ℚ := v.toFloat?.bind Decimal.valueOf

/-- A number as documents have them: an integer of 64 bits or a finite double. -/
def IsProper : Json → Prop
  | .int n => n.natAbs < 2 ^ 64
  | .float x => x.isFinite = true
  | _ => False

/-- A number that some double is worth: a double, or an integer that is not too large. -/
def IsExact : Json → Prop
  | .int n => n.natAbs ≤ 2 ^ 53
  | .float x => x.isFinite = true
  | _ => False

/-- Both numbers are written as integers, or both as doubles. -/
def AreSpelledAlike : Json → Json → Prop
  | .int _, .int _ => True
  | .float _, .float _ => True
  | _, _ => False

/-- Two numbers are worth the same, as doubles or, inside objects, themselves. -/
def AreWorthTheSame (inside : Bool) (x y : Json) : Prop :=
  if inside then x.worth = y.worth else x.asDouble = y.asDouble

/-- Two numbers pass for one: they are worth the same and, inside objects, spelled alike. -/
def Coincide (inside : Bool) (x y : Json) : Prop :=
  AreWorthTheSame inside x y ∧ (inside = true → AreSpelledAlike x y)

variable {x y : Json}

theorem IsExact.isProper (h : x.IsExact) : x.IsProper := by
  cases x with
  | int n => exact Nat.lt_of_le_of_lt h (by norm_num)
  | float x => exact h
  | _ => exact h

theorem IsProper.exists_double (h : x.IsProper) : ∃ f d, x.toFloat? = some f ∧ Decimal.Dyadic.ofFloat f = some d := by
  cases x with
  | int n =>
    obtain ⟨q, hq, -⟩ := Decimal.valueOf_ofInt h
    obtain ⟨d, hd, -⟩ := Option.map_eq_some_iff.mp hq
    exact ⟨_, d, rfl, hd⟩
  | float x =>
    obtain ⟨d, hd⟩ := Decimal.exists_ofFloat h
    exact ⟨x, d, rfl, hd⟩
  | _ => exact h.elim

theorem IsExact.asDouble_eq (h : x.IsExact) : x.asDouble = x.worth := by
  cases x with
  | int n =>
    obtain ⟨q, hq, -, same⟩ := Decimal.valueOf_ofInt h.isProper
    exact hq.trans (congrArg some (same h))
  | float x => rfl
  | _ => exact h.elim

/-- The test for doubles is about their worth. -/
theorem looseEq_iff_asDouble_eq (hx : x.IsProper) (hy : y.IsProper) :
    looseEq x y = true ↔ x.asDouble = y.asDouble := by
  obtain ⟨f, a, hf, ha⟩ := hx.exists_double
  obtain ⟨g, b, hg, hb⟩ := hy.exists_double
  have tested : looseEq x y = (f == g) := by
    cases x <;> cases y <;> simp_all [looseEq, toFloat?, IsProper]
  rw [tested, Decimal.beq_iff_value_eq ha hb]
  simp [asDouble, hf, hg, Decimal.valueOf, ha, hb]

/-- The test for numbers as written is about their worth, if they are spelled alike. -/
theorem same_iff_worth_eq (hx : x.IsProper) (hy : y.IsProper) (spelled : AreSpelledAlike x y) :
    x.same y = true ↔ x.worth = y.worth := by
  cases x <;> cases y <;> try exact spelled.elim
  case int.int m n => simp [same, worth]
  case float.float f g =>
    obtain ⟨a, ha⟩ := Decimal.exists_ofFloat hx
    obtain ⟨b, hb⟩ := Decimal.exists_ofFloat hy
    simp [same, worth, Decimal.valueOf, ha, hb, Decimal.beq_iff_value_eq ha hb]

theorem areSpelledAlike_of_same (hx : x.IsProper) (h : x.same y = true) : AreSpelledAlike x y := by
  cases x <;> cases y <;> simp_all [same, AreSpelledAlike, IsProper]

/-- What the tests for numbers say about their worth. -/
theorem passes_iff {inside : Bool} (hx : x.IsProper) (hy : y.IsProper) : Passes inside x y ↔ Coincide inside x y := by
  cases inside with
  | false => exact (looseEq_iff_asDouble_eq hx hy).trans (and_iff_left nofun).symm
  | true =>
    constructor
    · intro h
      have spelled := areSpelledAlike_of_same hx h
      exact ⟨(same_iff_worth_eq hx hy spelled).mp h, fun _ => spelled⟩
    · intro ⟨h, spelled⟩
      exact (same_iff_worth_eq hx hy (spelled rfl)).mpr h

theorem Coincide.symm {inside : Bool} (h : Coincide inside x y) : Coincide inside y x := by
  refine ⟨?_, fun hi => ?_⟩
  · cases inside <;> exact Eq.symm h.1
  · have spelled := h.2 hi
    cases x <;> cases y <;> exact spelled

theorem areWorthTheSame_iff {inside : Bool} (hx : x.IsExact) (hy : y.IsExact) :
    AreWorthTheSame inside x y ↔ x.worth = y.worth := by
  cases inside with
  | false => exact iff_of_eq (congrArg₂ (· = ·) hx.asDouble_eq hy.asDouble_eq)
  | true => exact Iff.rfl

/-! ## Equality -/

/-- Two values are the same part by part, if numbers count as their doubles outside objects. -/
def EqualAsDoubles (a b : Json) : Prop := Alike AreWorthTheSame false a b

/-- Two values are the same part by part, if numbers count as what they are worth. -/
def EqualByWorth (a b : Json) : Prop := Alike (fun _ x y => x.worth = y.worth) false a b

/-- Two values have the same parts, and numbers in the same place of objects are spelled alike. -/
def SpelledAlikeInObjects (a b : Json) : Prop :=
  Alike (fun inside x y => inside = true → AreSpelledAlike x y) false a b

variable {a b : Json}

theorem looseEq_iff_worth (ha : a.EachNumber IsProper) (hb : b.EachNumber IsProper) : looseEq a b = true ↔
    Alike Coincide false a b :=
  looseEq_iff.trans ⟨fun h => h.imp (fun _ _ _ hx hy => (passes_iff hx hy).mp) ha hb,
    fun h => h.imp (fun _ _ _ hx hy => (passes_iff hx hy).mpr) ha hb⟩

theorem EachNumber.isProper (h : a.EachNumber IsExact) : a.EachNumber IsProper :=
  h.mono fun _ => IsExact.isProper

/-- Exact numbers are worth the same iff their doubles are. -/
theorem equalAsDoubles_iff (ha : a.EachNumber IsExact) (hb : b.EachNumber IsExact) :
    a.EqualAsDoubles b ↔ a.EqualByWorth b :=
  ⟨fun h => h.imp (fun _ _ _ hx hy same => (areWorthTheSame_iff hx hy).mp same) ha hb,
    fun h => h.imp (fun _ _ _ hx hy same => (areWorthTheSame_iff hx hy).mpr same) ha hb⟩

theorem looseEq_comm (ha : a.EachNumber IsProper) (hb : b.EachNumber IsProper) : looseEq a b = looseEq b a := by
  have symmetric : ∀ inside x y, Coincide inside x y → Coincide inside y x := fun _ _ _ => Coincide.symm
  rw [Bool.eq_iff_iff, looseEq_iff_worth ha hb, looseEq_iff_worth hb ha]
  exact ⟨Alike.symm symmetric, Alike.symm symmetric⟩

theorem EachNumberOf.of_mem {P : Json → Prop} {items : List Json} (h : EachNumberOf P items) {item : Json}
    (hi : item ∈ items) : item.EachNumber P := by
  induction items with
  | nil => exact absurd hi List.not_mem_nil
  | cons v rest ih =>
    obtain rfl | hi := List.mem_cons.mp hi
    · exact h.1
    · exact ih h.2 hi

end Json

namespace Condition

open Json

/-- `==` goes through two values part by part and compares numbers as doubles, except in objects, where
    those that are spelled alike are compared by what they are worth; `!=` is its negation, and a value is
    in a list iff it is equal to an item. So values with the same parts are equal iff their numbers are worth
    the same, if doubles are worth what the numbers are, as all integers up to 2^53 are. -/
theorem equality_is_of_doubles_outside_objects {vars : Keyed Json} {l r : Expr} {a b : Json} (hl : l.eval vars = .ok a)
    (hr : r.eval vars = .ok b) (ha : a.EachNumber IsProper) (hb : b.EachNumber IsProper) :
    ∃ equal : Bool, (Expr.binary .eq l r).eval vars = .ok (.bool equal) ∧
      (Expr.binary .notEq l r).eval vars = .ok (.bool !equal) ∧
      (equal = true → a.EqualAsDoubles b) ∧
      (a.EqualAsDoubles b → a.SpelledAlikeInObjects b → equal = true) ∧
      (a.EachNumber IsExact → b.EachNumber IsExact → (equal = true → a.EqualByWorth b) ∧
        (a.EqualByWorth b → a.SpelledAlikeInObjects b → equal = true)) ∧
      ∀ items, b = .arr items → ∃ found : Bool, (Expr.binary .isIn l r).eval vars = .ok (.bool found) ∧
        (found = true ↔ ∃ item ∈ items, (Expr.binary .eq l (.literal item)).eval vars = .ok (.bool true)) := by
  have tested {op : BinaryOp} {r : Expr} {b : Json} (hr : r.eval vars = .ok b) :
      (Expr.binary op l r).eval vars = apply op a b := by
    rw [Expr.eval, hl, hr]
    rfl
  have sound (h : looseEq a b = true) : a.EqualAsDoubles b :=
    ((looseEq_iff_worth ha hb).mp h).imp (fun _ _ _ _ _ same => same.1) ha hb
  have complete (h : a.EqualAsDoubles b) (spelled : a.SpelledAlikeInObjects b) : looseEq a b = true :=
    (looseEq_iff_worth ha hb).mpr (h.and spelled)
  refine ⟨looseEq a b, tested hr, tested hr, sound, complete, fun ea eb => ?_, ?_⟩
  · rw [← equalAsDoubles_iff ea eb]
    exact ⟨sound, complete⟩
  · rintro items rfl
    refine ⟨items.any (looseEq · a), tested hr, ?_⟩
    rw [List.any_eq_true]
    refine exists_congr fun item => and_congr_right fun hi => ?_
    have value : (Expr.literal item).eval vars = .ok item := by rw [Expr.eval]
    rw [tested value, looseEq_comm (EachNumberOf.of_mem hb hi) ha]
    simp [apply]

theorem valueOf_one : Decimal.valueOf 1.0 = some 1 := by
  have one : Decimal.Dyadic.ofFloat 1.0 = some ⟨false, 2 ^ 52, -52⟩ := by decide +kernel
  rw [Decimal.valueOf, one, Option.map_some, Decimal.Dyadic.value]
  norm_num

/-- A list of a 1 and an object is equal to one with a 1.0 instead, and a 1 is in it. -/
theorem one_is_equal_however_it_is_spelled : ∃ a b : Json, ∃ vars : Keyed Json, (Expr.path ["a"]).eval vars = .ok a ∧
    (Expr.path ["b"]).eval vars = .ok b ∧ a.EachNumber IsExact ∧ b.EachNumber IsExact ∧ a.EqualByWorth b ∧
    a.SpelledAlikeInObjects b ∧ (Expr.binary .eq (.path ["a"]) (.path ["b"])).eval vars = .ok (.bool true) ∧
    (Expr.binary .notEq (.path ["a"]) (.path ["b"])).eval vars = .ok (.bool false) ∧
    (Expr.binary .isIn (.path ["c"]) (.path ["b"])).eval vars = .ok (.bool true) := by
  let a : Json := .arr [.int 1, .obj [("k", .int 2)]]
  let b : Json := .arr [.float 1.0, .obj [("k", .int 2)]]
  let vars : Keyed Json := [("a", a), ("b", b), ("c", .int 1)]
  have va : (Expr.path ["a"]).eval vars = .ok a := rfl
  have vb : (Expr.path ["b"]).eval vars = .ok b := rfl
  have vc : (Expr.path ["c"]).eval vars = .ok (.int 1) := rfl
  have vd : (Expr.literal (.float 1.0)).eval vars = .ok (.float 1.0) := rfl
  have finite : (1.0 : Float).isFinite = true := by decide +kernel
  have ea : a.EachNumber IsExact := by simp [a, EachNumber, EachNumberOf, EachNumberIn, IsExact]
  have eb : b.EachNumber IsExact := by simp [b, EachNumber, EachNumberOf, EachNumberIn, IsExact, finite]
  have ec : (Json.int 1).EachNumber IsExact := by simp [EachNumber, IsExact]
  have ed : (Json.float 1.0).EachNumber IsExact := by simp [EachNumber, IsExact, finite]
  have same : a.EqualByWorth b := by
    simp [a, b, EqualByWorth, Alike, AlikeItems, AlikeFields, worth, valueOf_one]
  have spelled : a.SpelledAlikeInObjects b := by
    simp [a, b, SpelledAlikeInObjects, Alike, AlikeItems, AlikeFields, AreSpelledAlike]
  obtain ⟨equal, heq, hne, -, -, lists, -⟩ := equality_is_of_doubles_outside_objects va vb ea.isProper eb.isProper
  obtain rfl := (lists ea eb).2 same spelled
  obtain ⟨one, hone, -, -, -, numbers, -⟩ := equality_is_of_doubles_outside_objects vc vd ec.isProper ed.isProper
  obtain rfl := (numbers ec ed).2 (by simp [EqualByWorth, Alike, worth, valueOf_one])
    (by simp [SpelledAlikeInObjects, Alike])
  obtain ⟨-, -, -, -, -, -, members⟩ := equality_is_of_doubles_outside_objects vc vb ec.isProper eb.isProper
  obtain ⟨found, hfound, iff⟩ := members _ rfl
  obtain rfl := iff.mpr ⟨.float 1.0, List.mem_cons_self, hone⟩
  exact ⟨a, b, vars, va, vb, ea, eb, same, spelled, heq, hne, hfound⟩

/-- The two integers next to 2^53 come to one double and pass for one number, but are not worth the same;
    and objects with a 1 and a 1.0 are worth the same, but pass for two. -/
theorem neighbours_beyond_53_bits_are_equal :
    holds "a == b" [("a", .int 9007199254740993), ("b", .int 9007199254740992)] = .ok true ∧
      ¬ EqualByWorth (.int 9007199254740993) (.int 9007199254740992) ∧
      holds "a == b" [("a", .obj [("k", .int 1)]), ("b", .obj [("k", .float 1.0)])] = .ok false ∧
      EqualByWorth (.obj [("k", .int 1)]) (.obj [("k", .float 1.0)]) := by
  refine ⟨by decide +kernel, ?_, by decide +kernel, ?_⟩
  · simp [EqualByWorth, Alike, worth]
  · simp [EqualByWorth, Alike, AlikeFields, worth, valueOf_one]

end Condition

end Capability
