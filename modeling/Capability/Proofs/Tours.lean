/-
  Capability.Proofs.Tours — how a run is made up of dispatches, passes and branches.

  A tour is the way of a segment through the graph, together with all that is walked inside of its
  loops and splits. Its ledger is what is counted on the way. A tour knows of no budget, and in which
  order the branches of a split take turns does not matter to it.

  (1) `Tour`: the legs of a tour, and what each of them is made up of.
  (2) `segment_tours`: whatever a segment comes to, it comes to on a tour whose ledger shows the toll.
  (3) `Course.tour`: so does a run, on every course.
-/

import Capability.Proofs.Budgets
import Capability.Proofs.Failures
import Capability.Proofs.Records

namespace Capability.Execution

variable {α β : Type}

/-! ## Ledgers -/

/-- What is counted on a tour. -/
structure Ledger where
  /-- The nodes that were dispatched. -/
  dispatched : Nat := 0
  /-- The dispatches that were refused. -/
  refused : Nat := 0
  /-- The passes that came to the end of their loop and were not cancelled there. -/
  closed : Nat := 0
  /-- The splits that got past their branches and passed a join. -/
  joined : Nat := 0
  /-- The passes of loops. -/
  passes : Nat := 0
  /-- The passes that were over at once, because no edge led into a body or the body was the start or
      the end of the loop. -/
  idle : Nat := 0
  /-- The failures of branches that stand before a branch in which a dispatch was refused. -/
  overtaking : Set (String × Fault) := ∅

namespace Ledger

instance : Zero Ledger := ⟨{}⟩

instance : Add Ledger where
  add a b :=
    { dispatched := a.dispatched + b.dispatched
      refused := a.refused + b.refused
      closed := a.closed + b.closed
      joined := a.joined + b.joined
      passes := a.passes + b.passes
      idle := a.idle + b.idle
      overtaking := a.overtaking ∪ b.overtaking }

theorem zero_def : (0 : Ledger) = {} := rfl

theorem add_def (a b : Ledger) : a + b =
    { dispatched := a.dispatched + b.dispatched
      refused := a.refused + b.refused
      closed := a.closed + b.closed
      joined := a.joined + b.joined
      passes := a.passes + b.passes
      idle := a.idle + b.idle
      overtaking := a.overtaking ∪ b.overtaking } := rfl

/-- The dispatches, made and refused. -/
def toll (ℓ : Ledger) : Toll := (ℓ.dispatched, ℓ.refused)

theorem toll_add (a b : Ledger) : (a + b).toll = a.toll + b.toll := rfl

/-- What the branches of a split count together. A failure overtakes a refusal if its branch stands
    before the one where the dispatch was refused. -/
def ofBranches {count : Nat} (ledgers : Fin count → Ledger) (outcomes : Fin count → Outcome) : Ledger where
  dispatched := ∑ i, (ledgers i).dispatched
  refused := ∑ i, (ledgers i).refused
  closed := ∑ i, (ledgers i).closed
  joined := ∑ i, (ledgers i).joined
  passes := ∑ i, (ledgers i).passes
  idle := ∑ i, (ledgers i).idle
  overtaking := (⋃ i, (ledgers i).overtaking) ∪
    {f | ∃ i j, i < j ∧ (outcomes i).failure? = some f ∧ 0 < (ledgers j).refused}

theorem toll_ofBranches {count : Nat} (ledgers : Fin count → Ledger) (outcomes : Fin count → Outcome) :
    (ofBranches ledgers outcomes).toll = ∑ i, (ledgers i).toll :=
  Prod.ext (by simp [toll, ofBranches, Prod.fst_sum]) (by simp [toll, ofBranches, Prod.snd_sum])

end Ledger

/-! ## Passes one at a time -/

/-- Goes on behind the body of a pass: whether the loop is over, and if so whether an end node was
    completed. -/
def leaveBody (s : Setting) (e : Edge) : Flow → Walk (Option Bool)
  | .ended => pure (some true)
  | .deadEnd => pure none
  | .boundary id =>
    if id = e.source then do
      if ← closePass s e then pure (some false) else pure none
    else pure none

/-- The pass of a loop with a number. -/
def pass (s : Setting) (inner : Inner) (n : Node) (e : Edge) (i : Nat) : Walk (Option Bool) := do
  Walk.checkpoint
  numberPass s n i
  match ← successor s n.id with
  | none => pure (some false)
  | some body => leaveBody s e (← inner [e.source, n.id] body)

/-- The passes of a loop are made one after another. -/
theorem passes_succ (s : Setting) (inner : Inner) (n : Node) (e : Edge) (left i : Nat) :
    passes s inner n e (left + 1) i = pass s inner n e i >>= fun result =>
      match result with
      | some ended => pure ended
      | none => passes s inner n e left (i + 1) := by
  rw [passes, pass]
  simp only [bind_assoc]
  refine congrArg _ (funext fun _ => congrArg _ (funext fun _ => congrArg _ (funext fun body => ?_)))
  cases body with
  | none => rw [pure_bind]
  | some body =>
    simp only [bind_assoc]
    refine congrArg _ (funext fun flow => ?_)
    cases flow with
    | ended => rw [leaveBody, pure_bind]
    | deadEnd => rw [leaveBody, pure_bind]
    | boundary id =>
      rw [leaveBody]
      by_cases h : id = e.source
      · simp only [if_pos h, bind_assoc]
        refine congrArg _ (funext fun out => ?_)
        cases out <;> rfl
      · simp only [if_neg h, pure_bind]

/-! ## Tours -/

/-- On allowed replies the walk from a scope comes to something, at a toll. -/
def Walk.Comes (R : Replies) (w : Walk α) (s : Scope) (t : Toll) (r : Except Halt α) (s' : Scope) : Prop :=
  (w.process s).Comes R t (r, s')

/-- The parts of a tour, and what they come to. -/
inductive Leg : Type → Type where
  /-- From a node until an end, a dead end or one of some boundaries. -/
  | segment (own : List String) (id : String) : Leg Flow
  /-- The visit of a node that is dispatched. -/
  | visit (n : Node) : Leg Next
  /-- The pass of a loop with a number. -/
  | pass (n : Node) (e : Edge) (i : Nat) : Leg (Option Bool)
  /-- That pass and those that follow, `left` of them at most. -/
  | passes (n : Node) (e : Edge) (left i : Nat) : Leg Bool

/-- The scope in which a loop begins its passes. -/
def loopOpened (n : Node) (e : Edge) (s : Scope) : Scope :=
  (s.beginStep n.id).finishStep (s.nextStep n.id) .completed
    { result := some (.obj [("max_iterations", .ofNat (passBound n e)), ("loop_end", .str e.source)]) }

/-- The scope of the pass of a loop with a number. -/
def passNumbered (s : Setting) (n : Node) (i : Nat) (scope : Scope) : Scope :=
  ((scope.set s.config.iterationVariable (.ofNat i)).set (n.id ++ "_iteration") (.ofNat i)).countPass

/-- Goes on behind the passes of a loop. -/
def leaveLoop (s : Setting) (e : Edge) (ended : Bool) : Walk Next :=
  if ended then pure (.stop .ended) else advance s e.source

/-- A leg from a scope, its ledger, what it comes to, and the scope it leaves behind. -/
inductive Tour (st : Setting) (R : Replies) : {α : Type} → Leg α → Scope → Ledger → Except Halt α → Scope → Prop
  | boundary {own : List String} {id : String} {s : Scope} : id ∈ own → Tour st R (.segment own id) s 0 (.ok (.boundary id)) s
  /-- A segment is called off between two nodes. -/
  | calledOff {own : List String} {id : String} {s : Scope} : id ∉ own → Tour st R (.segment own id) s 0 (.error .cancelled) s
  /-- A node may not be dispatched any more. -/
  | refused {own : List String} {id : String} {s : Scope} : id ∉ own →
      Tour st R (.segment own id) s { refused := 1 } (.error (overLimit st id)) s
  /-- A segment goes on behind a node, -/
  | onward {own : List String} {id next : String} {n : Node} {s s₁ s₂ : Scope} {ℓ ℓ' : Ledger} {r : Except Halt Flow} :
      id ∉ own → st.graph.node? id = some n → Tour st R (.visit n) s ℓ (.ok (.node next)) s₁ →
      Tour st R (.segment own next) s₁ ℓ' r s₂ → Tour st R (.segment own id) s (ℓ + ℓ') r s₂
  /-- stops there, -/
  | stop {own : List String} {id : String} {n : Node} {s s₁ : Scope} {ℓ : Ledger} {flow : Flow} :
      id ∉ own → st.graph.node? id = some n → Tour st R (.visit n) s ℓ (.ok (.stop flow)) s₁ →
      Tour st R (.segment own id) s ℓ (.ok flow) s₁
  /-- or is broken off there. -/
  | broken {own : List String} {id : String} {n : Node} {s s₁ : Scope} {ℓ : Ledger} {h : Halt} :
      id ∉ own → st.graph.node? id = some n → Tour st R (.visit n) s ℓ (.error h) s₁ →
      Tour st R (.segment own id) s ℓ (.error h) s₁
  /-- A node that is neither a loop nor a split does not dispatch others. -/
  | plain {inner : Inner} {n : Node} {s s₁ : Scope} {r : Except Halt Next} : n.kind ≠ .loopStart → n.kind ≠ .split →
      (visit st inner n).Comes R s 0 r s₁ → Tour st R (.visit n) s { dispatched := 1 } r s₁
  /-- A loop is left behind its passes, -/
  | loop {n : Node} {e : Edge} {s s₁ s₂ : Scope} {ℓ : Ledger} {ended : Bool} {r : Except Halt Next} :
      n.kind = .loopStart → st.graph.iterationEdge? n.id = some e →
      Tour st R (.passes n e (passBound n e) 0) (loopOpened n e s) ℓ (.ok ended) s₁ →
      (leaveLoop st e ended).Comes R s₁ 0 r s₂ → Tour st R (.visit n) s ({ dispatched := 1 } + ℓ) r s₂
  /-- or broken off in one of them. -/
  | loopBroken {n : Node} {e : Edge} {s s₁ : Scope} {ℓ : Ledger} {h : Halt} :
      n.kind = .loopStart → st.graph.iterationEdge? n.id = some e →
      Tour st R (.passes n e (passBound n e) 0) (loopOpened n e s) ℓ (.error h) s₁ →
      Tour st R (.visit n) s ({ dispatched := 1 } + ℓ) (.error h) s₁
  /-- The branches of a split are segments up to its join. -/
  | split {n : Node} {starts : List String} {s s₁ s₂ : Scope} {ledgers : Fin starts.length → Ledger}
      {outcomes : Fin starts.length → Outcome} {winner : Option Nat} {r : Except Halt Next} : n.kind = .split →
      (openSplit st n).Comes R s 0 (.ok starts) s₁ →
      (∀ i, Tour st R (.segment (st.graph.join? n.id).toList starts[i]) s₁.fork (ledgers i) (outcomes i).ending
        (outcomes i).scope) →
      (st.joining = .all → winner = none) → (closeSplit st n ⟨List.ofFn outcomes, winner⟩).Comes R s₁ 0 r s₂ →
      Tour st R (.visit n) s
        ({ dispatched := 1, joined := if r.isOk ∧ (st.graph.join? n.id).isSome then 1 else 0 } +
          Ledger.ofBranches ledgers outcomes) r s₂
  /-- A loop is over when its passes are used up. -/
  | spent {n : Node} {e : Edge} {i : Nat} {s : Scope} : Tour st R (.passes n e 0 i) s 0 (.ok false) s
  | again {n : Node} {e : Edge} {left i : Nat} {s s₁ s₂ : Scope} {ℓ ℓ' : Ledger} {r : Except Halt Bool} :
      Tour st R (.pass n e i) s ℓ (.ok none) s₁ → Tour st R (.passes n e left (i + 1)) s₁ ℓ' r s₂ →
      Tour st R (.passes n e (left + 1) i) s (ℓ + ℓ') r s₂
  | last {n : Node} {e : Edge} {left i : Nat} {s s₁ : Scope} {ℓ : Ledger} {ended : Bool} :
      Tour st R (.pass n e i) s ℓ (.ok (some ended)) s₁ → Tour st R (.passes n e (left + 1) i) s ℓ (.ok ended) s₁
  | failing {n : Node} {e : Edge} {left i : Nat} {s s₁ : Scope} {ℓ : Ledger} {h : Halt} :
      Tour st R (.pass n e i) s ℓ (.error h) s₁ → Tour st R (.passes n e (left + 1) i) s ℓ (.error h) s₁
  /-- A loop is called off between two passes. -/
  | withdrawn {n : Node} {e : Edge} {i : Nat} {s : Scope} : Tour st R (.pass n e i) s 0 (.error .cancelled) s
  /-- No edge leads into a body. -/
  | bodyless {n : Node} {e : Edge} {i : Nat} {s s₁ : Scope} :
      (successor st n.id).Comes R (passNumbered st n i s) 0 (.ok none) s₁ →
      Tour st R (.pass n e i) s { passes := 1, idle := 1 } (.ok (some false)) s₁
  /-- The body of a pass is a segment that stops at the end and at the start of the loop. -/
  | body {n : Node} {e : Edge} {i : Nat} {body : String} {s s₁ s₂ s₃ : Scope} {ℓ : Ledger} {flow : Flow}
      {r : Except Halt (Option Bool)} : (successor st n.id).Comes R (passNumbered st n i s) 0 (.ok (some body)) s₁ →
      Tour st R (.segment [e.source, n.id] body) s₁ ℓ (.ok flow) s₂ → (leaveBody st e flow).Comes R s₂ 0 r s₃ →
      Tour st R (.pass n e i) s
        ({ passes := 1, idle := if body ∈ [e.source, n.id] then 1 else 0,
           closed := if flow = .boundary e.source ∧ r.isOk then 1 else 0 } + ℓ) r s₃
  | bodyBroken {n : Node} {e : Edge} {i : Nat} {body : String} {s s₁ s₂ : Scope} {ℓ : Ledger} {h : Halt} :
      (successor st n.id).Comes R (passNumbered st n i s) 0 (.ok (some body)) s₁ →
      Tour st R (.segment [e.source, n.id] body) s₁ ℓ (.error h) s₂ →
      Tour st R (.pass n e i) s ({ passes := 1 } + ℓ) (.error h) s₂

/-! ## What walks come to -/

section Walks

variable {R : Replies} {s s' : Scope} {t : Toll}

/-- What comes first comes to something, and unless it is broken off, so does what comes next. -/
theorem Walk.Comes.of_bind {w : Walk α} {f : α → Walk β} {r : Except Halt β} (h : (w >>= f).Comes R s t r s') :
    ∃ t₁ r₁ s₁, w.Comes R s t₁ r₁ s₁ ∧
      match r₁ with
      | .ok a => ∃ t₂, (f a).Comes R s₁ t₂ r s' ∧ t = t₁ + t₂
      | .error halt => r = .error halt ∧ s' = s₁ ∧ t = t₁ := by
  unfold Comes at h
  rw [process_bind] at h
  obtain ⟨⟨r₁, s₁⟩, t₁, t₂, h₁, h₂, rfl⟩ := h.of_bind
  refine ⟨t₁, r₁, s₁, h₁, ?_⟩
  cases r₁ with
  | ok a => exact ⟨t₂, h₂, rfl⟩
  | error halt =>
    cases h₂
    exact ⟨rfl, rfl, add_zero t₁⟩

theorem Walk.Comes.of_pure {a : α} {r : Except Halt α} (h : (pure a : Walk α).Comes R s t r s') :
    r = .ok a ∧ s' = s ∧ t = 0 := by
  cases h
  exact ⟨rfl, rfl, rfl⟩

theorem Walk.Comes.of_throw {halt : Halt} {r : Except Halt α} (h : (throw halt : Walk α).Comes R s t r s') :
    r = .error halt ∧ s' = s ∧ t = 0 := by
  cases h
  exact ⟨rfl, rfl, rfl⟩

/-- A plain walk comes to its end without a dispatch. -/
theorem Walk.Plain.comes {w : Walk α} {Q : Except Halt α → Scope → Prop} (hw : w.Plain s Q) {r : Except Halt α}
    (h : w.Comes R s t r s') : t = 0 ∧ Q r s' :=
  Process.Plain.comes hw h

theorem Walk.Comes.secured {w : Walk α} {E : Outcome → Prop} {Q : Except Halt α → Scope → Prop} {r : Except Halt α}
    (h : w.Comes R s t r s') (hw : w.Secures R E s Q) : Q r s' :=
  Process.Comes.secured h hw

/-- A plain walk makes no dispatch before what comes next. -/
theorem Walk.Plain.comes_first {w : Walk α} {Q : Except Halt α → Scope → Prop} (hw : w.Plain s Q) {f : α → Walk β}
    {r : Except Halt β} (h : (w >>= f).Comes R s t r s') :
    (∃ a s₁, w.Comes R s 0 (.ok a) s₁ ∧ Q (.ok a) s₁ ∧ (f a).Comes R s₁ t r s') ∨
      ∃ halt, w.Comes R s 0 (.error halt) s' ∧ Q (.error halt) s' ∧ r = .error halt ∧ t = 0 := by
  obtain ⟨t₁, r₁, s₁, h₁, h₂⟩ := h.of_bind
  obtain ⟨rfl, hQ⟩ := hw.comes h₁
  cases r₁ with
  | ok a =>
    obtain ⟨t₂, h₂, rfl⟩ := h₂
    exact .inl ⟨a, s₁, h₁, hQ, (zero_add t₂).symm ▸ h₂⟩
  | error halt =>
    obtain ⟨rfl, rfl, rfl⟩ := h₂
    exact .inr ⟨halt, h₁, hQ, rfl, rfl⟩

/-- A walk that only looks at conditions comes to a value. -/
theorem Walk.Ponders.comes {w : Walk α} (hw : w.Ponders) {r : Except Halt α} (h : w.Comes R s t r s') : ∃ a, r = .ok a := by
  have plain : w.Plain s fun r _ => ∃ a, r = .ok a := hw.plain fun a _ _ => ⟨a, rfl⟩
  exact (plain.comes h).2

/-- A walk that only looks at conditions comes to a value before what comes next. -/
theorem Walk.Ponders.comes_first {w : Walk α} (hw : w.Ponders) {f : α → Walk β} {r : Except Halt β}
    (h : (w >>= f).Comes R s t r s') : ∃ a s₁, w.Comes R s 0 (.ok a) s₁ ∧ (f a).Comes R s₁ t r s' := by
  have plain : w.Plain s fun r _ => ∃ a, r = .ok a := hw.plain fun a _ _ => ⟨a, rfl⟩
  obtain ⟨a, s₁, h₁, -, h₂⟩ | ⟨halt, -, ⟨a, ha⟩, -⟩ := plain.comes_first h
  · exact ⟨a, s₁, h₁, h₂⟩
  · cases ha

/-- At a checkpoint a walk goes on as it is, or it is cancelled. -/
theorem Walk.Comes.of_checkpoint {f : Unit → Walk β} {r : Except Halt β} (h : (Walk.checkpoint >>= f).Comes R s t r s') :
    (f ()).Comes R s t r s' ∨ r = .error .cancelled ∧ s' = s ∧ t = 0 := by
  have plain : Walk.checkpoint.Plain s fun r s' => s' = s ∧ ∀ halt, r = .error halt → halt = .cancelled :=
    Walk.plain_checkpoint.mpr ⟨⟨rfl, nofun⟩, rfl, fun _ h => by cases h; rfl⟩
  obtain ⟨_, s₁, -, ⟨rfl, -⟩, h₂⟩ | ⟨halt, -, ⟨rfl, hhalt⟩, rfl, rfl⟩ := plain.comes_first h
  · exact .inl h₂
  · obtain rfl := hhalt halt rfl
    exact .inr ⟨rfl, rfl, rfl⟩

/-- A dispatch is made or refused. -/
theorem Walk.Comes.of_mayVisit {f : Bool → Walk β} {r : Except Halt β} (h : (Walk.mayVisit >>= f).Comes R s t r s') :
    ∃ allowed t', (f allowed).Comes R s t' r s' ∧ t = Request.visit.toll allowed + t' := by
  cases h with
  | ask allowed _ h => exact ⟨allowed, _, h, rfl⟩

/-- What becomes of the branches of a split that start at some nodes. -/
theorem Walk.Comes.of_split {joining : Joining} {f : String → Walk Flow} {starts : List String} {fork : Scope}
    {r : Except Halt Gathered} (h : (Walk.split joining (starts.map f) fork).Comes R s t r s') :
    ∃ (tolls : Fin starts.length → Toll) (outcomes : Fin starts.length → Outcome) (winner : Option Nat),
      (∀ i, (f starts[i]).Comes R fork (tolls i) (outcomes i).ending (outcomes i).scope) ∧
        (joining = .all → winner = none) ∧ r = .ok ⟨List.ofFn outcomes, winner⟩ ∧ s' = s ∧ t = ∑ i, tolls i := by
  unfold Walk.Comes at h
  rw [Walk.split_map, Walk.process_lift] at h
  cases h with
  | @split _ _ _ _ _ tolls outcomes winner _ _ hb hw hn =>
    cases hn
    refine ⟨tolls, outcomes, winner, fun i => ?_, hw, rfl, rfl, add_zero _⟩
    obtain ⟨⟨r, s₁⟩, t₁, t₂, h₁, h₂, ht⟩ := (hb i).of_bind
    generalize outcomes i = o at h₂
    cases h₂
    rw [ht, add_zero]
    exact h₁

end Walks

/-! ## Segments -/

section Segments

variable {st : Setting} {R : Replies}

/-- Whatever the segments inside come to, they come to on a tour, whose ledger shows the toll if the
    budget allows for that. -/
def Inner.Tours (st : Setting) (R : Replies) (budget : Nat) (inner : Inner) : Prop :=
  ∀ {own id s t r s'}, st.graph.isDeclared id = true → (inner own id).Comes R s t r s' →
    ∃ ℓ, Tour st R (.segment own id) s ℓ r s' ∧ (t.1 ≤ budget → ℓ.toll = t)

variable {inner : Inner} {budget : Nat} {n : Node}

/-- Behind the body of a pass the end of the loop may be passed, and only a cancellation breaks a
    pass off there. -/
theorem leaveBody_plain {e : Edge} {m : Node} (hm : st.graph.node? e.source = some m) (flow : Flow) (s : Scope) :
    (leaveBody st e flow).Plain s fun r s' =>
      s.Adds (if flow = .boundary e.source ∧ r.isOk then 1 else 0) s' ∧ ∀ halt, r = .error halt → halt = .cancelled := by
  cases flow with
  | ended | deadEnd => exact ⟨.refl s, fun _ h => by cases h⟩
  | boundary id =>
    by_cases h : id = e.source
    · simp only [leaveBody, if_pos h]
      refine Walk.plain_bind.mpr ((closePass_records hm).mono fun r s' hr => ?_)
      subst h
      cases r with
      | error halt => exact ⟨by simpa [Except.isOk, Except.toBool] using hr.1, fun _ h => by cases h; exact hr.2 _ rfl⟩
      | ok out =>
        have closed : s.Adds 1 s' := hr.1
        have counted : s.Adds (if Flow.boundary e.source = .boundary e.source ∧ true = true then 1 else 0) s' := by
          simpa using closed
        cases out <;> exact ⟨counted, fun _ h => by cases h⟩
    · simp only [leaveBody, Flow.boundary.injEq, h, false_and, if_false]
      exact ⟨.refl s, fun _ h => by cases h⟩

theorem pass_tours (hg : st.graph.Checked) (hi : inner.Tours st R budget) {e : Edge} {m : Node}
    (hm : st.graph.node? e.source = some m) {i : Nat} {s s' : Scope} {t : Toll} {r : Except Halt (Option Bool)}
    (h : (pass st inner n e i).Comes R s t r s') : ∃ ℓ, Tour st R (.pass n e i) s ℓ r s' ∧ (t.1 ≤ budget → ℓ.toll = t) := by
  obtain h | ⟨rfl, rfl, rfl⟩ := h.of_checkpoint
  · have h : (successor st n.id >>= fun body => match body with
        | none => pure (some false)
        | some body => inner [e.source, n.id] body >>= leaveBody st e).Comes R (passNumbered st n i s) t r s' := h
    obtain ⟨body, s₁, hbody, h⟩ := (successor_ponders st n.id).comes_first h
    cases body with
    | none =>
      obtain ⟨rfl, rfl, rfl⟩ := h.of_pure
      exact ⟨_, .bodyless hbody, fun _ => rfl⟩
    | some body =>
      obtain ⟨⟨_, hb, declared⟩, -⟩ := hbody.secured (successor_finds hg n.id (fun _ => True) _)
      cases hb
      obtain ⟨t₁, r₁, s₂, h₁, h₂⟩ := h.of_bind
      cases r₁ with
      | ok flow =>
        obtain ⟨t₂, h₂, rfl⟩ := h₂
        obtain ⟨rfl, -⟩ := (leaveBody_plain hm flow s₂).comes h₂
        obtain ⟨ℓ, tour, toll⟩ := hi (declared body rfl) h₁
        rw [add_zero]
        exact ⟨_, .body hbody tour h₂, fun ht => by rw [Ledger.toll_add, toll ht]; exact zero_add _⟩
      | error halt =>
        obtain ⟨rfl, rfl, rfl⟩ := h₂
        obtain ⟨ℓ, tour, toll⟩ := hi (declared body rfl) h₁
        exact ⟨_, .bodyBroken hbody tour, fun ht => by rw [Ledger.toll_add, toll ht]; exact zero_add _⟩
  · exact ⟨_, .withdrawn, fun _ => rfl⟩

theorem passes_tours (hg : st.graph.Checked) (hi : inner.Tours st R budget) {e : Edge} {m : Node}
    (hm : st.graph.node? e.source = some m) {left i : Nat} {s s' : Scope} {t : Toll} {r : Except Halt Bool}
    (h : (passes st inner n e left i).Comes R s t r s') :
    ∃ ℓ, Tour st R (.passes n e left i) s ℓ r s' ∧ (t.1 ≤ budget → ℓ.toll = t) := by
  induction left generalizing i s t with
  | zero =>
    obtain ⟨rfl, rfl, rfl⟩ := h.of_pure
    exact ⟨_, .spent, fun _ => rfl⟩
  | succ left ih =>
    rw [passes_succ] at h
    obtain ⟨t₁, r₁, s₁, h₁, h₂⟩ := h.of_bind
    match r₁ with
    | .error halt =>
      obtain ⟨rfl, rfl, rfl⟩ := h₂
      obtain ⟨ℓ, tour, toll⟩ := pass_tours hg hi hm h₁
      exact ⟨ℓ, .failing tour, toll⟩
    | .ok (some ended) =>
      obtain ⟨t₂, h₂, rfl⟩ := h₂
      obtain ⟨rfl, rfl, rfl⟩ := h₂.of_pure
      obtain ⟨ℓ, tour, toll⟩ := pass_tours hg hi hm h₁
      exact ⟨ℓ, .last tour, by rwa [add_zero]⟩
    | .ok none =>
      obtain ⟨t₂, h₂, rfl⟩ := h₂
      obtain ⟨ℓ, tour, toll⟩ := pass_tours hg hi hm h₁
      obtain ⟨ℓ', tour', toll'⟩ := ih h₂
      exact ⟨_, .again tour tour', fun ht => by
        rw [Ledger.toll_add, toll (Nat.le_of_add_right_le ht), toll' (Nat.le_of_add_left_le ht)]⟩

theorem visitLoop_tours (hg : st.graph.Checked) (hi : inner.Tours st R budget) {id : String} (hn : st.graph.node? id = some n)
    (hk : n.kind = .loopStart) {s s' : Scope} {t : Toll} {r : Except Halt Next}
    (h : (visitLoop st inner n).Comes R s t r s') :
    ∃ ℓ, Tour st R (.visit n) s ℓ r s' ∧ (t.1 ≤ budget → ℓ.toll = (1, 0) + t) := by
  obtain ⟨e, he⟩ := hg.loop_closed hn hk
  obtain ⟨m, hm⟩ := Graph.loopEnd_declared he
  unfold visitLoop at h
  rw [he] at h
  have begun : (Walk.beginStep n).Plain s fun r s' => r = .ok (s.nextStep n.id) ∧ s' = s.beginStep n.id :=
    Walk.plain_beginStep.mpr ⟨rfl, rfl⟩
  obtain ⟨step, s₁, -, ⟨hstep, rfl⟩, h⟩ | ⟨halt, -, ⟨hhalt, -⟩, -⟩ := begun.comes_first h
  · cases hstep
    have finished : (Walk.finishStep n (s.nextStep n.id) .completed
        { result := some (.obj [("max_iterations", .ofNat (passBound n e)), ("loop_end", .str e.source)]) }).Plain
        (s.beginStep n.id) fun r s' => r = .ok () ∧ s' = loopOpened n e s :=
      (Walk.tells_finishStep.mpr ⟨rfl, rfl⟩).plain
    obtain ⟨_, s₁, -, ⟨-, rfl⟩, h⟩ | ⟨halt, -, ⟨hhalt, -⟩, -⟩ := finished.comes_first h
    · obtain ⟨t₁, r₁, s₂, h₁, h₂⟩ := h.of_bind
      cases r₁ with
      | ok ended =>
        obtain ⟨t₂, h₂, rfl⟩ := h₂
        have left : (leaveLoop st e ended).Plain s₂ fun _ _ => True := by
          unfold leaveLoop
          split
          · trivial
          · exact (advance_ponders st e.source).plain fun _ _ _ => trivial
        obtain ⟨rfl, -⟩ := left.comes h₂
        obtain ⟨ℓ, tour, toll⟩ := passes_tours hg hi hm h₁
        rw [add_zero]
        exact ⟨_, .loop hk he tour h₂, fun ht => by rw [Ledger.toll_add, toll ht]; rfl⟩
      | error halt =>
        obtain ⟨rfl, rfl, rfl⟩ := h₂
        obtain ⟨ℓ, tour, toll⟩ := passes_tours hg hi hm h₁
        exact ⟨_, .loopBroken hk he tour, fun ht => by rw [Ledger.toll_add, toll ht]; rfl⟩
    · cases hhalt
  · cases hhalt

theorem visitSplit_tours (hg : st.graph.Checked) (hi : inner.Tours st R budget) (hk : n.kind = .split) {s s' : Scope} {t : Toll}
    {r : Except Halt Next} (h : (visitSplit st inner n).Comes R s t r s') :
    ∃ ℓ, Tour st R (.visit n) s ℓ r s' ∧ (t.1 ≤ budget → ℓ.toll = (1, 0) + t) := by
  obtain ⟨starts, s₁, hopen, -, h⟩ | ⟨halt, -, ⟨⟨starts, hs⟩, -⟩, -⟩ := (openSplit_records n).comes_first h
  · obtain ⟨-, -, -, declared⟩ := hopen.secured (openSplit_accounted hg n s)
    have h : (Walk.split st.joining (starts.map (inner (st.graph.join? n.id).toList)) s₁.fork >>= closeSplit st n).Comes R s₁
      t r s' := h
    obtain ⟨t₁, r₁, s₂, h₁, h₂⟩ := h.of_bind
    obtain ⟨tolls, outcomes, winner, hb, hw, rfl, rfl, rfl⟩ := h₁.of_split
    obtain ⟨t₂, h₂, rfl⟩ := h₂
    obtain ⟨rfl, -⟩ := (closeSplit_records n _).comes h₂
    rw [add_zero]
    choose ledgers tour toll using fun i => hi (declared starts rfl _ (List.getElem_mem i.isLt)) (hb i)
    refine ⟨_, .split hk hopen tour hw h₂, fun ht => ?_⟩
    have within (i : Fin starts.length) : (tolls i).1 ≤ budget := by
      refine le_trans ?_ ht
      rw [Prod.fst_sum]
      exact Finset.single_le_sum (f := fun i => (tolls i).1) (fun _ _ => Nat.zero_le _) (Finset.mem_univ i)
    rw [Ledger.toll_add, Ledger.toll_ofBranches, Finset.sum_congr rfl fun i _ => toll i (within i)]
    rfl
  · cases hs

/-- Every node of a checked graph is visited on a tour. -/
theorem visit_tours (hg : st.graph.Checked) (hi : inner.Tours st R budget) {id : String} (hn : st.graph.node? id = some n)
    {s s' : Scope} {t : Toll} {r : Except Halt Next} (h : (visit st inner n).Comes R s t r s') :
    ∃ ℓ, Tour st R (.visit n) s ℓ r s' ∧ (t.1 ≤ budget → ℓ.toll = (1, 0) + t) := by
  by_cases hl : n.kind = .loopStart
  · have walked : visit st inner n = visitLoop st inner n := by simp only [visit, hl]
    exact visitLoop_tours hg hi hn hl (walked ▸ h)
  · by_cases hs : n.kind = .split
    · have walked : visit st inner n = visitSplit st inner n := by simp only [visit, hs]
      exact visitSplit_tours hg hi hs (walked ▸ h)
    · obtain ⟨rfl, -⟩ := (visit_records inner hl hs s).comes h
      exact ⟨_, .plain hl hs h, fun _ => rfl⟩

/-- In front of a node a segment stops at a boundary, is called off, or has the dispatch refused;
    otherwise it is up to the dispatch. -/
theorem entry_tours {most : Nat} {own : List String} {id : String} {rest : Bool → Walk Flow} {s s' : Scope} {t : Toll} {r : Except Halt Flow}
    (h : (if own.contains id then pure (.boundary id) else Walk.checkpoint >>= fun _ => Walk.mayVisit >>= rest :
      Walk Flow).Comes R s t r s') (hrefused : rest false = throw (overLimit st id))
    (hallowed : ∀ t', id ∉ own → (rest true).Comes R s t' r s' → t = (1, 0) + t' →
      ∃ ℓ, Tour st R (.segment own id) s ℓ r s' ∧ (t.1 ≤ most → ℓ.toll = t)) :
    ∃ ℓ, Tour st R (.segment own id) s ℓ r s' ∧ (t.1 ≤ most → ℓ.toll = t) := by
  split at h
  · next ho =>
    obtain ⟨rfl, rfl, rfl⟩ := h.of_pure
    exact ⟨_, .boundary (by simpa using ho), fun _ => rfl⟩
  · next ho =>
    have ho : id ∉ own := by simpa using ho
    obtain h | ⟨rfl, rfl, rfl⟩ := h.of_checkpoint
    · obtain ⟨allowed, t', hnext, rfl⟩ := h.of_mayVisit
      cases allowed with
      | true => exact hallowed t' ho hnext rfl
      | false =>
        rw [hrefused] at hnext
        obtain ⟨rfl, rfl, rfl⟩ := hnext.of_throw
        exact ⟨_, .refused ho, fun _ => rfl⟩
    · exact ⟨_, .calledOff ho, fun _ => rfl⟩

/-- Whatever a segment comes to, it comes to on a tour. Its ledger shows the toll as long as the budget
    is not exceeded: a segment whose budget is used up breaks off as if the dispatch were refused. -/
theorem segment_tours (hg : st.graph.Checked) (budget : Nat) : Inner.Tours st R budget (segment st budget) := by
  induction budget with
  | zero =>
    intro own id s t r s' hid h
    unfold segment at h
    refine entry_tours h rfl fun t' ho hnext heq => ?_
    subst heq
    obtain ⟨rfl, rfl, -⟩ := hnext.of_throw
    exact ⟨_, .refused ho, fun ht => absurd ht (by simp)⟩
  | succ budget ih =>
    intro own id s t r s' hid h
    unfold segment at h
    refine entry_tours h rfl fun t' ho hnext heq => ?_
    subst heq
    obtain ⟨n, hn⟩ := Option.isSome_iff_exists.mp hid
    simp only [if_true, hn] at hnext
    have spared (ht : ((1, 0) + t').1 ≤ budget + 1) : t'.1 ≤ budget := by
      have : 1 + t'.1 ≤ budget + 1 := ht
      omega
    obtain ⟨t₁, r₁, s₁, h₁, h₂⟩ := hnext.of_bind
    match r₁ with
    | .error halt =>
      obtain ⟨rfl, rfl, rfl⟩ := h₂
      obtain ⟨ℓ, tour, toll⟩ := visit_tours hg ih hn h₁
      exact ⟨_, .broken ho hn tour, fun ht => toll (spared ht)⟩
    | .ok (.stop flow) =>
      obtain ⟨t₂, h₂, rfl⟩ := h₂
      obtain ⟨rfl, rfl, rfl⟩ := h₂.of_pure
      obtain ⟨ℓ, tour, toll⟩ := visit_tours hg ih hn h₁
      rw [add_zero] at spared ⊢
      exact ⟨_, .stop ho hn tour, fun ht => toll (spared ht)⟩
    | .ok (.node next) =>
      obtain ⟨t₂, h₂, rfl⟩ := h₂
      obtain ⟨-, -, -, known⟩ := h₁.secured (visit_accounted hg (segment_accounted hg budget) hn s)
      obtain ⟨ℓ, tour, toll⟩ := visit_tours hg ih hn h₁
      obtain ⟨ℓ', tour', toll'⟩ := ih (known _ rfl next rfl) h₂
      refine ⟨_, .onward ho hn tour tour', fun ht => ?_⟩
      have within := spared ht
      rw [Ledger.toll_add, toll (Nat.le_of_add_right_le within), toll' (Nat.le_of_add_left_le within), add_assoc]

end Segments

/-! ## Runs -/

/-- Every course of a run that is over is a tour from its start node. -/
theorem Course.tour {st : Setting} (hg : st.graph.Checked) {start : String} (hs : st.graph.isDeclared start = true)
    {c : Context} {b : Bool} {w w' : Shared} {acts : List Act} {o : Outcome}
    (h : Course st.config.maxVisits b (.at (runFrom st start c)) w acts (.finished o) w') :
    ∃ ℓ, Tour st (given acts) (.segment [] start) { context := c } ℓ o.ending o.scope ∧ ℓ.toll = tollOf acts := by
  have comes : (runFrom st start c).Comes (given acts) (tollOf acts) o := h.comes (given_keeps acts)
  -- The notices in front of the segment and behind it count for nothing.
  obtain ⟨_, t₁, t₂, h₁, h₂, ht⟩ := comes.of_bind
  obtain ⟨o', t₃, t₄, h₃, h₄, rfl⟩ := h₂.of_bind
  obtain ⟨_, t₅, t₆, h₅, h₆, rfl⟩ := h₄.of_bind
  obtain ⟨⟨r, s'⟩, t₇, t₈, h₇, h₈, rfl⟩ := h₃.of_bind
  have silent {n : Notice} {t : Toll} {u : Unit} (h : (Process.request (.notify n)).Comes (given acts) t u) : t = 0 := by
    have plain : (Process.request (.notify n)).Plain fun _ => True := ⟨nofun, fun _ => trivial⟩
    exact (plain.comes h).1
  obtain rfl := silent h₁
  obtain rfl := silent h₅
  cases h₆
  cases h₈
  simp only [zero_add, add_zero] at ht
  obtain ⟨ℓ, tour, toll⟩ := segment_tours hg st.config.maxVisits hs h₇
  have within : (tollOf acts).1 ≤ st.config.maxVisits := h.dispatches_le.trans (Nat.sub_le ..)
  exact ⟨ℓ, tour, (toll (ht ▸ within)).trans ht.symm⟩

end Capability.Execution
