/-
  Capability.Proofs.FanOut — a split that waits for all of its branches does what it would do
  if they walked one after another.

  The branches work on scopes of their own, and what they share, the count of dispatches and
  the cancellation, tells them nothing as long as no dispatch is refused and nothing is
  cancelled.

  (1) `opensBranch_decides`: which branches are opened depends on the variables alone.
  (2) `visitSplit_alike`: a split yields what it yields in turn.
  (3) `fan_out_is_as_in_turn`: so every undisturbed course of it ends as one in turn does, any two
      courses end alike, and the last branch that wrote a variable decides it.
-/

import Capability.Proofs.Splits
import Capability.Proofs.Steady

namespace Capability.Execution

/-! ## Splits in turn -/

/-- Processes one after another; their ends in order. -/
def Process.inTurn {α : Type} : List (Process α) → Process (List α)
  | [] => .done []
  | p :: ps => p.bind fun a => (inTurn ps).bind fun as => .done (a :: as)

/-- Walks one after another, each from the same scope. -/
def Walk.inTurn (branches : List (Walk Flow)) (s : Scope) : Walk Gathered :=
  ExceptT.lift (StateT.lift ((Process.inTurn (branches.map fun b => b.strand s)).bind fun os => .done ⟨os, none⟩))

/-- A split whose branches walk one after another, in the order of their declaration. -/
def visitSplitInTurn (s : Setting) (inner : Inner) (n : Node) : Walk Next := do
  let starts ← openSplit s n
  let g ← Walk.inTurn (starts.map (inner (s.graph.join? n.id).toList)) (← get).fork
  closeSplit s n g

variable {answers : Answers} {α β : Type}

/-- Two processes that yield the same in as many dispatches. -/
def Process.Alike (answers : Answers) (p q : Process α) : Prop :=
  ∀ a n, p.Yields answers a n ↔ q.Yields answers a n

namespace Process

theorem Alike.refl (p : Process α) : p.Alike answers p := fun _ _ => Iff.rfl

theorem Alike.bind {p q : Process α} {f g : α → Process β} (h : p.Alike answers q)
    (hf : ∀ a, (f a).Alike answers (g a)) : (p.bind f).Alike answers (q.bind g) := by
  intro b n
  simp only [yields_bind, h _ _, hf _ _ _]

theorem yields_done {a b : α} {n : Nat} : (done a).Yields answers b n ↔ b = a ∧ n = 0 := by
  constructor
  · intro h
    cases h
    exact ⟨rfl, rfl⟩
  · rintro ⟨rfl, rfl⟩
    exact .done _

/-- In turn, each process yields what it yields alone. -/
theorem yields_inTurn {count : Nat} {p : Fin count → Process α} {as : List α} {n : Nat} :
    (inTurn (List.ofFn p)).Yields answers as n ↔
      ∃ (a : Fin count → α) (costs : Fin count → Nat),
        (∀ i, (p i).Yields answers (a i) (costs i)) ∧ as = List.ofFn a ∧ n = ∑ i, costs i := by
  induction count generalizing as n with
  | zero =>
    simp only [List.ofFn_zero, inTurn, yields_done, Finset.univ_eq_empty, Finset.sum_empty]
    exact ⟨fun ⟨h, h'⟩ => ⟨Fin.elim0, Fin.elim0, fun i => i.elim0, h, h'⟩, fun ⟨_, _, _, h, h'⟩ => ⟨h, h'⟩⟩
  | succ count ih =>
    simp only [List.ofFn_succ, inTurn, yields_bind, yields_done, ih, Fin.sum_univ_succ]
    constructor
    · rintro ⟨a, k, m, ha, ⟨as, k', m', ⟨b, costs, hb, rfl, rfl⟩, ⟨rfl, rfl⟩, rfl⟩, rfl⟩
      refine ⟨Fin.cons a b, Fin.cons k costs, fun i => ?_, by simp, by simp⟩
      cases i using Fin.cases with
      | zero => exact ha
      | succ i => exact hb i
    · rintro ⟨a, costs, ha, rfl, rfl⟩
      exact ⟨a 0, costs 0, _, ha 0, ⟨_, _, 0, ⟨_, _, fun i => ha i.succ, rfl, rfl⟩, ⟨rfl, rfl⟩, rfl⟩, by simp⟩

end Process

/-! ## What a split yields -/

theorem Walk.alike_bind {w w' : Walk α} {f f' : α → Walk β}
    (h : ∀ s, (w.process s).Alike answers (w'.process s))
    (hf : ∀ a s, ((f a).process s).Alike answers ((f' a).process s)) (s : Scope) :
    ((w >>= f).process s).Alike answers ((w' >>= f').process s) := by
  rw [Walk.process_bind, Walk.process_bind]
  refine (h s).bind fun p => ?_
  obtain ⟨_ | a, t⟩ := p
  · exact .refl _
  · exact hf a t

/-- Branches that are all waited for yield what they yield in turn. -/
theorem Walk.split_alike (branches : List (Walk Flow)) (fork s : Scope) :
    ((Walk.split .all branches fork).process s).Alike answers ((Walk.inTurn branches fork).process s) := by
  intro a n
  have turn : (Walk.inTurn branches fork).process s =
      (Process.inTurn (List.ofFn fun i : Fin branches.length => branches[i].strand fork)).bind fun os =>
        .done (.ok ⟨os, none⟩, s) := by
    have ofFn : (List.ofFn fun i : Fin branches.length => branches[i].strand fork) =
        branches.map fun b => b.strand fork :=
      List.ofFn_getElem_eq_map branches fun b => b.strand fork
    rw [ofFn]
    exact (process_lift _ s).trans (Process.bind_assoc _ _ _)
  rw [turn, Process.yields_bind]
  simp only [Process.yields_inTurn, Process.yields_done]
  constructor
  · intro h
    cases h with
    | split outcomes costs hb h =>
      cases h with
      | done => exact ⟨_, _, 0, ⟨outcomes, costs, hb, rfl, rfl⟩, ⟨rfl, rfl⟩, rfl⟩
  · rintro ⟨os, k, m, ⟨outcomes, costs, hb, rfl, rfl⟩, ⟨rfl, rfl⟩, rfl⟩
    exact .split outcomes costs hb (.done _)

/-- A split that waits for all of its branches yields what it yields in turn. -/
theorem visitSplit_alike {s : Setting} (hs : s.joining = .all) (inner : Inner) (n : Node) (scope : Scope) :
    ((visitSplit s inner n).process scope).Alike answers ((visitSplitInTurn s inner n).process scope) := by
  unfold visitSplit visitSplitInTurn
  rw [hs]
  refine Walk.alike_bind (fun _ => .refl _) (fun starts => Walk.alike_bind (fun _ => .refl _) fun t =>
    Walk.alike_bind (Walk.split_alike _ _) fun _ _ => .refl _) scope

/-! ## Courses of a split -/

theorem Process.inTurn_ensures {J : Joining → Prop} {P : α → Prop} {ps : List (Process α)}
    (h : ∀ p ∈ ps, p.Ensures J P) : (inTurn ps).Ensures J fun as => ∀ a ∈ as, P a := by
  induction ps with
  | nil => exact fun a ha => absurd ha List.not_mem_nil
  | cons p ps ih =>
    refine Process.ensures_bind.mpr ((h p List.mem_cons_self).mono fun a ha => ?_)
    refine Process.ensures_bind.mpr ((ih fun q hq => h q (List.mem_cons_of_mem _ hq)).mono fun as has => ?_)
    exact List.forall_mem_cons.mpr ⟨ha, has⟩

/-- In turn as well, branches grow their forks. -/
theorem visitSplitInTurn_grows {J : Joining → Prop} {inner : Inner} (st : Setting) (hi : inner.Grows J) (n : Node) :
    (visitSplitInTurn st inner n).Grows J := by
  refine (openSplit_grows st n).bind fun starts s => ?_
  simp only [Walk.ensures_bind, Walk.ensures_get]
  unfold Walk.Ensures
  rw [Walk.inTurn, Walk.process_lift, Process.ensures_bind, Process.ensures_bind]
  refine (Process.inTurn_ensures (P := fun o => s.fork.Grows o.scope) fun p hp => ?_).mono fun os ho => ?_
  · obtain ⟨b, hb, rfl⟩ := List.mem_map.mp hp
    obtain ⟨start, -, rfl⟩ := List.mem_map.mp hb
    exact strand_ensures (hi _ start) s.fork
  · exact closeSplit_grows st n (g := ⟨os, none⟩) ho s

theorem joining_all {s : Setting} (hs : s.graph.strategy ≠ .firstSuccess) : s.joining = .all := if_neg hs

/-- What a walk yields is what its first part yields and what it goes on to yield. -/
theorem Walk.yields_bind {w : Walk α} {f : α → Walk β} {s t : Scope} {r : Except Halt β} {n : Nat} :
    ((w >>= f).process s).Yields answers (r, t) n →
      ∃ x u k m, (w.process s).Yields answers (x, u) k ∧ n = k + m ∧
        match x with
        | .ok a => ((f a).process u).Yields answers (r, t) m
        | .error h => r = .error h ∧ t = u := by
  rw [Walk.process_bind, Process.yields_bind]
  rintro ⟨⟨x, u⟩, k, m, hw, hf, rfl⟩
  refine ⟨x, u, k, m, hw, rfl, ?_⟩
  cases x with
  | ok a => exact hf
  | error h =>
    obtain ⟨e, -⟩ := Process.yields_done.mp hf
    exact ⟨congrArg Prod.fst e, congrArg Prod.snd e⟩

/-- After a split a variable is what the last of its branches left that wrote it, each branch
    having walked alone from a fork of the scope before. -/
theorem visitSplit_writes {s : Setting} (hs : s.joining = .all) {inner : Inner} (hi : inner.Grows (· = .all)) {n : Node}
    {scope t : Scope} {r : Except Halt Next} {cost : Nat}
    (h : ((visitSplit s inner n).process scope).Yields answers (r, t) cost) :
    ∃ outcomes : List Outcome,
      List.Forall₂ (fun start o => ∃ k, ((inner (s.graph.join? n.id).toList start).strand scope.fork).Yields answers o k)
        (branchStarts s n scope.context.vars) outcomes ∧
      ∀ key, t.context.get? key = valueAfter key outcomes (scope.context.get? key) := by
  obtain ⟨_, u, k, m, hopen, -, h⟩ := Walk.yields_bind h
  obtain ⟨rfl, e, fs, -, rfl⟩ := hopen.ensured (openSplit_ensures (J := fun _ => True) s n scope)
  generalize branchStarts s n scope.context.vars = starts at h
  have h : ((Walk.split s.joining (starts.map (inner (s.graph.join? n.id).toList)) scope.fork >>= closeSplit s n).process
      (scope.record e fs)).Yields answers (r, t) m := h
  obtain ⟨_, u, _, m, hsplit, -, h⟩ := Walk.yields_bind h
  rw [hs] at hsplit
  cases hsplit with
  | split outcomes costs hb hd =>
    cases hd with
    | done =>
      have branch : ∀ i, ((inner (s.graph.join? n.id).toList (starts.get (i.cast (by simp)))).strand
          scope.fork).Yields answers (outcomes i) (costs i) := fun i => by simpa using hb i
      have grown : ∀ i, scope.fork.Grows (outcomes i).scope := fun i =>
        (branch i).ensured (strand_ensures (hi _ _) scope.fork)
      refine ⟨List.ofFn outcomes, List.forall₂_iff_get.mpr ⟨by simp, fun i h₁ h₂ => ?_⟩, fun key => ?_⟩
      · have alone := branch ⟨i, by simpa using h₁⟩
        exact ⟨_, by simpa using alone⟩
      · have vars := h.ensured (closeSplit_vars (J := fun _ => True) s n _ _)
        have bound : ∀ o ∈ List.ofFn outcomes, o.scope.context.Bound := by
          intro o ho
          obtain ⟨i, rfl⟩ := List.mem_ofFn.mp ho
          exact (grown i).bound (Scope.fork_bound scope)
        have folded := lookup_foldBranches s.joining ⟨List.ofFn outcomes, none⟩ bound (scope.record e fs) key
        rw [hs, kept_all] at folded
        rw [hs] at vars
        exact (congrArg (Keyed.lookup key) vars).trans folded

/-- A split that waits for all of its branches is a split in turn, as long as calls are
    answered by what is asked and nothing is cancelled or refused: a split in turn can come to
    the same, every other course of either comes to the same, and every variable is what the
    last branch left that wrote it, or what it was before. -/
theorem fan_out_is_as_in_turn {s : Setting} (hs : s.graph.strategy ≠ .firstSuccess) {budget : Nat} {n : Node}
    {scope t : Scope} {w w' : Shared} {acts : List Act} {r : Except Halt Next} (hw : w.cancelled = false)
    (hacts : ∀ act ∈ acts, act.Steady answers)
    (h : Course s.config.maxVisits false (.at ((visitSplit s (segment s budget) n).process scope)) w acts
      (.finished (r, t)) w') :
    (∃ acts' w'', Course s.config.maxVisits false (.at ((visitSplitInTurn s (segment s budget) n).process scope)) w
        acts' (.finished (r, t)) w'' ∧ ∀ act ∈ acts', act.Steady answers) ∧
      (∀ p ∈ [visitSplit s (segment s budget) n, visitSplitInTurn s (segment s budget) n], ∀ v v' acts' r' t',
        v.cancelled = false → (∀ act ∈ acts', act.Steady answers) →
        Course s.config.maxVisits false (.at (p.process scope)) v acts' (.finished (r', t')) v' → r' = r ∧ t' = t) ∧
      ∃ outcomes : List Outcome,
        List.Forall₂ (fun start o =>
            ∃ k, ((segment s budget (s.graph.join? n.id).toList start).strand scope.fork).Yields answers o k)
          (branchStarts s n scope.context.vars) outcomes ∧
        ∀ key, t.context.get? key = valueAfter key outcomes (scope.context.get? key) := by
  have hj := joining_all hs
  have grows := segment_grows s (J := (· = .all)) hj budget
  have alike := @visitSplit_alike answers s hj (segment s budget) n scope
  obtain ⟨k, hy, hk⟩ := h.yields hw hacts (visitSplit_grows s grows hj n scope)
  cases hy with
  | «at» hy =>
    refine ⟨?_, ?_, visitSplit_writes hj grows hy⟩
    · obtain ⟨acts', hc, ha⟩ := ((alike _ _).mp hy).course _ w hw hk
      exact ⟨acts', _, hc, ha⟩
    · intro p hp v v' acts' r' t' hv ha hc
      have hp' : (p.process scope).Ensures (· = .all) (fun x => scope.Grows x.2) ∧
          (p.process scope).Yields answers (r, t) k := by
        rcases List.mem_pair.mp hp with rfl | rfl
        · exact ⟨visitSplit_grows s grows hj n scope, hy⟩
        · exact ⟨visitSplitInTurn_grows s grows n scope, (alike _ _).mp hy⟩
      obtain ⟨k', hy', -⟩ := hc.yields hv ha hp'.1
      cases hy' with
      | «at» hy' =>
        obtain ⟨e, -⟩ := hy'.unique hp'.2
        exact ⟨congrArg Prod.fst e, congrArg Prod.snd e⟩

/-- Two branches write the same variable. -/
def writers : Setting where
  graph :=
    { id := "writers"
      version := "1.0"
      name := ""
      description := ""
      metadata := none
      strategy := .abort
      maxRetries := 0
      retryDelay := none
      nodes := [{ id := "start", kind := .start }, { id := "fork", kind := .split },
        { Node.skill "a" "first" with outputs := ["x"] }, { Node.skill "b" "second" with outputs := ["x"] },
        { id := "meet", kind := .join }, { id := "end", kind := .finish }]
      edges := [{ source := "start", target := "fork" }, { source := "fork", target := "a", kind := .parallel },
        { source := "fork", target := "b", kind := .parallel }, { source := "a", target := "meet" },
        { source := "b", target := "meet" }, { source := "meet", target := "end" }] }

/-- Every skill answers with its own name. -/
def namesOfSkills : Answers := fun k _ =>
  match k with
  | .skill i => .given (.ok (.str i.skill))
  | .question _ => .given (.ok .null)

/-- The second of two writers decides, also if both are under way at the same time. -/
theorem the_second_writer_decides : ∃ (t : Scope) (acts acts' : List Act) (w' w'' : Shared) (outcomes : List Outcome),
    Course writers.config.maxVisits false
        (.at ((visitSplit writers (segment writers 9) { id := "fork", kind := .split }).process {})) {} acts
        (.finished (.ok (.node "end"), t)) w' ∧
      Course writers.config.maxVisits false
        (.at ((visitSplitInTurn writers (segment writers 9) { id := "fork", kind := .split }).process {})) {} acts'
        (.finished (.ok (.node "end"), t)) w'' ∧
      t.context.get? "x" = some (.str "second") ∧ outcomes.length = 2 ∧
      ∀ key, t.context.get? key = valueAfter key outcomes none := by
  have computed : (((visitSplit writers (segment writers 9) { id := "fork", kind := .split }).process {}).yield?
      namesOfSkills).map (fun p => (p.1.1.toOption, (p.1.2.context.get? "x").any (·.same (.str "second")), p.2)) =
      some (some (.node "end"), true, 2) := by
    decide +kernel
  obtain ⟨⟨⟨r, t⟩, n⟩, hyield, hshown⟩ := Option.map_eq_some_iff.mp computed
  obtain ⟨hr, hrest⟩ := Prod.mk.inj hshown
  obtain ⟨hx, rfl⟩ := Prod.mk.inj hrest
  obtain rfl := ok_of_toOption hr
  have hvalue : t.context.get? "x" = some (.str "second") := by
    obtain ⟨v, hv, hsame⟩ := (Option.any_eq_true _ _).mp hx
    rw [hv, Json.same_str.mp hsame]
  obtain ⟨acts, hc, hacts⟩ := (Process.yields_of_yield? hyield).course writers.config.maxVisits {} rfl
    (.inr (by decide))
  obtain ⟨⟨acts', w'', hc', -⟩, -, outcomes, hall, hvars⟩ :=
    fan_out_is_as_in_turn (by decide) rfl hacts hc
  have hstarts : (branchStarts writers { id := "fork", kind := .split } []).length = 2 := by decide +kernel
  exact ⟨t, acts, acts', _, w'', outcomes, hc, hc', hvalue, hall.length_eq.symm.trans hstarts, hvars⟩

end Capability.Execution
