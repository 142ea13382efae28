/-
  Capability.Proofs.Catalogs — runs whose skills are those of a catalog.

  The check of a graph against a catalog goes over the skills that its nodes name. A run calls no
  others: whatever it invokes is named by the node on whose behalf it does so. A catalog that knows
  a skill answers with a value, so nothing is ever tried again or replaced.

  (1) `Graph.skills_known`: a catalog that passed the check knows every skill a skill node names.
  (2) `Chronicle.calls`: a skill is invoked only for a node that names it.
  (3) `Chronicle.served_steps`, `Chronicle.served_fallbacks`: where every call is served, steps of
      skill nodes go smoothly, and no fallback of theirs is told of.
-/

import Capability.Proofs.Chronicle
import Capability.Proofs.Termination
import Capability.Proofs.FanOut

namespace Capability

/-! ## Catalogs -/

theorem Catalog.invoke_known {catalog : Catalog} {skill : String} (h : (catalog.info? skill).isSome) (node : String) :
    ∃ v, catalog.invoke node skill = .ok v := by
  cases catalog with
  | simulated entries => exact ⟨_, rfl⟩
  | fixed entries =>
    obtain ⟨info, hinfo⟩ := Option.isSome_iff_exists.mp h
    obtain ⟨entry, hentry, -⟩ := Option.map_eq_some_iff.mp hinfo
    exact ⟨entry.response, by simp [invoke, hentry]⟩

/-- A catalog that passed the check knows every skill that a skill node names. -/
theorem Graph.skills_known {g : Graph} {catalog : Catalog} (h : (g.validateSkills catalog).isValid) {n : Node} (hn : n ∈ g.nodes)
    (hk : n.kind = .skill) {skill : String} (hs : skill ∈ Lint.skillsOf n) : (catalog.info? skill).isSome := by
  by_contra unknown
  have missing : (Fault.skillNotFound n.id skill).message ∈ (g.validateSkills catalog).errors := by
    refine List.mem_map.mpr ⟨_, List.mem_filter.mpr ⟨List.mem_append_left _ (List.mem_flatMap.mpr ⟨n,
      List.mem_filter.mpr ⟨hn, by simpa using hk⟩, List.mem_map.mpr ⟨skill, List.mem_filter.mpr ⟨hs, ?_⟩, rfl⟩⟩), rfl⟩, rfl⟩
    simpa using unknown
  rw [List.isEmpty_iff.mp h] at missing
  cases missing

namespace Execution

/-- The skills among some deeds are answered from a catalog, unless a cancellation is first. A
    catalog answers at once, so there is no time for a limit to pass. -/
def AnsweredBy (catalog : Catalog) (ds : List Deed) : Prop :=
  ∀ i l a, .answered (.skill i) l a ∈ ds → a = .cancelled ∨ a = .given (catalog.invoke i.node i.skill)

/-! ## Chronicles -/

section Chronicles

variable {g : Graph} {open? : Option Node} {ds : List Deed} {es : List Step} {fs : List ConditionFailure}

theorem Aside.calls (h : Aside g open? ds fs) {i : Invocation} {l : Option Duration} {a : Answer}
    (hm : .answered (.skill i) l a ∈ ds) : Calls g i := by
  induction h with
  | append _ _ ih ih' => exact (List.mem_append.mp hm).elim ih ih'
  | answered _ _ hk =>
    cases List.mem_singleton.mp hm
    exact hk i rfl
  | nil => cases hm
  | _ => cases List.mem_singleton.mp hm

/-- Fallbacks that are told of while a step is open are those of its node. -/
theorem Aside.fallback_node {n : Node} (h : Aside g (some n) ds fs) {node target : String}
    (hm : .told (.event (.fallbackUsed node target)) ∈ ds) : node = n.id := by
  induction h with
  | append _ _ ih ih' => exact (List.mem_append.mp hm).elim ih ih'
  | fallback target' ho =>
    cases List.mem_singleton.mp hm
    cases ho
    rfl
  | nil => cases hm
  | _ => cases List.mem_singleton.mp hm

/-- What is neither at the beginning nor at the end of a step is shown in between. -/
theorem mem_during {n : Node} {status : StepStatus} {d : Deed} (hm : d ∈ Walk.opening n ++ (ds ++ Walk.closing n status))
    (ho : d ∉ Walk.opening n) (hc : d ∉ Walk.closing n status) : d ∈ ds :=
  (List.mem_append.mp ((List.mem_append.mp hm).resolve_left ho)).resolve_right hc

/-- A skill is invoked only for a node that names it. -/
theorem Chronicle.calls (h : Chronicle g ds es fs) {i : Invocation} {l : Option Duration} {a : Answer}
    (hm : .answered (.skill i) l a ∈ ds) : Calls g i := by
  induction h with
  | aside ha => exact ha.calls hm
  | append _ _ ih ih' => exact (List.mem_append.mp hm).elim ih ih'
  | step _ _ _ ha _ => exact ha.calls (mem_during hm (by simp [Walk.opening]) (by simp [Walk.closing]))
  | split _ _ _ hd ih =>
    obtain ⟨b, hb, hm⟩ := List.mem_flatMap.mp (hd.perm.mem_iff.mp hm)
    exact ih b hb hm

theorem Served.subset {ds' : List Deed} (h : Served ds) (hs : ds' ⊆ ds) : Served ds' := fun i l a hm => h i l a (hs hm)

/-- Where every call is served, the steps of skill nodes go smoothly. -/
theorem Chronicle.served_steps (h : Chronicle g ds es fs) (hs : Served ds) :
    ∀ e ∈ es, g.kind? e.node = some .skill → Step.Smooth e := by
  induction h with
  | aside => exact fun _ he => by cases he
  | append _ _ ih ih' => exact fun e he => (List.mem_append.mp he).elim (ih hs.left e) (ih' hs.right e)
  | step hn he _ _ hsmooth =>
    intro e hm hk
    cases List.mem_singleton.mp hm
    rw [he, Graph.kind?_of_node? hn] at hk
    exact (hsmooth (Option.some.inj hk) hs.right.left).1
  | split _ _ _ hd ih =>
    intro e hm
    obtain ⟨b, hb, hm⟩ := List.mem_flatMap.mp hm
    exact ih b hb (hs.subset (hd.inOrder _ (List.mem_map_of_mem hb)).subset) e hm

/-- Nor is a fallback of a skill node told of. -/
theorem Chronicle.served_fallbacks (h : Chronicle g ds es fs) (hs : Served ds) {node target : String}
    (hm : .told (.event (.fallbackUsed node target)) ∈ ds) : g.kind? node ≠ some .skill := by
  induction h with
  | aside ha => exact absurd hm (ha.fallbackFree node target)
  | append _ _ ih ih' => exact (List.mem_append.mp hm).elim (ih hs.left) (ih' hs.right)
  | step hn _ _ ha hsmooth =>
    intro hk
    have inside := mem_during hm (by simp [Walk.opening]) (by simp [Walk.closing])
    obtain rfl := ha.fallback_node inside
    rw [Graph.kind?_of_node? hn] at hk
    exact (hsmooth (Option.some.inj hk) hs.right.left).2 _ target inside
  | split _ _ _ hd ih =>
    obtain ⟨b, hb, hm⟩ := List.mem_flatMap.mp (hd.perm.mem_iff.mp hm)
    exact ih b hb (hs.subset (hd.inOrder _ (List.mem_map_of_mem hb)).subset) hm

end Chronicles

/-! ## Courses -/

section Courses

variable {α : Type} {limit : Nat} {b : Bool} {s s' : Standing α} {w w' : Shared}

/-- A strand that is called off hears of nothing but that. -/
theorem Move.answer_cancelled {act : Act} (h : Move limit b s w act s' w') (hc : (b || w.cancelled) = true) {k : Call}
    {l : Option Duration} {a : Answer} (hd : act.deed? = some (.answered k l a)) : a = .cancelled := by
  induction h with
  | skip | interrupt => cases hd; rfl
  | answer _ _ _ _ _ running | expire _ _ _ running => exact absurd hc (by simp [running])
  | branch i _ ih => exact ih (by rw [Bool.or_right_comm, hc, Bool.true_or]) hd
  | _ => cases hd

theorem Course.answers_cancelled {acts : List Act} (h : Course limit b s w acts s' w') (hc : (b || w.cancelled) = true)
    {k : Call} {l : Option Duration} {a : Answer} (hm : .answered k l a ∈ deedsIn acts) : a = .cancelled := by
  induction h with
  | stay => cases hm
  | @move _ _ _ _ _ _ act acts move _ ih =>
    obtain ⟨act', hact, hd⟩ := List.mem_filterMap.mp hm
    obtain rfl | hact := List.mem_cons.mp hact
    · exact move.answer_cancelled hc hd
    · refine ih ?_ (List.mem_filterMap.mpr ⟨act', hact, hd⟩)
      rw [move.cancelled, ← Bool.or_assoc, hc, Bool.true_or]
  | elsewhere visits cancels _ ih => exact ih (by rw [← Bool.or_assoc, hc, Bool.true_or]) hm

/-- Whatever is under way can be called off, and then its calls are answered by the cancellation only. -/
theorem Course.cut_short {acts : List Act} (h : Course limit b s w acts s' w') :
    ∃ post a w'', Course limit b s w (acts ++ post) (.finished a) w'' ∧
      ∀ k l a, .answered k l a ∈ deedsIn post → a = .cancelled := by
  obtain ⟨post, a, w'', rest⟩ : ∃ post a w'', Course limit b s' ⟨w'.visits, true⟩ post (.finished a) w'' := s'.has_end b _
  refine ⟨.elsewhere 0 true :: post, a, w'', h.trans (.elsewhere 0 true ?_), fun k l a hm => ?_⟩
  · rw [Nat.add_zero, Bool.or_true]
    exact rest
  · exact rest.answers_cancelled (Bool.or_true b) hm

end Courses

/-! ## Runs -/

/-- A graph is valid, and its check against a catalog finds no error. Whoever answers its questions,
    whatever is cancelled, and at every moment: no skill is invoked that the catalog does not find,
    for each call is served or cancelled; no fallback of a skill node is used; and when the run is
    over, each step of a skill node was completed at the first attempt or interrupted by a
    cancellation. -/
theorem a_checked_catalog_serves_every_run {s : Setting} {catalog : Catalog} (hv : s.graph.validate.isValid = true)
    (hs : (s.graph.validateSkills catalog).isValid = true) (c : Context) :
    ∃ p, run s c = .ok p ∧ ∀ {w w' acts t}, Course s.config.maxVisits false (.at p) w acts t w' →
      AnsweredBy catalog (deedsIn acts) →
        Served (deedsIn acts) ∧
        (∀ node target, s.graph.kind? node = some .skill → .told (.event (.fallbackUsed node target)) ∉ deedsIn acts) ∧
        ∀ o, t = .finished o → ∃ es, o.scope.context.history = c.history ++ es ∧
          ∀ e ∈ es, s.graph.kind? e.node = some .skill →
            e.status = .completed ∧ e.retryCount = 0 ∧ e.fallbackUsed = false ∨ e.status = .skipped ∧ e.interrupted = true := by
  obtain ⟨start, -, hr⟩ := run_of_isValid hv c
  have served {acts : List Act} {w w' : Shared} {o : Outcome}
      (h : Course s.config.maxVisits false (.at (runFrom s start c)) w acts (.finished o) w')
      (ha : AnsweredBy catalog (deedsIn acts)) : Served (deedsIn acts) := by
    obtain ⟨between, shown, es, fs, -, -, chronicle⟩ := h.chronicled hr
    intro i l a hm
    refine (ha i l a hm).imp_right fun given => ?_
    rw [shown] at hm
    obtain ⟨n, hn, hk, named⟩ := chronicle.calls (i := i) (l := l) (a := a) (by simpa using hm)
    obtain ⟨v, hinvoke⟩ := Catalog.invoke_known (Graph.skills_known hs (Graph.mem_of_node? hn) hk named) i.node
    exact ⟨v, given.trans (congrArg _ hinvoke)⟩
  refine ⟨_, hr, fun {w w' acts t} h ha => ?_⟩
  -- What is under way is looked at as if it was called off now.
  obtain ⟨post, o, w'', finished, cancelled⟩ := h.cut_short
  have all := served finished fun i l a hm => by
    rw [deedsIn_append] at hm
    exact (List.mem_append.mp hm).elim (ha i l a) fun hm => .inl (cancelled _ l a hm)
  refine ⟨?_, fun node target hk hm => ?_, fun o ho => ?_⟩
  · rw [deedsIn_append] at all
    exact all.left
  · obtain ⟨between, shown, es, fs, -, -, chronicle⟩ := finished.chronicled hr
    have during : .told (.event (.fallbackUsed node target)) ∈ between := by
      have hm := List.mem_append_left (deedsIn post) hm
      rw [← deedsIn_append, shown] at hm
      simpa using hm
    rw [shown] at all
    exact chronicle.served_fallbacks (all.subset fun _ hd => by simp [hd]) during hk
  · subst ho
    obtain ⟨between, shown, es, fs, history, -, chronicle⟩ := h.chronicled hr
    refine ⟨es, history, fun e he hk => ?_⟩
    have all := served h ha
    rw [shown] at all
    exact (chronicle.served_steps (all.subset fun _ hd => by simp [hd]) e he hk).symm

/-- A catalog that knows how to drill and how to tow. -/
def workshop : Catalog := .fixed [⟨{ id := "drill" }, .str "a hole"⟩, ⟨{ id := "tow" }, .null⟩]

/-- Everybody answers at once: skills from the workshop, and questions with nothing. -/
def atTheWorkshop : Answers := fun k _ =>
  match k with
  | .skill i => .given (workshop.invoke i.node i.skill)
  | .question _ => .given (.ok .null)

theorem answeredBy_workshop {acts : List Act} (h : ∀ act ∈ acts, act.Steady atTheWorkshop) :
    AnsweredBy workshop (deedsIn acts) := by
  have steady (act : Act) (hs : act.Steady atTheWorkshop) {k : Call} {l : Option Duration} {a : Answer}
      (hd : act.deed? = some (.answered k l a)) : a = atTheWorkshop k l := by
    induction act with
    | answered k l a cancels =>
      cases hd
      exact hs.1
    | within i act ih => exact ih hs hd
    | _ => cases hd
  intro i l a hm
  obtain ⟨act, hact, hd⟩ := List.mem_filterMap.mp hm
  exact .inr (steady act (h act hact) hd)

/-- With a workshop that knows how to drill, nobody comes to the rescue. -/
theorem a_workshop_needs_no_rescue : guarded.graph.validate.isValid = true ∧
    (guarded.graph.validateSkills workshop).isValid = true ∧ ∃ p acts o w', run guarded {} = .ok p ∧
      Course guarded.config.maxVisits false (.at p) {} acts (.finished o) w' ∧
      AnsweredBy workshop (deedsIn acts) ∧ o.scope.context.history.map (·.node) = ["start", "risky", "end"] ∧
      ∃ e ∈ o.scope.context.history, e.node = "risky" ∧
        (e.status = .completed ∧ e.retryCount = 0 ∧ e.fallbackUsed = false ∨ e.status = .skipped ∧ e.interrupted = true) := by
  have valid : guarded.graph.validate.isValid = true := by decide +kernel
  have known : (guarded.graph.validateSkills workshop).isValid = true := by decide +kernel
  obtain ⟨p, hp, runs⟩ := a_checked_catalog_serves_every_run valid known {}
  have shown : ((run guarded {}).toOption.bind fun p => p.yield? atTheWorkshop).map
      (fun r => (r.1.scope.context.history.map (·.node), r.2)) = some (["start", "risky", "end"], 3) := by
    decide +kernel
  obtain ⟨⟨o, count⟩, hyield, hshown⟩ := Option.map_eq_some_iff.mp shown
  obtain ⟨steps, rfl⟩ := Prod.mk.inj hshown
  rw [hp] at hyield
  obtain ⟨acts, hcourse, hacts⟩ := (Process.yields_of_yield? hyield).course guarded.config.maxVisits {} rfl (.inr (by decide))
  have answered := answeredBy_workshop hacts
  obtain ⟨-, -, ended⟩ := runs hcourse answered
  obtain ⟨es, history, smooth⟩ := ended o rfl
  obtain rfl : es = o.scope.context.history := history.symm
  have visited : "risky" ∈ o.scope.context.history.map (·.node) := by simp [steps]
  obtain ⟨e, he, hid⟩ := List.mem_map.mp visited
  exact ⟨valid, known, p, acts, o, _, hp, hcourse, answered, steps, e, he, hid, smooth e he (by rw [hid]; decide +kernel)⟩

end Execution

end Capability
