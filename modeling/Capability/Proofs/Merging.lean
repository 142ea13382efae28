/-
  Capability.Proofs.Merging — what scopes that were forked somewhere leave behind when they are
  merged.

  A scope begins as the fork of some context, is written to, records steps, and takes in branches, which
  were forked from it or from any other context. Two logs tell what has become of it: the writes, those
  of the branches merged into it included, and the steps.

  (1) `Forked.lookup`, `Forked.mem_written`, `Forked.history`: the logs tell everything.
  (2) `lookup_mergeAll`, `mem_written_mergeAll`, `history_mergeAll`: what branches leave behind that are
      merged one after another.
  (3) `the_last_merged_writer_decides`: the two together, and which order and grouping does not matter.
-/

import Capability.Proofs.Bindings

namespace Capability

theorem Keyed.lookup_append {α : Type} (key : String) (m m' : Keyed α) :
    lookup key (m ++ m') = (lookup key m).or (lookup key m') := by
  induction m with
  | nil => rfl
  | cons p m ih =>
    obtain ⟨k, a⟩ := p
    by_cases h : k = key
    · simp [lookup, h]
    · simpa [lookup, h] using ih

namespace Context

variable {origin c : Context} {ws : Keyed Json} {es : List Step} {key : String}

/-! ## Scopes -/

/-- A scope that was forked from a context, what was written in it, the first write first, and the steps
    that it recorded. The branches that it takes in may have been forked from whatever context. -/
inductive Forked : (origin : Context) → (writes : Keyed Json) → (steps : List Step) → Context → Prop
  | fork (origin : Context) : Forked origin [] [] origin.fork
  | set {origin c : Context} {ws : Keyed Json} {es : List Step} (key : String) (value : Json) :
      Forked origin ws es c → Forked origin (ws ++ [(key, value)]) es (c.set key value)
  | apply {origin c : Context} {ws : Keyed Json} {es : List Step} (updates : Keyed Json) :
      Forked origin ws es c → Forked origin (ws ++ updates) es (c.apply updates)
  | push {origin c : Context} {ws : Keyed Json} {es : List Step} (e : Step) :
      Forked origin ws es c → Forked origin ws (es ++ [e]) (c.push e)
  | modifyStep {origin c : Context} {ws : Keyed Json} {es : List Step} (index : Nat) (f : Step → Step) :
      Forked origin ws es c → Forked origin ws (es.modify index f) (c.modifyStep index f)
  | merge {origin c origin' branch : Context} {ws vs : Keyed Json} {es fs : List Step} :
      Forked origin ws es c → Forked origin' vs fs branch → Forked origin (ws ++ vs) (es ++ fs) (c.merge branch)
  | absorb {origin c origin' branch : Context} {ws vs : Keyed Json} {es fs : List Step} :
      Forked origin ws es c → Forked origin' vs fs branch → Forked origin ws (es ++ fs) (c.absorb branch)

/-- The value that was written last under a key. -/
def lastWrite (key : String) (ws : Keyed Json) : Option Json := Keyed.lookup key ws.reverse

theorem lastWrite_append (key : String) (ws vs : Keyed Json) :
    lastWrite key (ws ++ vs) = (lastWrite key vs).or (lastWrite key ws) := by
  rw [lastWrite, List.reverse_append, Keyed.lookup_append]
  rfl

theorem isSome_lastWrite : (lastWrite key ws).isSome ↔ key ∈ ws.keys := by
  rw [lastWrite, ← Keyed.mem_keys_iff]
  simp [Keyed.keys]

theorem lookup_apply (c : Context) (updates : Keyed Json) (key : String) :
    (c.apply updates).get? key = (lastWrite key updates).or (c.get? key) := by
  induction updates generalizing c with
  | nil => rfl
  | cons p updates ih =>
    obtain ⟨k, v⟩ := p
    have onward : (c.apply ((k, v) :: updates)).get? key = ((c.set k v).apply updates).get? key := rfl
    have split : lastWrite key ((k, v) :: updates) = (lastWrite key updates).or (lastWrite key [(k, v)]) :=
      lastWrite_append key [(k, v)] updates
    rw [onward, ih, lookup_set, split, Option.or_assoc]
    by_cases h : key = k <;> simp [lastWrite, Keyed.lookup, h, Ne.symm]

/-- Merging a branch adds what it wrote to what was written. -/
theorem mem_written_merge {branch : Context} (hb : branch.Bound) (c : Context) (key : String) :
    key ∈ (c.merge branch).written ↔ key ∈ c.written ∨ key ∈ branch.written := by
  have fold : ∀ keys : List String, (∀ k ∈ keys, (branch.get? k).isSome = true) → ∀ c : Context,
      (key ∈ (keys.foldl branch.carry c).written ↔ key ∈ c.written ∨ key ∈ keys) := by
    intro keys
    induction keys with
    | nil => intro _ c; simp
    | cons k keys ih =>
      intro hk c
      obtain ⟨v, hv⟩ := Option.isSome_iff_exists.mp (hk k List.mem_cons_self)
      have carried : branch.carry c k = c.set k v := by simp only [carry, hv]
      rw [List.foldl_cons, ih fun k' h => hk k' (List.mem_cons_of_mem _ h), carried, mem_written_set, List.mem_cons]
      tauto
  exact fold _ hb c

/-- A variable of a scope has the value written last, and what was not written is as it was in the
    context that the scope was forked from. What was written are the keys of the writes. -/
theorem Forked.tells (h : Forked origin ws es c) :
    (∀ key, c.get? key = (lastWrite key ws).or (origin.get? key)) ∧ ∀ key, key ∈ c.written ↔ key ∈ ws.keys := by
  induction h with
  | fork origin => exact ⟨fun _ => rfl, fun _ => by simp [Context.fork, Keyed.keys]⟩
  | set key value _ ih =>
    refine ⟨fun key' => ?_, fun key' => ?_⟩
    · rw [lookup_set, ih.1, lastWrite_append, Option.or_assoc]
      by_cases e : key' = key <;> simp [lastWrite, Keyed.lookup, e, Ne.symm]
    · rw [mem_written_set, ih.2]
      simp [Keyed.keys, or_comm]
  | apply updates _ ih =>
    refine ⟨fun key => ?_, fun key => ?_⟩
    · rw [lookup_apply, ih.1, lastWrite_append, Option.or_assoc]
    · rw [mem_written_apply, ih.2]
      simp [Keyed.keys, or_comm]
  | push _ _ ih => exact ih
  | modifyStep _ _ _ ih => exact ih
  | @merge _ _ origin' branch ws vs _ _ _ _ ih ih' =>
    have bound : branch.Bound := by
      intro key hk
      rw [ih'.1, Option.isSome_or, isSome_lastWrite.mpr ((ih'.2 key).mp hk), Bool.true_or]
    refine ⟨fun key => ?_, fun key => ?_⟩
    · rw [lookup_merge bound, ih.1, ih'.1, lastWrite_append, Option.or_assoc]
      -- A key that the branch wrote hides all that is behind it; another one is found behind the branch.
      by_cases hk : key ∈ branch.written
      · obtain ⟨v, hv⟩ := Option.isSome_iff_exists.mp (isSome_lastWrite.mpr ((ih'.2 key).mp hk))
        simp [hk, hv]
      · have none : lastWrite key vs = none :=
          Option.not_isSome_iff_eq_none.mp fun hs => hk ((ih'.2 key).mpr (isSome_lastWrite.mp hs))
        simp [hk, none]
    · rw [mem_written_merge bound, ih.2, ih'.2]
      simp [Keyed.keys]
  | absorb _ _ ih _ => exact ih

theorem Forked.lookup (h : Forked origin ws es c) (key : String) : c.get? key = (lastWrite key ws).or (origin.get? key) :=
  h.tells.1 key

theorem Forked.mem_written (h : Forked origin ws es c) : key ∈ c.written ↔ key ∈ ws.keys := h.tells.2 key

/-- What was written in a scope has a value. -/
theorem Forked.bound (h : Forked origin ws es c) : c.Bound := by
  intro key hk
  rw [h.lookup, Option.isSome_or, isSome_lastWrite.mpr (h.mem_written.mp hk), Bool.true_or]

/-- The history of a scope are the steps that it recorded. -/
theorem Forked.history (h : Forked origin ws es c) : c.history = es := by
  induction h with
  | fork => rfl
  | set key value _ ih => exact ih
  | @apply _ c _ _ updates _ ih =>
    have kept : ∀ (updates : Keyed Json) (c : Context), (c.apply updates).history = c.history := by
      intro updates
      induction updates with
      | nil => exact fun _ => rfl
      | cons p updates ih => exact fun c => ih (c.set p.1 p.2)
    exact (kept updates c).trans ih
  | push e _ ih => exact congrArg (· ++ [e]) ih
  | modifyStep index f _ ih => exact congrArg (List.modify · index f) ih
  | merge _ _ ih ih' => rw [history_merge, ih, ih']
  | absorb _ _ ih ih' => exact congrArg₂ (· ++ ·) ih ih'

/-! ## Merging one after another -/

/-- A scope together with where it comes from and its logs. -/
structure Branch where
  origin : Context
  writes : Keyed Json
  steps : List Step
  scope : Context
  forked : Forked origin writes steps scope

/-- Merges branches one after another. -/
def mergeAll (p : Context) (branches : List Branch) : Context := branches.foldl (fun c b => c.merge b.scope) p

/-- The last of some branches that wrote a variable. -/
def lastBranch (key : String) (branches : List Branch) : Option Branch :=
  branches.reverse.find? fun b => decide (key ∈ b.scope.written)

theorem lookup_mergeAll (p : Context) (branches : List Branch) (key : String) :
    (p.mergeAll branches).get? key = ((lastBranch key branches).map (·.scope.get? key)).getD (p.get? key) := by
  induction branches generalizing p with
  | nil => rfl
  | cons b branches ih =>
    have onward : (p.mergeAll (b :: branches)).get? key = ((p.merge b.scope).mergeAll branches).get? key := rfl
    rw [onward, ih, lookup_merge b.forked.bound, lastBranch, lastBranch, List.reverse_cons, List.find?_append]
    cases List.find? (fun b => decide (key ∈ b.scope.written)) branches.reverse with
    | some b' => rfl
    | none => by_cases hk : key ∈ b.scope.written <;> simp [hk]

theorem mem_written_mergeAll (p : Context) (branches : List Branch) (key : String) :
    key ∈ (p.mergeAll branches).written ↔ key ∈ p.written ∨ ∃ b ∈ branches, key ∈ b.scope.written := by
  induction branches generalizing p with
  | nil => simp [mergeAll]
  | cons b branches ih =>
    have onward : (p.mergeAll (b :: branches)).written = ((p.merge b.scope).mergeAll branches).written := rfl
    rw [onward, ih, mem_written_merge b.forked.bound, or_assoc]
    simp

theorem history_mergeAll (p : Context) (branches : List Branch) :
    (p.mergeAll branches).history = p.history ++ branches.flatMap (·.scope.history) := by
  induction branches generalizing p with
  | nil => simp [mergeAll]
  | cons b branches ih =>
    have onward : (p.mergeAll (b :: branches)).history = ((p.merge b.scope).mergeAll branches).history := rfl
    rw [onward, ih, history_merge, List.flatMap_cons, List.append_assoc]

/-- Merging a branch of a branch first makes no difference. -/
theorem lookup_merge_merge (p : Context) (b c : Branch) (key : String) :
    (p.merge (b.scope.merge c.scope)).get? key = ((p.merge b.scope).merge c.scope).get? key := by
  have both : (b.scope.merge c.scope).Bound := (Forked.merge b.forked c.forked).bound
  simp only [lookup_merge both, lookup_merge b.forked.bound, lookup_merge c.forked.bound, mem_written_merge c.forked.bound]
  by_cases hc : key ∈ c.scope.written <;> simp [hc]

theorem lookup_merge_comm {b c : Branch} (h : ∀ key ∈ b.scope.written, key ∉ c.scope.written) (p : Context) (key : String) :
    ((p.merge b.scope).merge c.scope).get? key = ((p.merge c.scope).merge b.scope).get? key := by
  simp only [lookup_merge b.forked.bound, lookup_merge c.forked.bound]
  by_cases hb : key ∈ b.scope.written
  · simp [hb, h key hb]
  · simp [hb]

/-- Branches that are merged into a context one after another, whatever they were forked from and
    whatever was done in them. A variable is what the last branch left that wrote it, itself or through a
    branch merged into it, and what it was before if none did; what a branch has without having written
    it never counts. What is written grows by the writes of the branches, and their histories stand
    behind one another. Two branches that wrote nothing in common may be merged in either order, and one
    may be merged into the other first. -/
theorem the_last_merged_writer_decides (p : Context) (branches : List Branch) :
    (∀ key, (p.mergeAll branches).get? key = ((lastBranch key branches).map (·.scope.get? key)).getD (p.get? key)) ∧
    (∀ key, key ∈ (p.mergeAll branches).written ↔ key ∈ p.written ∨ ∃ b ∈ branches, key ∈ b.scope.written) ∧
    (p.mergeAll branches).history = p.history ++ branches.flatMap (·.scope.history) ∧
    (∀ i < p.history.length, (p.mergeAll branches).history[i]? = p.history[i]?) ∧
    (∀ b ∈ branches, b.scope.history = b.steps ∧ (∀ key, key ∈ b.scope.written ↔ key ∈ b.writes.keys) ∧
      (∀ key ∈ b.scope.written, ∃ value, b.scope.get? key = some value ∧ lastWrite key b.writes = some value) ∧
      ∀ key, key ∉ b.scope.written → b.scope.get? key = b.origin.get? key) ∧
    ∀ b c : Branch,
      ((∀ key ∈ b.scope.written, key ∉ c.scope.written) →
        ∀ key, (p.mergeAll [b, c]).get? key = (p.mergeAll [c, b]).get? key) ∧
      ∀ key, (p.merge (b.scope.merge c.scope)).get? key = (p.mergeAll [b, c]).get? key := by
  refine ⟨lookup_mergeAll p branches, mem_written_mergeAll p branches, history_mergeAll p branches, fun i hi => ?_,
    fun b _ => ⟨b.forked.history, fun _ => b.forked.mem_written, fun key hk => ?_, fun key hk => ?_⟩,
    fun b c => ⟨fun h => lookup_merge_comm h p, lookup_merge_merge p b c⟩⟩
  · rw [history_mergeAll, List.getElem?_append_left hi]
  · obtain ⟨value, hv⟩ := Option.isSome_iff_exists.mp (isSome_lastWrite.mpr (b.forked.mem_written.mp hk))
    exact ⟨value, by rw [b.forked.lookup, hv]; rfl, hv⟩
  · have unwritten : lastWrite key b.writes = none :=
      Option.not_isSome_iff_eq_none.mp fun hs => hk (b.forked.mem_written.mpr (isSome_lastWrite.mp hs))
    rw [b.forked.lookup, unwritten]
    rfl

/-- What a branch forked at the tide of noon leaves behind that has taken in a branch of its own. -/
def tideBranch : Branch where
  origin := { vars := [("tide", .str "high")] }
  writes := [("wind", .str "north"), ("tide", .str "low")]
  steps := [{ node := "sound" }, { node := "inner" }]
  scope :=
    let noon : Context := { vars := [("tide", .str "high")] }
    let outer := (noon.fork.set "wind" (.str "north")).push { node := "sound" }
    outer.merge ((outer.fork.set "tide" (.str "low")).push { node := "inner" })
  forked := .merge (.push _ (.set _ _ (.fork _))) (.push _ (.set _ _ (.fork _)))

/-- A branch that writes another variable and has the old tide. -/
def moonBranch : Branch where
  origin := { vars := [("tide", .str "high")] }
  writes := [("moon", .str "full")]
  steps := []
  scope := (fork { vars := [("tide", .str "high")] }).set "moon" (.str "full")
  forked := .set "moon" (.str "full") (.fork _)

/-- The tide that was written in the branch of a branch is kept, although the branch merged last has the
    old one, and the other order comes to the same. -/
theorem an_old_tide_does_not_return :
    let p : Context := { vars := [("tide", .str "ebb")], history := [{ node := "start" }] }
    (∀ key ∈ tideBranch.scope.written, key ∉ moonBranch.scope.written) ∧
      (p.mergeAll [tideBranch, moonBranch]).get? "tide" = some (.str "low") ∧
      (p.mergeAll [moonBranch, tideBranch]).get? "tide" = some (.str "low") ∧
      (p.mergeAll [tideBranch, moonBranch]).history.map (·.node) = ["start", "sound", "inner"] := by
  intro p
  have apart : ∀ key ∈ tideBranch.scope.written, key ∉ moonBranch.scope.written := by decide
  obtain ⟨values, -, history, -, -, pairs⟩ := the_last_merged_writer_decides p [tideBranch, moonBranch]
  have low : (p.mergeAll [tideBranch, moonBranch]).get? "tide" = some (.str "low") := (values "tide").trans rfl
  refine ⟨apart, low, ?_, ?_⟩
  · rw [← (pairs tideBranch moonBranch).1 apart "tide", low]
  · rw [history]
    rfl

end Context

end Capability
