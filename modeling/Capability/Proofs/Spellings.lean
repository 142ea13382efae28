/-
  Capability.Proofs.Spellings — documents are read back as they were written.

  A document is written with the keys of its fields in one spelling, without the options that are
  absent and without the lists of a node that are empty. It is read in either spelling, with the fields
  of every object in any order and among fields that are not known, and what is left out gets the value
  that is not written.

  The numbers of a document are those of 64 bits that it can be written with. The texts, integers and
  doubles of a value are taken for what they are: how they are spelled out in a text is not looked at.

  (1) `Document.Variant`: the ways in which a document may be written.
  (2) `Node.codes`, `Edge.codes`, `Metadata.codes`: the parts of a document are read back.
  (3) `documents_survive_the_codec`: so are documents, whichever variant they are read from.
-/

import Mathlib
import Capability.Proofs.Fields
import Capability.Graph.Basic

namespace Capability

open Json Json.Decode

/-! ## Forms -/

def BranchCondition.form : Form := [{ key := "name" }, { key := "expression" }, { key := "target" }]

def Implementation.form : Form :=
  [{ key := "id" }, { key := "skillId", other := some "skill_id" }, { key := "priority" }, { key := "conditions" },
    { key := "fallbacks" }]

def Node.form : Form :=
  [{ key := "id" }, { key := "type" }, { key := "skillId", other := some "skill_id" },
    { key := "executionMode", other := some "execution_mode" }, { key := "maxIterations", other := some "max_iterations" },
    { key := "timeout" }, { key := "conditions", varies := Listed BranchCondition.form.Variant }, { key := "prompt" },
    { key := "optionsFrom", other := some "options_from" }, { key := "options" }, { key := "default" }, { key := "outputs" },
    { key := "implementations", varies := Listed Implementation.form.Variant }]

def Edge.form : Form :=
  [{ key := "from" }, { key := "to" }, { key := "type" }, { key := "weight" }, { key := "condition" },
    { key := "maxCount", other := some "max_count" }, { key := "exitCondition", other := some "exit_condition" },
    { key := "trigger" }]

def Metadata.form : Form :=
  [{ key := "estimatedComplexity", other := some "estimated_complexity" },
    { key := "typicalIterations", other := some "typical_iterations" },
    { key := "humanInteractions", other := some "human_interactions" },
    { key := "parallelBranches", other := some "parallel_branches" }]

def Document.form : Form :=
  [{ key := "id" }, { key := "version" }, { key := "name" }, { key := "description" },
    { key := "nodes", varies := Listed Node.form.Variant }, { key := "edges", varies := Listed Edge.form.Variant },
    { key := "metadata", varies := Metadata.form.Variant }, { key := "fallback_strategy", other := some "fallbackStrategy" },
    { key := "max_retries", other := some "maxRetries" }, { key := "retry_delay", other := some "retryDelay" }]

theorem Json.Form.respelled {form : Form} {f g : String × Json} (k : Nat) (hk : k < form.length) (hkey : form[k].key = f.1)
    (hn : g.1 ∈ form[k].names) (hv : form[k].varies f.2 g.2) : form.Respelled f g :=
  ⟨form[k], List.getElem_mem hk, hkey, hn, hv⟩

/-- An object with its fields backwards, those that are not known in front. -/
theorem Json.Form.backwards {form : Form} {fields respelled : List (String × Json)}
    (h : List.Forall₂ form.Respelled fields respelled) (unknown : List (String × Json))
    (hu : ∀ f ∈ unknown, ∀ field ∈ form, f.1 ∉ field.names) :
    form.Variant (.obj fields) (.obj (respelled ++ unknown).reverse) :=
  ⟨fields, respelled, unknown, _, rfl, rfl, List.reverse_perm _, h, hu⟩

/-! ## Numbers -/

/-- A natural number of 64 bits. -/
def Small (n : Nat) : Prop := n < 2 ^ 64

structure Implementation.Fits (i : Implementation) : Prop where
  priority : -(2 ^ 63) ≤ i.priority ∧ i.priority < 2 ^ 63

structure Node.Fits (n : Node) : Prop where
  maxIterations : ∀ k ∈ n.maxIterations, Small k
  implementations : ∀ i ∈ n.implementations, i.Fits

structure Edge.Fits (e : Edge) : Prop where
  maxCount : ∀ k ∈ e.maxCount, Small k

structure Metadata.Fits (m : Metadata) : Prop where
  typicalIterations : ∀ k ∈ m.typicalIterations, Small k
  humanInteractions : ∀ k ∈ m.humanInteractions, Small k
  parallelBranches : ∀ k ∈ m.parallelBranches, Small k

/-- The numbers of a document have 64 bits. -/
structure Document.Fits (d : Document) : Prop where
  nodes : ∀ n ∈ d.nodes, n.Fits
  edges : ∀ e ∈ d.edges, e.Fits
  metadata : ∀ m ∈ d.metadata, m.Fits
  maxRetries : Small d.maxRetries

/-! ## Values -/

theorem codes_text (s : String) : Codes Eq text (.str s) s := .exactly rfl

theorem codes_text? (s : String) : Codes Eq (option text) (.str s) (some s) := .option nofun (codes_text s)

theorem codes_float? (x : Float) : Codes Eq (option float) (.float x) (some x) := .option nofun (.exactly rfl)

theorem codes_texts (texts : List String) : Codes Eq (list text) (.arr (texts.map .str)) texts := by
  refine .exactly ?_
  have listed := (Codes.list fun s (_ : s ∈ texts) => codes_text s).reads _ ⟨_, _, rfl, rfl, List.forall₂_refl _⟩
  exact listed

theorem codes_nat {n : Nat} (h : Small n) : Codes Eq nat (ofNat n) n := by
  refine .exactly ?_
  have least : (0 : Int) ≤ n := Int.natCast_nonneg n
  have greatest : (n : Int) ≤ 2 ^ 64 - 1 := by
    unfold Small at h
    omega
  show (·.toNat) <$> intBetween 0 (2 ^ 64 - 1) (.int n) = .ok n
  rw [intBetween, if_pos ⟨least, greatest⟩]
  rfl

theorem codes_nat? {n : Nat} (h : Small n) : Codes Eq (option nat) (ofNat n) (some n) := .option nofun (codes_nat h)

theorem codes_int {n : Int} (h : -(2 ^ 63) ≤ n ∧ n < 2 ^ 63) : Codes Eq int (.int n) n := by
  refine .exactly ?_
  show intBetween (-(2 ^ 63)) (2 ^ 63 - 1) (.int n) = .ok n
  rw [intBetween, if_pos ⟨h.1, by omega⟩]

theorem codes_constant {α : Type} {named : String → Option α} {name : String} {a : α} (h : named name = some a) :
    Codes Eq (constant named) (.str name) a := by
  refine .exactly ?_
  simp only [constant, variant, Draft.ofJson, h]

theorem NodeKind.ofName?_name (k : NodeKind) : ofName? k.name = some k := by
  cases k <;> rfl

theorem ExecutionMode.ofName?_name (m : ExecutionMode) : ofName? m.name = some m := by
  cases m <;> rfl

theorem EdgeKind.ofName?_name (k : EdgeKind) : ofName? k.name = some k := by
  cases k <;> rfl

theorem Strategy.ofName?_name (s : Strategy) : ofName? s.name = some s := by
  cases s <;> rfl

/-! ## Records -/

theorem BranchCondition.slots_apart : slots.Pairwise Slot.Apart := by
  simp only [slots, List.pairwise_cons, List.forall_mem_cons]
  repeat' apply And.intro
  all_goals first | exact Slot.apart (by decide) fun _ _ _ => rfl | exact List.forall_mem_nil _ | exact .nil

theorem Implementation.slots_apart : slots.Pairwise Slot.Apart := by
  simp only [slots, List.pairwise_cons, List.forall_mem_cons]
  repeat' apply And.intro
  all_goals first | exact Slot.apart (by decide) fun _ _ _ => rfl | exact List.forall_mem_nil _ | exact .nil

theorem Node.slots_apart : slots.Pairwise Slot.Apart := by
  simp only [slots, List.pairwise_cons, List.forall_mem_cons]
  repeat' apply And.intro
  all_goals first | exact Slot.apart (by decide) fun _ _ _ => rfl | exact List.forall_mem_nil _ | exact .nil

theorem Edge.slots_apart : slots.Pairwise Slot.Apart := by
  simp only [slots, List.pairwise_cons, List.forall_mem_cons]
  repeat' apply And.intro
  all_goals first | exact Slot.apart (by decide) fun _ _ _ => rfl | exact List.forall_mem_nil _ | exact .nil

theorem Metadata.slots_apart : slots.Pairwise Slot.Apart := by
  simp only [slots, List.pairwise_cons, List.forall_mem_cons]
  repeat' apply And.intro
  all_goals first | exact Slot.apart (by decide) fun _ _ _ => rfl | exact List.forall_mem_nil _ | exact .nil

theorem Document.slots_apart : slots.Pairwise Slot.Apart := by
  simp only [slots, List.pairwise_cons, List.forall_mem_cons]
  repeat' apply And.intro
  all_goals first | exact Slot.apart (by decide) fun _ _ _ => rfl | exact List.forall_mem_nil _ | exact .nil

theorem BranchCondition.codes (c : BranchCondition) : Codes form.Variant decoder c.toJson c := by
  have writes : form.Writes slots
      [("name", .str c.name), ("expression", .str c.expression), ("target", .str c.target)] ⟨"", "", ""⟩ c :=
    .given rfl (codes_text _) <| .given rfl (codes_text _) <| .given rfl (codes_text _) .done
  exact writes.codes slots_apart (by decide)

theorem Implementation.codes {i : Implementation} (h : i.Fits) : Codes form.Variant decoder i.toJson i := by
  refine Form.Writes.codes ?_ slots_apart (by decide)
  exact .given rfl (codes_text _) <| .given rfl (codes_text _) <| .given rfl (codes_int h.priority) <|
    .given rfl (codes_texts _) <| .given rfl (codes_texts _) .done

theorem Node.codes {n : Node} (h : n.Fits) : Codes form.Variant decoder n.toJson n := by
  refine Form.Writes.codes ?_ slots_apart (by decide)
  rw [← List.append_nil (listField "implementations" _)]
  simp only [List.append_assoc, List.cons_append, List.nil_append]
  refine .given rfl (codes_text _) ?_
  refine .given rfl (codes_constant (NodeKind.ofName?_name _)) ?_
  refine .option rfl rfl (fun _ _ => codes_text? _) ?_
  refine .given rfl (codes_constant (ExecutionMode.ofName?_name _)) ?_
  refine .option rfl rfl (fun k hk => codes_nat? (h.maxIterations k hk)) ?_
  refine .option rfl rfl (fun _ _ => codes_float? _) ?_
  refine .list rfl rfl (.list fun c _ => c.codes) ?_
  refine .option rfl rfl (fun _ _ => codes_text? _) ?_
  refine .option rfl rfl (fun _ _ => codes_text? _) ?_
  refine .list rfl rfl (codes_texts _) ?_
  refine .option rfl rfl (fun _ _ => codes_text? _) ?_
  refine .list rfl rfl (codes_texts _) ?_
  exact .list rfl rfl (.list fun i hi => Implementation.codes (h.implementations i hi)) .done

theorem Edge.codes {e : Edge} (h : e.Fits) : Codes form.Variant decoder e.toJson e := by
  refine Form.Writes.codes ?_ slots_apart (by decide)
  rw [← List.append_nil (field? "trigger" _)]
  simp only [List.append_assoc, List.cons_append, List.nil_append]
  refine .given rfl (codes_text _) ?_
  refine .given rfl (codes_text _) ?_
  refine .given rfl (codes_constant (EdgeKind.ofName?_name _)) ?_
  refine .option rfl rfl (fun _ _ => codes_float? _) ?_
  refine .option rfl rfl (fun _ _ => codes_text? _) ?_
  refine .option rfl rfl (fun k hk => codes_nat? (h.maxCount k hk)) ?_
  refine .option rfl rfl (fun _ _ => codes_text? _) ?_
  exact .option rfl rfl (fun _ _ => codes_text? _) .done

theorem Metadata.codes {m : Metadata} (h : m.Fits) : Codes form.Variant decoder m.toJson m := by
  refine Form.Writes.codes ?_ slots_apart (by decide)
  rw [← List.append_nil (field? "parallelBranches" _)]
  simp only [List.append_assoc]
  refine .option rfl rfl (fun _ _ => codes_text? _) ?_
  refine .option rfl rfl (fun k hk => codes_nat? (h.typicalIterations k hk)) ?_
  refine .option rfl rfl (fun k hk => codes_nat? (h.humanInteractions k hk)) ?_
  exact .option rfl rfl (fun k hk => codes_nat? (h.parallelBranches k hk)) .done

theorem Document.codes {d : Document} (h : d.Fits) : Codes form.Variant decoder d.toJson d := by
  refine Form.Writes.codes ?_ slots_apart (by decide)
  rw [← List.append_nil (field? "retry_delay" _)]
  simp only [List.append_assoc, List.cons_append, List.nil_append]
  refine .given rfl (codes_text _) ?_
  refine .given rfl (codes_text _) ?_
  refine .given rfl (codes_text _) ?_
  refine .given rfl (codes_text _) ?_
  refine .given rfl (.list fun n hn => Node.codes (h.nodes n hn)) ?_
  refine .given rfl (.list fun e he => Edge.codes (h.edges e he)) ?_
  refine .option rfl rfl (fun m hm => .option nofun (Metadata.codes (h.metadata m hm))) ?_
  refine .given rfl (codes_constant (Strategy.ofName?_name _)) ?_
  refine .given rfl (codes_nat h.maxRetries) ?_
  exact .option rfl rfl (fun _ _ => codes_float? _) .done

/-- A document whose numbers have 64 bits is read back from the value it is written as, and from every
    variant of it: with the fields of each object in any order, each under either of its names, among
    any that are not known. A text from which such a value is read gives the graph of the document. -/
theorem documents_survive_the_codec (d : Document) (h : d.Fits) :
    Document.decoder (.ofJson d.toJson) = .ok d ∧
    ∀ v, Document.form.Variant d.toJson v → Document.decoder (.ofJson v) = .ok d ∧
      ∀ text, readPage text = ⟨.ofJson v, none⟩ → Graph.parse text = .ok (.ofDocument d) := by
  have codes := Document.codes h
  refine ⟨codes.reads _ codes.self, fun v hv => ⟨codes.reads v hv, fun text ht => ?_⟩⟩
  rw [Graph.parse, ht]
  show Graph.ofDocument <$> (do
    let a ← Document.decoder (.ofJson v)
    Flaw.report none
    .ok a) = .ok (.ofDocument d)
  rw [codes.reads v hv]
  rfl

/-- What needs a raft where the river is not dry. -/
def dry : BranchCondition := { expression := "dry", target := "end" }

def raft : Implementation := { id := "raft", skillId := "row" }

def ford : Node := { Node.skill "ford" "wade" with conditions := [dry], implementations := [raft] }

def bank : Edge := { source := "ford", target := "end", maxCount := some 2 }

def errand : Document :=
  { nodes := [ford], edges := [bank], metadata := some { typicalIterations := some 1 }, strategy := .skip, maxRetries := 0 }

/-! The same in the other spelling, among fields that are not known. Those of the objects stand
backwards, but for the node. -/

def dryRespelled : Json := .obj [("target", .str "end"), ("expression", .str "dry"), ("name", .str "")]

def raftRespelled : Json :=
  .obj [("own", .bool true), ("fallbacks", .arr []), ("conditions", .arr []), ("priority", .int 0), ("skill_id", .str "row"),
    ("id", .str "raft")]

def fordRespelled : Json :=
  .obj [("id", .str "ford"), ("type", .str "skill"), ("skill_id", .str "wade"), ("execution_mode", .str "single"),
    ("conditions", .arr [dryRespelled]), ("implementations", .arr [raftRespelled])]

def bankRespelled : Json :=
  .obj [("max_count", .int 2), ("type", .str "sequence"), ("to", .str "end"), ("from", .str "ford")]

def errandRespelled : Json :=
  .obj [("note", .null), ("maxRetries", .int 0), ("fallbackStrategy", .str "skip"),
    ("metadata", .obj [("typical_iterations", .int 1)]), ("edges", .arr [bankRespelled]), ("nodes", .arr [fordRespelled]),
    ("description", .str ""), ("name", .str ""), ("version", .str "1.0"), ("id", .str "")]

/-- The text of the other spelling. -/
def errandText : String :=
  "\x7b\"note\": null, \"maxRetries\": 0, \"fallbackStrategy\": \"skip\", \"metadata\": \x7b\"typical_iterations\": 1\x7d,
    \"edges\": [\x7b\"max_count\": 2, \"type\": \"sequence\", \"to\": \"end\", \"from\": \"ford\"\x7d],
    \"nodes\": [\x7b\"id\": \"ford\", \"type\": \"skill\", \"skill_id\": \"wade\", \"execution_mode\": \"single\",
      \"conditions\": [\x7b\"target\": \"end\", \"expression\": \"dry\", \"name\": \"\"\x7d],
      \"implementations\": [\x7b\"own\": true, \"fallbacks\": [], \"conditions\": [], \"priority\": 0, \"skill_id\": \"row\",
        \"id\": \"raft\"\x7d]\x7d],
    \"description\": \"\", \"name\": \"\", \"version\": \"1.0\", \"id\": \"\"\x7d"

set_option maxRecDepth 4000 in
theorem readPage_errandText : readPage errandText = ⟨.ofJson errandRespelled, none⟩ := by
  -- A literal is made of its characters, so its bytes are not decoded to get them.
  have chars : errandText.toList = _ := String.toList_ofList
  rw [readPage, chars]
  rfl

theorem dry_variant : BranchCondition.form.Variant dry.toJson dryRespelled := by
  have fields : List.Forall₂ BranchCondition.form.Respelled
      [("name", .str ""), ("expression", .str "dry"), ("target", .str "end")]
      [("name", .str ""), ("expression", .str "dry"), ("target", .str "end")] :=
    .cons (Form.respelled 0 (by decide) rfl (.head _) rfl) <|
    .cons (Form.respelled 1 (by decide) rfl (.head _) rfl) <|
    .cons (Form.respelled 2 (by decide) rfl (.head _) rfl) .nil
  exact Form.backwards fields [] (by decide)

theorem raft_variant : Implementation.form.Variant raft.toJson raftRespelled := by
  have fields : List.Forall₂ Implementation.form.Respelled
      [("id", .str "raft"), ("skillId", .str "row"), ("priority", .int 0), ("conditions", .arr []), ("fallbacks", .arr [])]
      [("id", .str "raft"), ("skill_id", .str "row"), ("priority", .int 0), ("conditions", .arr []), ("fallbacks", .arr [])] :=
    .cons (Form.respelled 0 (by decide) rfl (.head _) rfl) <|
    .cons (Form.respelled 1 (by decide) rfl (.tail _ (.head _)) rfl) <|
    .cons (Form.respelled 2 (by decide) rfl (.head _) rfl) <|
    .cons (Form.respelled 3 (by decide) rfl (.head _) rfl) <|
    .cons (Form.respelled 4 (by decide) rfl (.head _) rfl) .nil
  exact Form.backwards fields [("own", .bool true)] (by decide)

theorem ford_variant : Node.form.Variant ford.toJson fordRespelled := by
  have fields : List.Forall₂ Node.form.Respelled
      [("id", .str "ford"), ("type", .str "skill"), ("skillId", .str "wade"), ("executionMode", .str "single"),
        ("conditions", .arr [dry.toJson]), ("implementations", .arr [raft.toJson])]
      [("id", .str "ford"), ("type", .str "skill"), ("skill_id", .str "wade"), ("execution_mode", .str "single"),
        ("conditions", .arr [dryRespelled]), ("implementations", .arr [raftRespelled])] :=
    .cons (Form.respelled 0 (by decide) rfl (.head _) rfl) <|
    .cons (Form.respelled 1 (by decide) rfl (.head _) rfl) <|
    .cons (Form.respelled 2 (by decide) rfl (.tail _ (.head _)) rfl) <|
    .cons (Form.respelled 3 (by decide) rfl (.tail _ (.head _)) rfl) <|
    .cons (Form.respelled 6 (by decide) rfl (.head _) ⟨_, _, rfl, rfl, .cons dry_variant .nil⟩) <|
    .cons (Form.respelled 12 (by decide) rfl (.head _) ⟨_, _, rfl, rfl, .cons raft_variant .nil⟩) .nil
  exact ⟨_, _, [], _, rfl, rfl, .refl _, fields, by decide⟩

theorem bank_variant : Edge.form.Variant bank.toJson bankRespelled := by
  have fields : List.Forall₂ Edge.form.Respelled
      [("from", .str "ford"), ("to", .str "end"), ("type", .str "sequence"), ("maxCount", .int 2)]
      [("from", .str "ford"), ("to", .str "end"), ("type", .str "sequence"), ("max_count", .int 2)] :=
    .cons (Form.respelled 0 (by decide) rfl (.head _) rfl) <|
    .cons (Form.respelled 1 (by decide) rfl (.head _) rfl) <|
    .cons (Form.respelled 2 (by decide) rfl (.head _) rfl) <|
    .cons (Form.respelled 5 (by decide) rfl (.tail _ (.head _)) rfl) .nil
  exact Form.backwards fields [] (by decide)

theorem errand_variant : Document.form.Variant errand.toJson errandRespelled := by
  have metadata : Metadata.form.Variant (.obj [("typicalIterations", .int 1)]) (.obj [("typical_iterations", .int 1)]) :=
    ⟨_, [("typical_iterations", .int 1)], [], _, rfl, rfl, .refl _,
      .cons (Form.respelled 1 (by decide) rfl (.tail _ (.head _)) rfl) .nil, by decide⟩
  have fields : List.Forall₂ Document.form.Respelled
      [("id", .str ""), ("version", .str "1.0"), ("name", .str ""), ("description", .str ""), ("nodes", .arr [ford.toJson]),
        ("edges", .arr [bank.toJson]), ("metadata", .obj [("typicalIterations", .int 1)]), ("fallback_strategy", .str "skip"),
        ("max_retries", .int 0)]
      [("id", .str ""), ("version", .str "1.0"), ("name", .str ""), ("description", .str ""), ("nodes", .arr [fordRespelled]),
        ("edges", .arr [bankRespelled]), ("metadata", .obj [("typical_iterations", .int 1)]), ("fallbackStrategy", .str "skip"),
        ("maxRetries", .int 0)] :=
    .cons (Form.respelled 0 (by decide) rfl (.head _) rfl) <|
    .cons (Form.respelled 1 (by decide) rfl (.head _) rfl) <|
    .cons (Form.respelled 2 (by decide) rfl (.head _) rfl) <|
    .cons (Form.respelled 3 (by decide) rfl (.head _) rfl) <|
    .cons (Form.respelled 4 (by decide) rfl (.head _) ⟨_, _, rfl, rfl, .cons ford_variant .nil⟩) <|
    .cons (Form.respelled 5 (by decide) rfl (.head _) ⟨_, _, rfl, rfl, .cons bank_variant .nil⟩) <|
    .cons (Form.respelled 6 (by decide) rfl (.head _) metadata) <|
    .cons (Form.respelled 7 (by decide) rfl (.tail _ (.head _)) rfl) <|
    .cons (Form.respelled 8 (by decide) rfl (.tail _ (.head _)) rfl) .nil
  exact Form.backwards fields [("note", .null)] (by decide)

theorem errand_fits : errand.Fits where
  nodes := List.forall_mem_singleton.mpr ⟨nofun, List.forall_mem_singleton.mpr ⟨by decide⟩⟩
  edges := List.forall_mem_singleton.mpr ⟨by rintro k ⟨⟩; unfold Small; decide⟩
  metadata := by
    rintro m ⟨⟩
    exact ⟨by rintro k ⟨⟩; unfold Small; decide, nofun, nofun⟩
  maxRetries := Nat.two_pow_pos 64

/-- The errand is read from the other spelling and from its text. -/
theorem a_respelled_errand_is_read : errand.Fits ∧ Document.form.Variant errand.toJson errandRespelled ∧
    readPage errandText = ⟨.ofJson errandRespelled, none⟩ ∧
    Document.decoder (.ofJson errandRespelled) = .ok errand ∧ Graph.parse errandText = .ok (.ofDocument errand) := by
  obtain ⟨-, reads⟩ := documents_survive_the_codec errand errand_fits
  obtain ⟨read, parsed⟩ := reads errandRespelled errand_variant
  exact ⟨errand_fits, errand_variant, readPage_errandText, read, parsed errandText readPage_errandText⟩

end Capability
