/-
  Capability.Proofs.Fields — records are read whatever the order and the spelling of their fields.

  A form says how the objects of one kind are written: which keys their fields have, which other
  spelling a key may have, and how the value of a field may vary. A variant of an object lists its
  fields in any order, each under either spelling and with a value that varies accordingly, and maybe
  some more fields that the form does not know.

  A decoder of records puts the fields into the record in the order of the text. As long as no two of
  its slots touch the same part of the record, the order makes no difference, so a variant is read as
  if its fields were written in the order in which they are declared.

  (1) `Fills.fill`: what a decoder makes of the fields of an object, one after another.
  (2) `Fills.perm`: the order of the fields makes no difference.
  (3) `Writes.fills`: fields in the order of their declaration, under any spelling, make the record.
  (4) `Writes.codes`: so a decoder reads every variant of what was written.
-/

import Capability.Graph.Document
import Mathlib.Data.List.Nodup
import Mathlib.Data.List.Pairwise
import Mathlib.Data.Set.Basic
import Mathlib.Tactic.Common

namespace Capability.Json

open Decode

/-! ## Forms -/

/-- A field of an object: its key, maybe another spelling of it, and how its value may vary. -/
structure Field where
  key : String
  other : Option String := none
  varies : Json → Json → Prop := Eq

/-- The names under which a field may be written. -/
def Field.names (field : Field) : List String := field.key :: field.other.toList

/-- The form of the objects of one kind. -/
abbrev Form := List Field

/-- A field of an object is written differently: under either name and with a value that may vary. -/
def Form.Respelled (form : Form) (f g : String × Json) : Prop :=
  ∃ field ∈ form, field.key = f.1 ∧ g.1 ∈ field.names ∧ field.varies f.2 g.2

/-- An object is written differently: the fields are respelled and listed in any order, among some
    fields that the form does not know. -/
def Form.Variant (form : Form) (v w : Json) : Prop :=
  ∃ fields respelled unknown all, v = .obj fields ∧ w = .obj all ∧ all.Perm (respelled ++ unknown) ∧
    List.Forall₂ form.Respelled fields respelled ∧ ∀ f ∈ unknown, ∀ field ∈ form, f.1 ∉ field.names

/-- An array is written differently: its items are. -/
def Listed (varies : Json → Json → Prop) (v w : Json) : Prop :=
  ∃ vs ws, v = .arr vs ∧ w = .arr ws ∧ List.Forall₂ varies vs ws

variable {α β γ : Type}

/-- A decoder reads a value from whatever varies from it. -/
structure Codes (varies : Json → Json → Prop) (decoder : Decoder α) (v : Json) (a : α) : Prop where
  self : varies v v
  reads : ∀ w, varies v w → decoder (.ofJson w) = .ok a

theorem Codes.exactly {decoder : Decoder α} {v : Json} {a : α} (h : decoder (.ofJson v) = .ok a) : Codes Eq decoder v a where
  self := rfl
  reads := by
    rintro _ rfl
    exact h

theorem Codes.option {varies : Json → Json → Prop} {decoder : Decoder α} {v : Json} {a : α}
    (hnull : decoder .null ≠ .ok a) (h : Codes varies decoder v a) : Codes varies (option decoder) v (some a) where
  self := h.self
  reads w hw := by
    have read := h.reads w hw
    cases w with
    | null => exact absurd read hnull
    | _ => exact congrArg (some <$> ·) read

theorem items_ofItems {varies : Json → Json → Prop} {decoder : Decoder α} {f : α → Json} {as : List α} {ws : List Json}
    (h : ∀ a ∈ as, Codes varies decoder (f a) a) (hw : List.Forall₂ varies (as.map f) ws) :
    items decoder (Draft.ofItems ws) = .ok as := by
  induction as generalizing ws with
  | nil =>
    cases hw
    rfl
  | cons a as ih =>
    obtain ⟨w, ws, ha, hrest, rfl⟩ := List.forall₂_cons_left_iff.mp hw
    rw [Draft.ofItems, items, (h a (.head _)).reads w ha, ih (fun b hb => h b (.tail _ hb)) hrest]
    rfl

theorem Codes.list {varies : Json → Json → Prop} {decoder : Decoder α} {f : α → Json} {as : List α}
    (h : ∀ a ∈ as, Codes varies decoder (f a) a) : Codes (Listed varies) (list decoder) (.arr (as.map f)) as where
  self := by
    refine ⟨_, _, rfl, rfl, List.forall₂_same.mpr fun v hv => ?_⟩
    obtain ⟨a, ha, rfl⟩ := List.mem_map.mp hv
    exact (h a ha).self
  reads := by
    rintro w ⟨vs, ws, hv, rfl, hw⟩
    obtain rfl := Json.arr.inj hv
    rw [Draft.ofJson, Decode.list, items_ofItems h hw]
    rfl

/-! ## Fields in any order -/

mutual

theorem skipFlaw_ofJson : ∀ v : Json, (Draft.ofJson v).skipFlaw = none
  | .null | .bool _ | .int _ | .float _ | .str _ => rfl
  | .arr vs => skipItems_ofItems vs
  | .obj fields => skipFields_ofFields fields

theorem skipItems_ofItems : ∀ vs : List Json, Draft.skipItems (Draft.ofItems vs) none = none
  | [] => rfl
  | v :: vs => by rw [Draft.ofItems, Draft.skipItems, skipFlaw_ofJson v, skipItems_ofItems vs]; rfl

theorem skipFields_ofFields : ∀ fields : List (String × Json), Draft.skipFields (Draft.ofFields fields) none = none
  | [] => rfl
  | (_, v) :: fields => by
    rw [Draft.ofFields, Draft.skipFields, skipFlaw_ofJson v, skipFields_ofFields fields]
    rfl

end

/-- The fields of an object are put into a record one after another, each into a slot that no field
    was put into before. What no slot names is passed over. -/
inductive Fills (slots : List (Slot α)) : Set String → α → List (String × Json) → Set String → α → Prop
  | done {seen : Set String} {a : α} : Fills slots seen a [] seen a
  | skip {seen seen' : Set String} {a b : α} {key : String} {v : Json} {rest : List (String × Json)} :
      slots.find? (·.names.contains key) = none → Fills slots seen a rest seen' b → Fills slots seen a ((key, v) :: rest) seen' b
  | put {seen seen' : Set String} {a b c : α} {key : String} {v : Json} {slot : Slot α} {rest : List (String × Json)} :
      slots.find? (·.names.contains key) = some slot → (∀ x ∈ slot.names, x ∉ seen) → slot.put (.ofJson v) a = .ok b →
      Fills slots (seen ∪ {x | x ∈ slot.names}) b rest seen' c → Fills slots seen a ((key, v) :: rest) seen' c

section Fills

variable {slots : List (Slot α)} {seen seen' seen'' : Set String} {a b c : α} {fields more : List (String × Json)}

theorem Fills.fill (h : Fills slots seen a fields seen' b) {names : List String} (hs : ∀ x, x ∈ names ↔ x ∈ seen) :
    ∃ names', (∀ x, x ∈ names' ↔ x ∈ seen') ∧
      Decode.fill .skipped slots names a (Draft.ofFields fields) = .ok (names', b) := by
  induction h generalizing names with
  | done => exact ⟨names, hs, rfl⟩
  | @skip _ _ _ _ key v rest hnone _ ih =>
    obtain ⟨names', hs', hf⟩ := ih hs
    refine ⟨names', hs', ?_⟩
    rw [Draft.ofFields, Decode.fill, hnone, skipFlaw_ofJson]
    exact hf
  | @put seen _ _ _ _ key v slot rest hsome hfresh hput _ ih =>
    have more : ∀ x, x ∈ slot.names ++ names ↔ x ∈ seen ∪ {x | x ∈ slot.names} := by
      intro x
      rw [List.mem_append, hs x, Set.mem_union, Set.mem_ofPred_eq, or_comm]
    obtain ⟨names', hs', hf⟩ := ih more
    refine ⟨names', hs', ?_⟩
    have fresh : slot.names.any names.contains = false := by
      refine List.any_eq_false.mpr fun x hx => ?_
      rw [List.contains_iff_mem, hs x]
      exact hfresh x hx
    rw [Draft.ofFields, Decode.fill, hsome]
    simp only [fresh, hput, Bool.false_eq_true, if_false]
    exact hf

theorem Fills.append (h : Fills slots seen a fields seen' b) (hm : Fills slots seen' b more seen'' c) :
    Fills slots seen a (fields ++ more) seen'' c := by
  induction h with
  | done => exact hm
  | skip hnone _ ih => exact .skip hnone (ih hm)
  | put hsome hfresh hput _ ih => exact .put hsome hfresh hput (ih hm)

/-- Two slots have no name in common, and it makes no difference which of them is filled first. -/
structure Decode.Slot.Apart (s t : Slot α) : Prop where
  names : ∀ x ∈ s.names, x ∉ t.names
  commutes : ∀ d e a c, (∃ b, s.put d a = .ok b ∧ t.put e b = .ok c) ↔ ∃ b, t.put e a = .ok b ∧ s.put d b = .ok c

instance : Std.Symm (@Decode.Slot.Apart α) where
  symm _ _ h := ⟨fun x hx hin => h.names x hin hx, fun d e a c => (h.commutes e d a c).symm⟩

theorem put_eq_ok_iff {decoder : Decoder β} {set : β → α → α} {d : Draft} :
    (do .ok (set (← decoder d) a) : Except Problem α) = .ok b ↔ ∃ u, decoder d = .ok u ∧ set u a = b := by
  cases decoder d <;> simp [bind, Except.bind]

/-- Slots are apart when they set different parts of the record. -/
theorem Decode.Slot.apart {names names' : List String} {r r' : Bool} {decoder : Decoder β} {decoder' : Decoder γ}
    {set : β → α → α} {set' : γ → α → α} (hn : ∀ x ∈ names, x ∉ names')
    (hc : ∀ u v a, set' v (set u a) = set u (set' v a)) :
    Slot.Apart ⟨names, r, fun d a => do .ok (set (← decoder d) a)⟩ ⟨names', r', fun d a => do .ok (set' (← decoder' d) a)⟩ where
  names := hn
  commutes d e a c := by
    simp only [put_eq_ok_iff]
    constructor
    · rintro ⟨_, ⟨u, hu, rfl⟩, v, hv, rfl⟩
      exact ⟨_, ⟨v, hv, rfl⟩, u, hu, (hc u v a).symm⟩
    · rintro ⟨_, ⟨v, hv, rfl⟩, u, hu, rfl⟩
      exact ⟨_, ⟨u, hu, rfl⟩, v, hv, hc u v a⟩

theorem mem_of_find {key : String} {slot : Slot α} (h : slots.find? (·.names.contains key) = some slot) :
    slot ∈ slots ∧ key ∈ slot.names :=
  ⟨List.mem_of_find?_eq_some h, by simpa using List.find?_some h⟩

/-- The order of the fields makes no difference. -/
theorem Fills.perm (hs : slots.Pairwise Slot.Apart) (hp : fields.Perm more) (h : Fills slots seen a fields seen' b) :
    Fills slots seen a more seen' b := by
  induction hp generalizing seen a with
  | nil => exact h
  | cons _ _ ih =>
    cases h with
    | skip hnone h => exact .skip hnone (ih h)
    | put hsome hfresh hput h => exact .put hsome hfresh hput (ih h)
  | trans _ _ ih ih' => exact ih' (ih h)
  | swap f g rest =>
    cases h with
    | skip hnone h =>
      cases h with
      | skip hnone' h => exact .skip hnone' (.skip hnone h)
      | put hsome hfresh hput h => exact .put hsome hfresh hput (.skip hnone h)
    | @put _ _ _ b _ _ _ s _ hsome hfresh hput h =>
      cases h with
      | skip hnone h => exact .skip hnone (.put hsome hfresh hput h)
      | @put _ _ _ c _ _ _ t _ hsome' hfresh' hput' h =>
        obtain ⟨hs₁, hk⟩ := mem_of_find hsome
        obtain ⟨hs₂, hk'⟩ := mem_of_find hsome'
        have differ : t ≠ s := by
          rintro rfl
          exact hfresh' _ hk' (.inr hk')
        have apart : t.Apart s := hs.forall hs₂ hs₁ differ
        obtain ⟨b', hput₁, hput₂⟩ := (apart.commutes _ _ _ _).mpr ⟨b, hput, hput'⟩
        refine .put hsome' (fun x hx hin => hfresh' x hx (.inl hin)) hput₁ ?_
        refine .put hsome (fun x hx hin => ?_) hput₂ ?_
        · rcases hin with hin | hin
          · exact hfresh x hx hin
          · exact apart.names x hin hx
        · rwa [Set.union_right_comm]

/-- Among slots that are apart, a name finds the slot that it belongs to. -/
theorem find_eq_some (hs : slots.Pairwise Slot.Apart) {slot : Slot α} (hin : slot ∈ slots) {key : String}
    (hk : key ∈ slot.names) : slots.find? (·.names.contains key) = some slot := by
  obtain ⟨found, hf⟩ : ∃ found, slots.find? (·.names.contains key) = some found :=
    Option.isSome_iff_exists.mp (List.find?_isSome.mpr ⟨slot, hin, List.contains_iff_mem.mpr hk⟩)
  obtain ⟨hfin, hfk⟩ := mem_of_find hf
  by_cases same : found = slot
  · rw [hf, same]
  · exact absurd hk ((hs.forall hfin hin same).names key hfk)

theorem Fills.unknown (h : ∀ f ∈ fields, ∀ slot ∈ slots, f.1 ∉ slot.names) (seen : Set String) (a : α) :
    Fills slots seen a fields seen a := by
  induction fields with
  | nil => exact .done
  | cons f fields ih =>
    refine .skip (List.find?_eq_none.mpr fun slot hslot => ?_) (ih fun g hg => h g (.tail _ hg))
    rw [List.contains_iff_mem]
    exact h f (.head _) slot hslot

end Fills

/-! ## Fields in the order of their declaration -/

/-- The fields of an object fill a record, in the order in which the slots are declared: each slot is
    given the next field, which is written in its form, or it is left out. -/
inductive Form.Writes : Form → List (Slot α) → List (String × Json) → α → α → Prop
  | done {a : α} : Writes [] [] [] a a
  | field {field : Field} {slot : Slot α} {v : Json} {form : Form} {slots : List (Slot α)}
      {fields : List (String × Json)} {a b c : α} :
      slot.names = field.names → Codes field.varies (fun d => slot.put d a) v b → Writes form slots fields b c →
      Writes (field :: form) (slot :: slots) ((field.key, v) :: fields) a c
  | left {field : Field} {slot : Slot α} {form : Form} {slots : List (Slot α)} {fields : List (String × Json)} {a b : α} :
      slot.names = field.names → slot.required = false → Writes form slots fields a b →
      Writes (field :: form) (slot :: slots) fields a b

namespace Form

section Slots

variable {names : List String} {required : Bool} {decoder : Decoder β} {set : β → α → α} {field : Field} {form : Form}
  {slots : List (Slot α)} {fields : List (String × Json)} {a b : α}

theorem Writes.given {v : Json} {u : β} (hn : names = field.names) (h : Codes field.varies decoder v u)
    (hw : form.Writes slots fields (set u a) b) :
    Writes (field :: form) (⟨names, required, fun d a => do .ok (set (← decoder d) a)⟩ :: slots)
      ((field.key, v) :: fields) a b :=
  .field hn ⟨h.self, fun w hv => put_eq_ok_iff.mpr ⟨u, h.reads w hv, rfl⟩⟩ hw

/-- An absent option is not written, and the blank record has none. -/
theorem Writes.option {o : Option γ} {f : γ → Json} {decoder : Decoder γ} {set : Option γ → α → α} (hn : names = field.names)
    (hblank : set none a = a) (h : ∀ u ∈ o, Codes field.varies (Decode.option decoder) (f u) (some u))
    (hw : form.Writes slots fields (set o a) b) :
    Writes (field :: form) (optional names (Decode.option decoder) set :: slots)
      (field? field.key (o.map f) ++ fields) a b := by
  cases o with
  | none =>
    rw [hblank] at hw
    exact .left hn rfl hw
  | some u => exact .given hn (h u rfl) hw

/-- An empty list is not written, and the blank record has none. -/
theorem Writes.list {us : List γ} {f : γ → Json} {decoder : Decoder γ} {set : List γ → α → α} (hn : names = field.names)
    (hblank : set [] a = a) (h : Codes field.varies (Decode.list decoder) (.arr (us.map f)) us)
    (hw : form.Writes slots fields (set us a) b) :
    Writes (field :: form) (optional names (Decode.list decoder) set :: slots)
      (listField field.key (us.map f) ++ fields) a b := by
  cases us with
  | nil =>
    rw [hblank] at hw
    exact .left hn rfl hw
  | cons u us => exact .given hn h hw

end Slots

variable {form : Form} {slots all : List (Slot α)} {fields written : List (String × Json)} {a b : α}

theorem Writes.names (h : form.Writes slots fields a b) : slots.map (·.names) = form.map Field.names := by
  induction h with
  | done => rfl
  | field hn _ _ ih | left hn _ _ ih => rw [List.map_cons, List.map_cons, hn, ih]

theorem Writes.respelled (h : form.Writes slots fields a b) : List.Forall₂ form.Respelled fields fields := by
  induction h with
  | done => exact .nil
  | field _ hc _ ih =>
    refine .cons ⟨_, .head _, rfl, .head _, hc.self⟩ (ih.imp fun f g => ?_)
    rintro ⟨field, hf, h⟩
    exact ⟨field, .tail _ hf, h⟩
  | left _ _ _ ih =>
    refine ih.imp fun f g => ?_
    rintro ⟨field, hf, h⟩
    exact ⟨field, .tail _ hf, h⟩

/-- Fields that are respelled fill the record like those that were written, and fill all slots that
    must be given. -/
theorem Writes.fills {whole : Form} (h : form.Writes slots fields a b) (hall : all.Pairwise Slot.Apart)
    (hslots : slots.Sublist all) (hform : form.Sublist whole) (hkeys : (whole.map Field.key).Nodup)
    (hr : List.Forall₂ whole.Respelled fields written) {seen : Set String}
    (hseen : ∀ slot ∈ slots, ∀ x ∈ slot.names, x ∉ seen) :
    ∃ seen', Fills all seen a written seen' b ∧ seen ⊆ seen' ∧
      ∀ slot ∈ slots, slot.required → ∃ x ∈ slot.names, x ∈ seen' := by
  induction h generalizing written seen with
  | done =>
    cases hr
    exact ⟨seen, .done, subset_rfl, nofun⟩
  | @field field slot v form slots fields a b c hn hc _ ih =>
    obtain ⟨⟨key, w⟩, rest, ⟨field', hf', hkey, hname, hv⟩, hrest, rfl⟩ := List.forall₂_cons_left_iff.mp hr
    obtain rfl : field' = field := List.inj_on_of_nodup_map hkeys hf' (hform.subset (.head _)) hkey
    have named : key ∈ slot.names := hn ▸ hname
    have apart := (List.pairwise_cons.mp (hall.sublist hslots)).1
    have fresh : ∀ other ∈ slots, ∀ x ∈ other.names, x ∉ seen ∪ {x | x ∈ slot.names} := by
      rintro other hother x hx (hin | hin)
      · exact hseen other (.tail _ hother) x hx hin
      · exact (apart other hother).names x hin hx
    obtain ⟨seen', hfills, hsub, hreq⟩ := ih (List.sublist_of_cons_sublist hslots) (List.sublist_of_cons_sublist hform)
      hrest fresh
    refine ⟨seen', ?_, Set.subset_union_left.trans hsub, List.forall_mem_cons.mpr ⟨fun _ => ?_, hreq⟩⟩
    · exact .put (find_eq_some hall (hslots.subset (.head _)) named) (hseen slot (.head _)) (hc.reads w hv) hfills
    · exact ⟨key, named, hsub (.inr named)⟩
  | left _ hopt _ ih =>
    obtain ⟨seen', hfills, hsub, hreq⟩ := ih (List.sublist_of_cons_sublist hslots) (List.sublist_of_cons_sublist hform)
      hr fun slot hslot => hseen slot (.tail _ hslot)
    refine ⟨seen', hfills, hsub, List.forall_mem_cons.mpr ⟨fun h => ?_, hreq⟩⟩
    rw [hopt] at h
    cases h

/-- A decoder whose slots are apart reads every variant of what was written. -/
theorem Writes.codes (h : form.Writes slots fields a b) (hs : slots.Pairwise Slot.Apart)
    (hkeys : (form.map Field.key).Nodup) : Codes form.Variant (record slots a) (.obj fields) b where
  self := ⟨fields, fields, [], fields, rfl, rfl, by rw [List.append_nil], h.respelled, nofun⟩
  reads := by
    rintro w ⟨fields', respelled, unknown, all, hv, rfl, hp, hr, hu⟩
    obtain rfl := Json.obj.inj hv
    obtain ⟨seen, hfills, -, hreq⟩ := h.fills hs (List.Sublist.refl _) (List.Sublist.refl _) hkeys hr
      fun _ _ x _ => Set.notMem_empty x
    have passed : ∀ f ∈ unknown, ∀ slot ∈ slots, f.1 ∉ slot.names := by
      intro f hf slot hslot
      have named : slot.names ∈ form.map Field.names := h.names ▸ List.mem_map_of_mem hslot
      obtain ⟨field, hfield, hn⟩ := List.mem_map.mp named
      rw [← hn]
      exact hu f hf field hfield
    have filled : Fills slots ∅ a all seen b := (hfills.append (.unknown passed seen b)).perm hs hp.symm
    have unfilled : ∀ x, x ∈ ([] : List String) ↔ x ∈ (∅ : Set String) := fun x => by simp
    obtain ⟨names, hn, hfill⟩ := filled.fill unfilled
    have given : (slots.all fun slot => !slot.required || slot.names.any names.contains) = true := by
      refine List.all_eq_true.mpr fun slot hslot => ?_
      cases hr : slot.required with
      | false => rfl
      | true =>
        obtain ⟨x, hx, hin⟩ := hreq slot hslot hr
        exact List.any_eq_true.mpr ⟨x, hx, List.contains_iff_mem.mpr ((hn x).mpr hin)⟩
    show recordWith .skipped slots a (.obj (Draft.ofFields all) none) = .ok b
    rw [recordWith, hfill]
    simp only [Flaw.report, bind, Except.bind, given, if_true]

end Form

end Capability.Json
