/-
  Capability.Keyed — finite maps from text to values, kept as a list of pairs in the
  order of their keys (by code point).

  (1) `lookup_insert`: after an insertion the key holds the new value and every other
      key what it held before.
  (2) `keys_insert`: an insertion adds its key and no other.
-/

namespace Capability

/-- Values under textual keys. Operations keep the keys increasing. -/
abbrev Keyed (α : Type) := List (String × α)

namespace Keyed

variable {α : Type}

/-- The value under a key. -/
def lookup (key : String) : Keyed α → Option α
  | [] => none
  | (k, a) :: rest => if k = key then some a else lookup key rest

/-- The map with the key holding the value; a value it held before is replaced. -/
def insert (key : String) (value : α) : Keyed α → Keyed α
  | [] => [(key, value)]
  | (k, a) :: rest =>
    if k = key then (key, value) :: rest
    else if key < k then (key, value) :: (k, a) :: rest
    else (k, a) :: insert key value rest

/-- Pairs inserted one after another into the empty map, so the last of a key wins. -/
def ofPairs (pairs : List (String × α)) : Keyed α :=
  pairs.foldl (fun m p => m.insert p.1 p.2) []

def keys (m : Keyed α) : List String := m.map (·.1)

def contains (key : String) (m : Keyed α) : Bool := (m.lookup key).isSome

@[simp] theorem lookup_nil (key : String) : lookup key ([] : Keyed α) = none := rfl

theorem lookup_insert (key key' : String) (value : α) (m : Keyed α) :
    (m.insert key value).lookup key' = if key' = key then some value else m.lookup key' := by
  induction m with
  | nil => simp [insert, lookup, eq_comm]
  | cons p rest ih =>
    obtain ⟨k, a⟩ := p
    simp only [insert]
    split
    · subst k; by_cases h : key' = key <;> simp [lookup, h, Ne.symm]
    · split
      · by_cases h : key' = key <;> simp [lookup, h, Ne.symm]
      · simp only [lookup, ih]
        by_cases h : k = key' <;> by_cases h' : key' = key <;> simp_all

@[simp] theorem lookup_insert_same (key : String) (value : α) (m : Keyed α) :
    (m.insert key value).lookup key = some value := by simp [lookup_insert]

theorem lookup_insert_ne {key key' : String} (value : α) (m : Keyed α) (h : key' ≠ key) :
    (m.insert key value).lookup key' = m.lookup key' := by simp [lookup_insert, h]

theorem mem_keys_iff {key : String} {m : Keyed α} : key ∈ m.keys ↔ (m.lookup key).isSome := by
  induction m with
  | nil => simp [keys, lookup]
  | cons p rest ih =>
    obtain ⟨k, a⟩ := p
    simp only [keys, List.map_cons, List.mem_cons, lookup] at *
    by_cases h : k = key
    · simp [h]
    · simp [h, Ne.symm h, ih]

theorem keys_insert {key key' : String} {value : α} {m : Keyed α} :
    key' ∈ (m.insert key value).keys ↔ key' = key ∨ key' ∈ m.keys := by
  simp only [mem_keys_iff, lookup_insert]
  by_cases h : key' = key <;> simp [h]

end Keyed

end Capability
