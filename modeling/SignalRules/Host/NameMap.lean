/-!
# Maps from names

A finite map whose keys are names, listed in the order of the names. A name that is inserted again
takes the place of its old entry.

## Main definitions

* `NameMap`, `NameMap.get?`, `NameMap.insert`, `NameMap.names`.

## Main results

* `NameMap.get?_insert`: what is found after an insertion.
-/

namespace SignalRules

/-- A finite map from names. -/
structure NameMap (α : Type) where
  /-- The entries, in the order of their names. -/
  entries : List (String × α)

namespace NameMap

variable {α : Type}

/-- The map without entries. -/
def empty : NameMap α := ⟨[]⟩

instance : Inhabited (NameMap α) := ⟨empty⟩

/-- The value of a name. -/
def get? (m : NameMap α) (name : String) : Option α := m.entries.lookup name

/-- Insert an entry before the first greater name, replacing an entry of the same name. -/
def insertEntry (name : String) (a : α) : List (String × α) → List (String × α)
  | [] => [(name, a)]
  | (k, b) :: rest =>
    if name = k then (name, a) :: rest
    else if name < k then (name, a) :: (k, b) :: rest
    else (k, b) :: insertEntry name a rest

/-- Give a name a value. -/
def insert (m : NameMap α) (name : String) (a : α) : NameMap α := ⟨insertEntry name a m.entries⟩

/-- Whether a name has a value. -/
def contains (m : NameMap α) (name : String) : Bool := (m.get? name).isSome

/-- The names, in order. -/
def names (m : NameMap α) : List String := m.entries.map Prod.fst

@[simp] theorem get?_empty (name : String) : (empty : NameMap α).get? name = none := rfl

private theorem lookup_insertEntry (name query : String) (a : α) (entries : List (String × α)) :
    (insertEntry name a entries).lookup query =
      if query = name then some a else entries.lookup query := by
  induction entries with
  | nil =>
    by_cases h : query = name
    · simp [insertEntry, h]
    · have hb : (query == name) = false := by simpa using h
      simp [insertEntry, List.lookup_cons, h, hb]
  | cons entry rest ih =>
    obtain ⟨k, b⟩ := entry
    by_cases hk : name = k
    · subst hk
      by_cases h : query = name
      · simp [insertEntry, h]
      · have hb : (query == name) = false := by simpa using h
        simp [insertEntry, List.lookup_cons, h, hb]
    · by_cases hlt : name < k
      · by_cases h : query = name
        · simp [insertEntry, hk, hlt, h]
        · have hb : (query == name) = false := by simpa using h
          simp [insertEntry, hk, hlt, List.lookup_cons, h, hb]
      · simp only [insertEntry, hk, hlt, if_false, List.lookup_cons]
        by_cases h : query = k
        · have hne : query ≠ name := fun e => hk (e.symm.trans h)
          have hb : (query == k) = true := by simpa using h
          simp [hne, hb]
        · have hb : (query == k) = false := by simpa using h
          simp only [hb, ih]

theorem get?_insert (m : NameMap α) (name query : String) (a : α) :
    (m.insert name a).get? query = if query = name then some a else m.get? query :=
  lookup_insertEntry name query a m.entries

end NameMap

end SignalRules
