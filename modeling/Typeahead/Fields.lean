/-!
# Fields

A finite map from names to things, as an association list that insertion keeps in ascending order of the
names. Looking up after inserting finds what was inserted, whatever the list was (`get?_insert`), so a
later entry for a name wins over an earlier one.

| here | there |
| --- | --- |
| `Fields` | `Map`, of results and props; the index of `ExtensionRegistry` |
| `insert`, `insertAll` | `Map::insert`, `Map::extend` |
-/

namespace Typeahead

/-- Named things, ascending by name. -/
abbrev Fields (α : Type) := List (String × α)

namespace Fields

variable {α : Type}

def get? (fields : Fields α) (name : String) : Option α :=
  match fields with
  | [] => none
  | (key, a) :: rest => if key = name then some a else get? rest name

def has (fields : Fields α) (name : String) : Bool := (fields.get? name).isSome

/-- Put a thing under a name, in place of any that was there. -/
def insert (fields : Fields α) (name : String) (a : α) : Fields α :=
  match fields with
  | [] => [(name, a)]
  | (key, b) :: rest =>
    if key = name then (name, a) :: rest
    else if name < key then (name, a) :: (key, b) :: rest
    else (key, b) :: insert rest name a

/-- Put all things of a list under their names, in order. -/
def insertAll (fields : Fields α) (entries : List (String × α)) : Fields α :=
  entries.foldl (fun acc entry => acc.insert entry.1 entry.2) fields

/-- Arrange named things by name; the last one of a name is kept. -/
def ofList (entries : List (String × α)) : Fields α := insertAll [] entries

@[simp] theorem get?_nil (name : String) : get? ([] : Fields α) name = none := rfl

/-- **Look-up after insertion.** The new thing under its own name, the old ones under all others. -/
theorem get?_insert (fields : Fields α) (name other : String) (a : α) :
    (fields.insert name a).get? other = if name = other then some a else fields.get? other := by
  induction fields with
  | nil => simp [insert, get?]
  | cons entry rest ih =>
    obtain ⟨key, b⟩ := entry
    unfold insert
    split
    · next h => subst h; simp only [get?]; split <;> simp_all
    · split
      · simp [get?]
      · simp only [get?, ih]
        split
        · next h => subst h; simp [*]; intro h; exact absurd h.symm ‹_›
        · rfl

end Fields

end Typeahead
