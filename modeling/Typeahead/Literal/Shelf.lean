import Typeahead.Literal

/-!
# Patterns kept during a pass

Whether an input can be searched for in one piece is found out once in a pass and kept under the input, for
all literals that are tried on it later. What is kept does not say how case was treated, since that does
not change during a pass. Main statement: reading through the shelf, in whatever order, gives what reading
without it gives (`Shelf.readAll_eq`).

| here | there |
| --- | --- |
| `Shelf` | `PatternCache` |
| `Shelf.get` | `PatternCache::get` |
| `Shelf.read` | `match_literal`, with its cache |
-/

namespace Typeahead

/-- The inputs looked up so far, each with whether it can be searched for in one piece. -/
abbrev Shelf := List (Text × Bool)

namespace Shelf

/-- Look an input up; what is not on the shelf is found out and put there. -/
def get (leniency : Leniency) (shelf : Shelf) (input : Text) : Bool × Shelf :=
  match shelf.lookup input with
  | some fits => (fits, shelf)
  | none =>
    let fits := leniency.search.builds leniency.ignoreCase input
    (fits, (input, fits) :: shelf)

/-- Read input as a literal. The shelf is needed only where lockstep fails and a fuzzy match is allowed. -/
def read (leniency : Leniency) (shelf : Shelf) (literal : Literal) (input : Text) :
    Option Output × Shelf :=
  match lockstep? leniency.ignoreCase literal.text input with
  | some alignment => (some (literal.readingOf alignment), shelf)
  | none =>
    if literal.fuzzy || leniency.fuzzy then
      let (fits, shelf) := shelf.get leniency input
      let search : Search := { leniency.search with builds := fun _ _ => fits }
      ((fuzzyAlign? search leniency.ignoreCase literal.text input).map literal.readingOf, shelf)
    else (none, shelf)

def readAll (leniency : Leniency) (shelf : Shelf) : List (Literal × Text) → List (Option Output)
  | [] => []
  | (literal, input) :: later =>
    let (reading, shelf) := shelf.read leniency literal input
    reading :: shelf.readAll leniency later

/-- What is on the shelf is what would be found out. -/
def Sound (leniency : Leniency) (shelf : Shelf) : Prop :=
  ∀ entry ∈ shelf, entry.2 = leniency.search.builds leniency.ignoreCase entry.1

theorem Sound.get {leniency : Leniency} {shelf : Shelf} (h : shelf.Sound leniency) (input : Text) :
    (shelf.get leniency input).1 = leniency.search.builds leniency.ignoreCase input ∧
      (shelf.get leniency input).2.Sound leniency := by
  unfold Shelf.get
  split
  · next fits hlookup =>
    obtain ⟨before, after, rfl, -⟩ := List.lookup_eq_some_iff.1 hlookup
    exact ⟨h (input, fits) (by simp), h⟩
  · exact ⟨rfl, List.forall_mem_cons.2 ⟨rfl, h⟩⟩

theorem Sound.read {leniency : Leniency} {shelf : Shelf} (h : shelf.Sound leniency)
    (literal : Literal) (input : Text) :
    (shelf.read leniency literal input).1 = literal.read? leniency input ∧
      (shelf.read leniency literal input).2.Sound leniency := by
  obtain ⟨hfits, hsound⟩ := h.get input
  simp only [Shelf.read, Literal.read?, alignWith]
  cases lockstep? leniency.ignoreCase literal.text input with
  | some alignment => exact ⟨rfl, h⟩
  | none =>
    by_cases hfuzzy : (literal.fuzzy || leniency.fuzzy) = true
    · simp only [hfuzzy, if_true, hfits]
      exact ⟨rfl, hsound⟩
    · simp only [hfuzzy, Bool.false_eq_true, if_false]
      exact ⟨rfl, h⟩

/-- **What was kept makes no difference.** From an empty shelf, each reading is the one that the literal
gives by itself, whatever was read before it. -/
theorem readAll_eq (leniency : Leniency) (attempts : List (Literal × Text)) :
    readAll leniency [] attempts = attempts.map fun attempt => attempt.1.read? leniency attempt.2 := by
  suffices h : ∀ shelf : Shelf, shelf.Sound leniency →
      shelf.readAll leniency attempts = attempts.map fun attempt => attempt.1.read? leniency attempt.2 from
    h [] nofun
  intro shelf hsound
  induction attempts generalizing shelf with
  | nil => rfl
  | cons attempt later ih =>
    obtain ⟨hreading, hafter⟩ := hsound.read attempt.1 attempt.2
    simp only [readAll, List.map_cons, hreading, ih _ hafter]

end Shelf

end Typeahead
