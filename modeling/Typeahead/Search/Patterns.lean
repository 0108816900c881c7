import Typeahead.Search
import Typeahead.Text.Pattern

/-!
# The search that is used

A pattern can be built if its machines fit (`Pattern.fits`), and is tried at one place after the other.

| here | there |
| --- | --- |
| `Search.patterns` | `contiguous_pattern`, and `find` |
-/

namespace Typeahead

/-- The place of the leftmost occurrence of a pattern, counted on from `start`. -/
def occursFrom (pattern : Text) (start : Nat) : Text → Option Nat
  | [] => if pattern.isEmpty then some start else none
  | c :: text =>
    if pattern.isPrefixOf (c :: text) then some start else occursFrom pattern (start + 1) text

/-- The place of the leftmost occurrence of the input in a text. -/
def occurrence? (ignoreCase : Bool) (text input : Text) : Option Nat :=
  occursFrom (folded ignoreCase input) 0 (folded ignoreCase text)

/-- What is found is there. -/
theorem occursFrom_eq_some {pattern text : Text} {start found : Nat}
    (h : occursFrom pattern start text = some found) :
    ∃ before after, text = before ++ pattern ++ after ∧ found = start + before.length := by
  induction text generalizing start with
  | nil =>
    simp only [occursFrom, List.isEmpty_iff] at h
    split at h
    · next he => cases h; exact ⟨[], [], by simp [he], by simp⟩
    · cases h
  | cons c text ih =>
    simp only [occursFrom] at h
    split at h
    · next hp =>
      cases h
      obtain ⟨after, ha⟩ := List.isPrefixOf_iff_prefix.1 hp
      exact ⟨[], after, by simp [ha], by simp⟩
    · obtain ⟨before, after, ht, hf⟩ := ih h
      exact ⟨c :: before, after, by simp [ht], by simp [hf]; omega⟩

/-- What is there is found, or something further to the left. -/
theorem occursFrom_le (pattern before after : Text) (start : Nat) :
    ∃ found, found ≤ start + before.length ∧ occursFrom pattern start (before ++ pattern ++ after) = some found := by
  induction before generalizing start with
  | nil =>
    refine ⟨start, by simp, ?_⟩
    cases htext : pattern ++ after with
    | nil =>
      obtain ⟨rfl, rfl⟩ := List.append_eq_nil_iff.1 htext
      rfl
    | cons c text =>
      have hprefix : pattern.isPrefixOf (c :: text) = true := by
        rw [List.isPrefixOf_iff_prefix]
        exact ⟨after, htext⟩
      simp [htext, occursFrom, hprefix]
  | cons c before ih =>
    obtain ⟨found, hle, hfound⟩ := ih (start + 1)
    simp only [List.cons_append, occursFrom, List.length_cons]
    by_cases hprefix : pattern.isPrefixOf (c :: (before ++ pattern ++ after)) = true
    · exact ⟨start, by omega, by rw [if_pos hprefix]⟩
    · exact ⟨found, by omega, by rw [if_neg hprefix, hfound]⟩

theorem occurrence?_eq_some_iff {ignoreCase : Bool} {text input : Text} {place : Nat} :
    occurrence? ignoreCase text input = some place ↔
      OccursAt ignoreCase text input place ∧ ∀ other, OccursAt ignoreCase text input other → place ≤ other := by
  constructor
  · intro h
    obtain ⟨before, after, htext, hplace⟩ := occursFrom_eq_some h
    refine ⟨⟨before, after, htext, by omega⟩, ?_⟩
    rintro other ⟨before', after', htext', rfl⟩
    obtain ⟨found, hle, hfound⟩ := occursFrom_le (folded ignoreCase input) before' after' 0
    rw [← htext', ← occurrence?, h] at hfound
    cases hfound
    omega
  · rintro ⟨⟨before, after, htext, rfl⟩, hleast⟩
    obtain ⟨found, hle, hfound⟩ := occursFrom_le (folded ignoreCase input) before after 0
    rw [← htext, ← occurrence?] at hfound
    obtain ⟨before', after', htext', hplace'⟩ := occursFrom_eq_some hfound
    have hge := hleast found ⟨before', after', htext', by omega⟩
    rw [hfound, Option.some.injEq]
    omega

instance Search.patterns : Search where
  builds := Pattern.fits
  find? := occurrence?
  find?_eq_some_iff := occurrence?_eq_some_iff

end Typeahead
