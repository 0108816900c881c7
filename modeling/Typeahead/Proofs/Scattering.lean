import Mathlib.Data.List.Forall2
import Mathlib.Data.Set.List
import Typeahead.Proofs.Slices

/-!
# First places

Input lies scattered over a text if its characters stand there in order, each compared as letters are compared
(`Scatters`). The walk from letter to letter gives every character the first place that fits. That never blocks a
later character, and no other way to scatter the input comes anywhere to an earlier place: if it leaves out the
first place that fits a character, its place for that character, and so all later ones, lie further on
(`scatterFrom_first`). The walk by slices of the text marks the same places.

Main statement: `scattered_input_takes_first_places`.
-/

namespace Typeahead

variable {same : Char → Char → Bool} {c wanted : Char} {text input : Text} {places : List Nat}

/-- Places in a text, from left to right, at which the characters of the input stand. -/
structure Scatters (same : Char → Char → Bool) (text input : Text) (places : List Nat) : Prop where
  increasing : places.Pairwise (· < ·)
  fits : List.Forall₂ (fun place wanted => ∃ c, text[place]? = some c ∧ same c wanted = true) places input

namespace Scatters

theorem nil_iff : Scatters same text [] places ↔ places = [] := by
  constructor
  · intro h
    exact List.forall₂_nil_right_iff.1 h.fits
  · rintro rfl
    exact ⟨.nil, .nil⟩

theorem tail {place : Nat} (h : Scatters same text (wanted :: input) (place :: places)) :
    Scatters same text input places where
  increasing := h.increasing.of_cons
  fits := by
    cases h.fits with
    | cons _ hrest => exact hrest

/-- All places move on behind a new first character. -/
theorem later (c : Char) (h : Scatters same text input places) :
    Scatters same (c :: text) input (places.map (· + 1)) where
  increasing := h.increasing.map _ fun _ _ => Nat.succ_lt_succ
  fits := by
    rw [List.forall₂_map_left_iff]
    simpa only [List.getElem?_cons_succ] using h.fits

/-- The first character of the input takes the first place. -/
theorem here (hfits : same c wanted = true) (h : Scatters same text input places) :
    Scatters same (c :: text) (wanted :: input) (0 :: places.map (· + 1)) where
  increasing := by
    refine List.pairwise_cons.2 ⟨?_, (h.later c).increasing⟩
    simp
  fits := .cons ⟨c, rfl, hfits⟩ (h.later c).fits

/-- Places that leave out the first one are places in the rest of the text. -/
theorem exists_later (h : Scatters same (c :: text) input places) (hpos : ∀ place ∈ places, 0 < place) :
    ∃ later, places = later.map (· + 1) ∧ Scatters same text input later := by
  obtain ⟨later, rfl⟩ : places ∈ Set.range (List.map (· + 1)) := by
    rw [Set.range_list_map]
    intro place hplace
    exact ⟨place - 1, Nat.sub_add_cancel (hpos place hplace)⟩
  refine ⟨later, rfl, ?_, ?_⟩
  · simpa [List.pairwise_map] using h.increasing
  · simpa [List.forall₂_map_left_iff] using h.fits

/-- The first character of the input takes the first place, or all of it stands in the rest of the text. -/
theorem of_cons (h : Scatters same (c :: text) (wanted :: input) places) :
    (same c wanted = true ∧ ∃ later, places = 0 :: later.map (· + 1) ∧ Scatters same text input later) ∨
      ∃ later, places = later.map (· + 1) ∧ Scatters same text (wanted :: input) later := by
  cases places with
  | nil => cases h.fits
  | cons place places =>
    have habove := (List.pairwise_cons.1 h.increasing).1
    by_cases hplace : place = 0
    · left
      subst hplace
      obtain ⟨later, rfl, hlater⟩ := h.tail.exists_later habove
      cases h.fits with
      | cons hfirst _ =>
        obtain ⟨d, hd, hfits⟩ := hfirst
        rw [List.getElem?_cons_zero, Option.some.injEq] at hd
        exact ⟨hd ▸ hfits, later, rfl, hlater⟩
    · right
      apply h.exists_later
      intro other hother
      rcases List.mem_cons.1 hother with rfl | hrest
      · exact Nat.pos_of_ne_zero hplace
      · exact (Nat.zero_le _).trans_lt (habove other hrest)

theorem subsequence (h : Scatters same text input places) :
    List.SublistForall₂ (fun d c => same c d = true) input text := by
  induction text generalizing input places with
  | nil =>
    cases h.fits with
    | nil => exact .nil
    | cons hfirst _ =>
      obtain ⟨d, hd, -⟩ := hfirst
      cases hd
  | cons c text ih =>
    cases input with
    | nil => exact .nil
    | cons wanted input =>
      rcases h.of_cons with ⟨hfits, later, -, hlater⟩ | ⟨later, -, hlater⟩
      · exact .cons hfits (ih hlater)
      · exact .cons_right (ih hlater)

end Scatters

/-! ## The walk from letter to letter -/

/-- The places of what is marked. -/
def placesOf (marks : List Bool) : List Nat := marks.findIdxs id

@[simp] theorem placesOf_true (marks : List Bool) : placesOf (true :: marks) = 0 :: (placesOf marks).map (· + 1) := by
  rw [placesOf, List.findIdxs_cons, List.findIdxs_start]
  rfl

@[simp] theorem placesOf_false (marks : List Bool) : placesOf (false :: marks) = (placesOf marks).map (· + 1) := by
  rw [placesOf, List.findIdxs_cons, List.findIdxs_start]
  rfl

@[simp] theorem placesOf_replicate_false (n : Nat) : placesOf (List.replicate n false) = [] := by
  induction n with
  | zero => rfl
  | succ n ih => rw [List.replicate_succ, placesOf_false, ih, List.map_nil]

theorem forall₂_le_later {here there : List Nat} (h : List.Forall₂ (· ≤ ·) here there) :
    List.Forall₂ (· ≤ ·) (here.map (· + 1)) (there.map (· + 1)) := by
  rw [List.forall₂_map_left_iff, List.forall₂_map_right_iff]
  exact h.imp fun _ _ => Nat.succ_le_succ

/-- **The walk takes the first places**: the input is scattered over the places it marks, and wherever else it can
be scattered, no character comes to an earlier place. -/
theorem scatterFrom_first {marks : List Bool} (h : scatterFrom same [] text input = some marks) :
    Scatters same text input (placesOf marks) ∧
      ∀ places, Scatters same text input places → List.Forall₂ (· ≤ ·) (placesOf marks) places := by
  induction text generalizing input marks with
  | nil =>
    cases input with
    | nil =>
      simp only [scatterFrom, List.reverse_nil, List.nil_append, Option.some.injEq] at h
      subst h
      refine ⟨Scatters.nil_iff.2 rfl, fun places hplaces => ?_⟩
      rw [Scatters.nil_iff.1 hplaces]
      exact .nil
    | cons wanted input => simp [scatterFrom] at h
  | cons c text ih =>
    cases input with
    | nil =>
      simp only [scatterFrom, List.reverse_nil, List.nil_append, Option.some.injEq] at h
      subst h
      refine ⟨Scatters.nil_iff.2 (placesOf_replicate_false _), fun places hplaces => ?_⟩
      rw [Scatters.nil_iff.1 hplaces, placesOf_replicate_false]
      exact .nil
    | cons wanted input =>
      rw [scatterFrom] at h
      by_cases hfits : same c wanted = true
      · rw [if_pos hfits, scatterFrom_eq_map] at h
        obtain ⟨more, hmore, rfl⟩ := Option.map_eq_some_iff.1 h
        obtain ⟨hscatters, hfirst⟩ := ih hmore
        have hplaces : placesOf ([true].reverse ++ more) = 0 :: (placesOf more).map (· + 1) := placesOf_true more
        rw [hplaces]
        refine ⟨hscatters.here hfits, fun places hother => ?_⟩
        rcases hother.of_cons with ⟨-, later, rfl, hlater⟩ | ⟨later, rfl, hlater⟩
        · exact .cons le_rfl (forall₂_le_later (hfirst later hlater))
        · -- the other way leaves out this place; what it does with the rest is also a way to scatter the rest
          cases later with
          | nil => cases hlater.fits
          | cons place later =>
            exact .cons (Nat.zero_le _) (forall₂_le_later (hfirst later hlater.tail))
      · rw [if_neg hfits, scatterFrom_eq_map] at h
        obtain ⟨more, hmore, rfl⟩ := Option.map_eq_some_iff.1 h
        obtain ⟨hscatters, hfirst⟩ := ih hmore
        have hplaces : placesOf ([false].reverse ++ more) = (placesOf more).map (· + 1) := placesOf_false more
        rw [hplaces]
        refine ⟨hscatters.later c, fun places hother => ?_⟩
        rcases hother.of_cons with ⟨hsame, -⟩ | ⟨later, rfl, hlater⟩
        · exact absurd hsame hfits
        · exact forall₂_le_later (hfirst later hlater)

/-- The walk comes to its end exactly if the input can be scattered over the text at all. -/
theorem scatterFrom_isSome_iff_scatters :
    (scatterFrom same [] text input).isSome = true ↔ ∃ places, Scatters same text input places := by
  constructor
  · intro h
    obtain ⟨marks, hmarks⟩ := Option.isSome_iff_exists.1 h
    exact ⟨placesOf marks, (scatterFrom_first hmarks).1⟩
  · rintro ⟨places, hplaces⟩
    exact scatterFrom_isSome_iff.2 hplaces.subsequence

/-! ## What the segments mark -/

/-- For each character of segments, whether it was typed. -/
def marksOf (segments : List Segment) : List Bool :=
  segments.flatMap fun segment => List.replicate segment.text.length segment.typed

theorem marks_joinRun (entry : Char × Bool) (runs : List (Text × Bool)) :
    (joinRun entry runs).flatMap (fun run => List.replicate run.1.length run.2) =
      entry.2 :: runs.flatMap fun run => List.replicate run.1.length run.2 := by
  match runs with
  | [] => simp [joinRun]
  | (text, mark) :: runs =>
    rw [joinRun]
    by_cases hmark : mark = entry.2
    · simp [hmark, List.replicate_succ]
    · simp [hmark]

theorem marks_runsOf {marks : List Bool} (h : marks.length = text.length) :
    (runsOf text marks).flatMap (fun run => List.replicate run.1.length run.2) = marks := by
  induction text generalizing marks with
  | nil => simp [runsOf, List.length_eq_zero_iff.1 h]
  | cons c text ih =>
    cases marks with
    | nil => cases h
    | cons mark marks =>
      have hcons : runsOf (c :: text) (mark :: marks) = joinRun (c, mark) (runsOf text marks) := rfl
      rw [hcons, marks_joinRun, ih (Nat.succ.inj h)]

theorem marksOf_segmentsOf {marks : List Bool} (h : marks.length = text.length) :
    marksOf (segmentsOf text marks) = marks := by
  have hruns := marks_runsOf h
  rw [← map_asWord (runsOf text marks), List.flatMap_map, ← segmentsOf_eq_asWord] at hruns
  exact hruns

/-- **Scattered input takes the first places.** Walk by slices of the text from letter to letter, with or without
regard to case. No slice is misplaced, and the segments are those of the alignment by characters.

- There are segments exactly if the characters of the input stand somewhere in the text in order.
- They spell the text. The places that are marked as typed are such places, and wherever else the input stands in
  the text, each of its characters stands at the same place or at a later one. -/
theorem scattered_input_takes_first_places (ignoreCase : Bool) (text input : Text) :
    ∃ found : Option (List Segment),
      sliceScattered (sameLetter ignoreCase) text 0 [] input = .ok found ∧
      found = (scattered? ignoreCase text input).map (fun alignment => segmentsOf text alignment.marks) ∧
      (found.isSome = true ↔ ∃ places, Scatters (sameLetter ignoreCase) text input places) ∧
      ∀ segments, found = some segments →
        segments.flatMap (·.text) = text ∧
        Scatters (sameLetter ignoreCase) text input (placesOf (marksOf segments)) ∧
        ∀ places, Scatters (sameLetter ignoreCase) text input places →
          List.Forall₂ (· ≤ ·) (placesOf (marksOf segments)) places := by
  refine ⟨_, sliceScattered_zero (sameLetter ignoreCase) text input, ?_, ?_, ?_⟩
  · rw [scattered?, Option.map_map]
    rfl
  · rw [Option.isSome_map, scatterFrom_isSome_iff_scatters]
  · intro segments h
    obtain ⟨marks, hmarks, rfl⟩ := Option.map_eq_some_iff.1 h
    have hlength := length_scatterFrom hmarks
    rw [marksOf_segmentsOf hlength]
    exact ⟨text_segmentsOf hlength, scatterFrom_first hmarks⟩

/-- The later letters would do as well, but the first ones are taken. -/
theorem echoed_letters_take_first_places :
    ∃ segments, sliceScattered (sameLetter true) "-aB-Ab".toList 0 [] "ab".toList = .ok (some segments) ∧
      placesOf (marksOf segments) = [1, 2] ∧
      Scatters (sameLetter true) "-aB-Ab".toList "ab".toList [4, 5] ∧
      List.Forall₂ (· ≤ ·) (placesOf (marksOf segments)) [4, 5] := by
  obtain ⟨found, hfound, hmarks, hexists, hfirst⟩ :=
    scattered_input_takes_first_places true "-aB-Ab".toList "ab".toList
  have hlater : Scatters (sameLetter true) "-aB-Ab".toList "ab".toList [4, 5] :=
    ⟨by decide, .cons ⟨'A', rfl, by decide +kernel⟩ (.cons ⟨'b', rfl, by decide +kernel⟩ .nil)⟩
  obtain ⟨segments, rfl⟩ := Option.isSome_iff_exists.1 (hexists.2 ⟨_, hlater⟩)
  have hplaces : ((scattered? true "-aB-Ab".toList "ab".toList).map fun alignment =>
      placesOf (marksOf (segmentsOf "-aB-Ab".toList alignment.marks))) = some [1, 2] := by
    decide +kernel
  rw [← Function.comp_def (fun segments => placesOf (marksOf segments)), ← Option.map_map, ← hmarks] at hplaces
  exact ⟨segments, hfound, Option.some.inj hplaces, hlater, (hfirst segments rfl).2.2 _ hlater⟩

end Typeahead
