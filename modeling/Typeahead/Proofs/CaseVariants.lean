import Mathlib
import Typeahead.Proofs.Leniency
import Typeahead.Search.Patterns

/-!
# Two ways of looking past case

Lockstep and the scattered walk compare characters by their lowercase forms; the search for one piece compares
them by their representatives. The two agree, except that some small letters fold onto another small letter. So a
search may find a piece where no walk from letter to letter comes through. Main statement:
`Literal.whole_input_read_iff`: all of the input is read exactly if it is a subsequence of the text or a piece of it
up to folding, and where none of those small letters occurs the subsequence alone decides.
-/

namespace Typeahead

/-! ## Characters -/

/-- One of the letters that fold onto another small letter. -/
def IsSmallVariant (c : Char) : Prop := (smallVariants.lookup c.toNat).isSome = true

instance (c : Char) : Decidable (IsSmallVariant c) := inferInstanceAs (Decidable (_ = true))

theorem foldCase_of_not_isSmallVariant {c : Char} (h : ¬IsSmallVariant c) :
    foldCase c = smallLetter capitalRuns c := by
  have hnone : smallVariants.lookup c.toNat = none := Option.not_isSome_iff_eq_none.1 h
  rw [foldCase, hnone]

theorem findRun_eq_some {runs : List CaseRun} {code : Nat} {run : CaseRun} (h : findRun runs code = some run) :
    run ∈ runs ∧ run.covers code = true := by
  induction runs with
  | nil => simp [findRun] at h
  | cons first rest ih =>
    rw [findRun] at h
    by_cases hbefore : code < first.first
    · simp [hbefore] at h
    · by_cases hcovers : first.covers code = true
      · simp only [hbefore, hcovers, if_true, if_false, Option.some.injEq] at h
        subst h
        exact ⟨List.mem_cons_self, hcovers⟩
      · simp only [hbefore, hcovers, if_false] at h
        obtain ⟨hmem, hrun⟩ := ih h
        exact ⟨List.mem_cons_of_mem _ hmem, hrun⟩

/-- A capital is found again from its small letter. -/
theorem capitalOf_add_shift {run : CaseRun} {code small : Nat} (hcovers : run.covers code = true)
    (hsmall : (code + run.shift).toNat = small) (hpos : small ≠ 0) : run.capitalOf small = some code := by
  have hcode : (small - run.shift).toNat = code := by omega
  simp [CaseRun.capitalOf, hcode, hcovers]

/-- Numbers that are no code points all give the character zero, so that any other tells its number. -/
theorem eq_toNat_of_ofNat {code : Nat} {c : Char} (h : Char.ofNat code = c) (hc : c.toNat ≠ 0) :
    code = c.toNat := by
  unfold Char.ofNat at h
  split at h
  · subst h
    rfl
  · subst h
    exact absurd rfl hc

/-- No capital has the dotted capital I as its small letter. -/
theorem eq_dotted_of_smallLetter {c : Char} (h : smallLetter capitalRuns c = '\u0130') : c = '\u0130' := by
  unfold smallLetter at h
  cases hrun : findRun capitalRuns c.toNat with
  | none => simpa [hrun] using h
  | some run =>
    obtain ⟨hmem, hcovers⟩ := findRun_eq_some hrun
    simp only [hrun] at h
    have hsmall : (c.toNat + run.shift).toNat = 0x130 := eq_toNat_of_ofNat h (by decide)
    have hnone : ∀ run ∈ capitalRuns, run.capitalOf 0x130 = none := by decide +kernel
    have hfound := capitalOf_add_shift hcovers hsmall (by decide)
    rw [hnone run hmem] at hfound
    cases hfound

theorem smallLetter_dotted : smallLetter capitalRuns '\u0130' = '\u0130' := by decide

/-- **The two comparisons agree on all but the small variants**: letters with the same representative have the same
lowercase form. -/
theorem sameLetter_of_sameFold {c d : Char} (hc : ¬IsSmallVariant c) (hd : ¬IsSmallVariant d)
    (h : sameFold true c d = true) : sameLetter true c d = true := by
  have hsmall : smallLetter capitalRuns c = smallLetter capitalRuns d := by
    simpa [sameFold, foldCase_of_not_isSmallVariant hc, foldCase_of_not_isSmallVariant hd] using h
  by_cases hdotted : c = '\u0130'
  · have hd : d = '\u0130' := by
      apply eq_dotted_of_smallLetter
      rw [← hsmall, hdotted, smallLetter_dotted]
    simp [sameLetter, hdotted, hd]
  · have hd : d ≠ '\u0130' := by
      intro heq
      apply hdotted
      apply eq_dotted_of_smallLetter
      rw [hsmall, heq, smallLetter_dotted]
    simp [sameLetter, lowercase, hdotted, hd, hsmall]

/-- On each small variant they disagree. -/
theorem sameLetter_eq_false_of_mem {entry : Nat × Nat} (h : entry ∈ smallVariants) :
    sameFold true (Char.ofNat entry.1) (Char.ofNat entry.2) = true ∧
      sameLetter true (Char.ofNat entry.1) (Char.ofNat entry.2) = false := by
  revert entry
  decide +kernel

/-! ## Texts -/

/-- Input lies scattered over a text: its characters stand there in order, up to lowercase forms. -/
def IsSubsequence (input text : Text) : Prop :=
  List.SublistForall₂ (fun d c => sameLetter true c d = true) input text

/-- Input stands in a text in one piece, up to representatives. -/
def IsPiece (input text : Text) : Prop := input.map foldCase <:+: text.map foldCase

theorem isSubsequence_iff_scattered? {text input : Text} :
    (scattered? true text input).isSome = true ↔ IsSubsequence input text := by
  rw [scattered?, Option.isSome_map, scatterFrom_isSome_iff, IsSubsequence]

theorem isPiece_iff_contiguous? (search : Search) {text input : Text} :
    (contiguous? search true text input).isSome = true ↔ IsPiece input text := by
  rw [contiguous?, Option.isSome_map, Search.isSome_find?_iff]
  rfl

theorem IsSubsequence.length_le {text input : Text} (h : IsSubsequence input text) :
    input.length ≤ text.length := by
  obtain ⟨found, hall, hsub⟩ := List.sublistForall₂_iff.1 h
  rw [hall.length_eq]
  exact hsub.length_le

theorem IsPiece.length_le {text input : Text} (h : IsPiece input text) : input.length ≤ text.length := by
  have hlength := List.IsInfix.length_le h
  simpa using hlength

/-- Input that is used up in lockstep lies at the start of the text. -/
theorem isSubsequence_of_lockstep? {text input : Text} {alignment : Alignment}
    (h : lockstep? true text input = some alignment) (hused : alignment.remaining = []) :
    IsSubsequence input text := by
  unfold IsSubsequence
  rw [List.sublistForall₂_iff]
  rcases lockstep?_agrees h with ⟨consumed, hinput, hall⟩ | ⟨-, typed, untyped, rfl, hall⟩
  · rw [hused, List.append_nil] at hinput
    subst hinput
    exact ⟨text, hall.flip, List.Sublist.refl text⟩
  · exact ⟨typed, hall.flip, List.sublist_append_left typed untyped⟩

theorem fuzzyAlign?_isSome_iff {search : Search} {text input : Text} :
    (fuzzyAlign? search true text input).isSome = true ↔
      IsSubsequence input text ∨ search.builds true input = true ∧ IsPiece input text := by
  rw [← isSubsequence_iff_scattered?, ← isPiece_iff_contiguous? search, fuzzyAlign?]
  by_cases hbuilds : search.builds true input = true
  · simp only [hbuilds, if_true, true_and]
    cases contiguous? search true text input <;> simp
  · simp [hbuilds]

theorem alignWith_whole_iff {search : Search} {text input : Text} :
    (∃ alignment, alignWith search true true text input = some alignment ∧ alignment.remaining = []) ↔
      IsSubsequence input text ∨ search.builds true input = true ∧ IsPiece input text := by
  constructor
  · rintro ⟨alignment, halign, hused⟩
    rcases alignWith_eq_some_iff.1 halign with hlockstep | ⟨-, -, hfound⟩
    · exact .inl (isSubsequence_of_lockstep? hlockstep hused)
    · rw [← fuzzyAlign?_isSome_iff, hfound]
      rfl
  · intro h
    have hle : input.length ≤ text.length := by
      rcases h with hsub | ⟨-, hpiece⟩
      · exact hsub.length_le
      · exact hpiece.length_le
    cases hlockstep : lockstep? true text input with
    | some alignment =>
      exact ⟨alignment, alignWith_eq_some_iff.2 (.inl hlockstep), lockstep?_remaining_of_length_le hle hlockstep⟩
    | none =>
      obtain ⟨alignment, hfound⟩ := Option.isSome_iff_exists.1 (fuzzyAlign?_isSome_iff.2 h)
      exact ⟨alignment, alignWith_eq_some_iff.2 (.inr ⟨hlockstep, rfl, hfound⟩), fuzzyAlign?_remaining hfound⟩

/-- Where no small variant occurs, a piece of a text is a subsequence of it. -/
theorem IsPiece.isSubsequence {text input : Text} (h : IsPiece input text)
    (hplain : ∀ c ∈ text ++ input, ¬IsSmallVariant c) : IsSubsequence input text := by
  obtain ⟨before, after, htext⟩ := h
  have hoccurs : OccursAt true text input before.length := ⟨before, after, htext.symm, rfl⟩
  obtain ⟨before, piece, after, rfl, -, hall⟩ := hoccurs.exists_piece
  have hsame : List.Forall₂ (fun c d => sameLetter true c d = true) piece input := by
    rw [List.forall₂_iff_zip] at hall ⊢
    refine ⟨hall.1, fun {c d} hmem => ?_⟩
    obtain ⟨hc, hd⟩ := List.of_mem_zip hmem
    exact sameLetter_of_sameFold (hplain c (by simp [hc])) (hplain d (by simp [hd])) (hall.2 hmem)
  unfold IsSubsequence
  rw [List.sublistForall₂_iff]
  refine ⟨piece, hsame.flip, ?_⟩
  exact (List.sublist_append_right before piece).trans (List.sublist_append_left _ after)

/-- Each small variant does make a difference: by a search it is found where the letter is typed onto which it
folds, and by no walk. -/
theorem isPiece_of_mem_smallVariants {entry : Nat × Nat} (h : entry ∈ smallVariants) :
    IsPiece [Char.ofNat entry.2] [Char.ofNat entry.1] ∧
      ¬IsSubsequence [Char.ofNat entry.2] [Char.ofNat entry.1] := by
  obtain ⟨hfold, hletter⟩ := sameLetter_eq_false_of_mem h
  have hequal : foldCase (Char.ofNat entry.1) = foldCase (Char.ofNat entry.2) := by simpa [sameFold] using hfold
  constructor
  · simp [IsPiece, hequal]
  · rw [← isSubsequence_iff_scattered?]
    simp [scattered?, scatterFrom, hletter]

/-! ## Reading all of the input -/

/-- **Which inputs a fuzzy literal takes in whole, with case ignored.** All of the input is read exactly if it is a
subsequence of the text, or if it can be searched for and is a piece of the text up to representatives. Let none of
the small letters that fold onto another occur in text or input. Then the subsequence alone decides: a search that
finds a piece finds nothing that the scattered walk misses, so that a literal is read or not whether or not the input
can be searched for. -/
theorem Literal.whole_input_read_iff (l : Literal) (leniency : Leniency) (hcase : leniency.ignoreCase = true)
    (hfuzzy : (l.fuzzy || leniency.fuzzy) = true) (input : Text) :
    let search := leniency.search
    ((∃ out, l.read? leniency input = some out ∧ out.remaining = []) ↔
      IsSubsequence input l.text ∨ search.builds true input = true ∧ IsPiece input l.text) ∧
    ((∀ c ∈ l.text ++ input, ¬IsSmallVariant c) →
      ((∃ out, l.read? leniency input = some out ∧ out.remaining = []) ↔ IsSubsequence input l.text) ∧
      ((contiguous? search true l.text input).isSome = true → (scattered? true l.text input).isSome = true) ∧
      (l.read? { leniency with search := search.disabled } input).isSome = (l.read? leniency input).isSome) := by
  intro search
  have hread : (∃ out, l.read? leniency input = some out ∧ out.remaining = []) ↔
      IsSubsequence input l.text ∨ search.builds true input = true ∧ IsPiece input l.text := by
    rw [← alignWith_whole_iff, read?, hcase, hfuzzy]
    simp [readingOf, search]
  refine ⟨hread, fun hplain => ?_⟩
  have honly (builds : Bool) : IsSubsequence input l.text ∨ builds = true ∧ IsPiece input l.text ↔
      IsSubsequence input l.text :=
    or_iff_left_of_imp fun hfound => hfound.2.isSubsequence hplain
  refine ⟨hread.trans (honly _), fun hfound => ?_, ?_⟩
  · rw [isSubsequence_iff_scattered?]
    exact ((isPiece_iff_contiguous? search).1 hfound).isSubsequence hplain
  · rw [read?, read?, Option.isSome_map, Option.isSome_map, hcase, hfuzzy, alignWith, alignWith]
    cases lockstep? true l.text input with
    | some alignment => rfl
    | none =>
      rw [Bool.eq_iff_iff]
      simp only [if_true, fuzzyAlign?_isSome_iff, honly]

/-- Letters of either case are found apart from each other, as they are without a search. -/
theorem capitals_are_read_in_whole :
    let l : Literal := { text := "Open File".toList, fuzzy := true }
    (∃ out, l.read? { ignoreCase := true } "oF".toList = some out ∧ out.remaining = []) ∧
      (l.read? { ignoreCase := true, search := Search.patterns.disabled } "oF".toList).isSome =
        (l.read? { ignoreCase := true } "oF".toList).isSome := by
  intro l
  have hall : (l.text ++ "oF".toList).all (fun c => !decide (IsSmallVariant c)) = true := by decide +kernel
  have hplain : ∀ c ∈ l.text ++ "oF".toList, ¬IsSmallVariant c := by
    intro c hc
    simpa using List.all_eq_true.1 hall c hc
  obtain ⟨-, hwhole⟩ := l.whole_input_read_iff { ignoreCase := true } rfl rfl "oF".toList
  obtain ⟨hread, -, hsame⟩ := hwhole hplain
  refine ⟨hread.2 ?_, hsame⟩
  rw [← isSubsequence_iff_scattered?]
  decide +kernel

/-- **A long s is found as an s, but only by a search.** The walk from letter to letter does not come through, so the
input is no subsequence of the text; and it is not read at all if it cannot be searched for. -/
theorem long_s_is_found_by_search :
    let l : Literal := { text := "Maſt".toList, fuzzy := true }
    (∃ out, l.read? { ignoreCase := true } "mast".toList = some out ∧ out.remaining = [] ∧ out.score = .one) ∧
      ¬IsSubsequence "mast".toList l.text ∧
      (contiguous? Search.patterns true l.text "mast".toList).isSome = true ∧
      (scattered? true l.text "mast".toList).isSome = false ∧
      (l.read? { ignoreCase := true, search := Search.patterns.disabled } "mast".toList).isSome = false := by
  intro l
  have hany : (l.read? { ignoreCase := true } "mast".toList).any (fun out =>
      out.remaining = [] ∧ out.score = .one) = true := by
    cbv
  obtain ⟨out, hout, hread⟩ := (Option.any_eq_true _ _).1 hany
  have hscattered : (scattered? true l.text "mast".toList).isSome = false := by decide +kernel
  refine ⟨⟨out, hout, of_decide_eq_true hread⟩, ?_, by decide +kernel, hscattered, by decide +kernel⟩
  rw [← isSubsequence_iff_scattered?, hscattered]
  simp

end Typeahead
