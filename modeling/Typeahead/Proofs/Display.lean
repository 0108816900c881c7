import Mathlib.Data.List.SplitBy
import Typeahead.Proofs.Words

/-!
# The display of any segments

Segments may be put together in any way: words that nothing starts, typed words after incomplete ones, runs
without text. Cut into words they are the longest runs in which no segment but the first starts a word
(`wordsOf_eq_splitBy`). Two borders split the words into three parts. The first border is the first incomplete
word, and the second one is the least that comes after it, if it is a word, and after everything typed
(`WordSplit.completionStart_le_iff`). Main statement: `Output.display_of_segments`.
-/

namespace Typeahead

/-! ## Words as runs of segments -/

/-- A segment goes on with the word before it unless it starts one. -/
def goesOn (_ next : Segment) : Bool := !next.startsWord

section

variable {segment : Segment} {words : List (List Segment)}

/-- Words go on inside, and do not go on into each other. -/
structure Separate (words : List (List Segment)) : Prop where
  ne_nil : [] ∉ words
  inside : ∀ word ∈ words, word.IsChain fun segment next => goesOn segment next = true
  apart : words.IsChain fun word next => ∃ hword hnext, goesOn (word.getLast hword) (next.head hnext) = false

theorem Separate.joinWord (h : Separate words) (segment : Segment) : Separate (joinWord segment words) := by
  obtain ⟨hne, hinside, hapart⟩ := h
  match words with
  | [] => exact ⟨by simp [Typeahead.joinWord], by simp [Typeahead.joinWord], by simp [Typeahead.joinWord]⟩
  | [] :: words => exact absurd List.mem_cons_self hne
  | (next :: rest) :: words =>
    rw [List.forall_mem_cons] at hinside
    rw [Typeahead.joinWord]
    cases hstarts : next.startsWord with
    | true =>
      refine ⟨by simpa using hne, ?_, ?_⟩
      · exact List.forall_mem_cons.2 ⟨.singleton segment, List.forall_mem_cons.2 hinside⟩
      · exact .cons_cons ⟨List.cons_ne_nil _ _, List.cons_ne_nil _ _, by simp [goesOn, hstarts]⟩ hapart
    | false =>
      refine ⟨by simpa using hne, ?_, ?_⟩
      · exact List.forall_mem_cons.2 ⟨.cons_cons (by simp [goesOn, hstarts]) hinside.1, hinside.2⟩
      · cases words with
        | nil => exact .singleton _
        | cons word words =>
          obtain ⟨⟨hword, hnext, hends⟩, hlater⟩ := List.isChain_cons_cons.1 hapart
          exact .cons_cons ⟨List.cons_ne_nil _ _, hnext, by rwa [List.getLast_cons hword]⟩ hlater

theorem separate_wordsOf (segments : List Segment) : Separate (wordsOf segments) := by
  induction segments with
  | nil => exact ⟨List.not_mem_nil, nofun, .nil⟩
  | cons segment rest ih => exact ih.joinWord segment

end

/-- **Words are the longest runs that go on.** -/
theorem wordsOf_eq_splitBy (segments : List Segment) : wordsOf segments = segments.splitBy goesOn := by
  obtain ⟨hne, hinside, hapart⟩ := separate_wordsOf segments
  exact (List.splitBy_eq_iff.2 ⟨(flatten_wordsOf segments).symm, hne, hinside, hapart⟩).symm

/-! ## The borders -/

/-- The place after the last member with a property is the first place from which on none has it. -/
theorem length_sub_findIdx_reverse_le_iff {α : Type} {p : α → Bool} {items : List α} {stop : Nat} :
    items.length - items.reverse.findIdx p ≤ stop ↔ ∀ item ∈ items.drop stop, p item = false := by
  have hlength : items.length = items.reverse.length := List.length_reverse.symm
  have hdrop : ∀ item, item ∈ items.drop stop ↔ item ∈ items.reverse.take (items.length - stop) := by
    intro item
    rw [← List.reverse_drop, List.mem_reverse]
  simp only [hdrop, List.mem_take_iff_getElem]
  constructor
  · rintro hle item ⟨i, hi, rfl⟩
    exact List.not_of_lt_findIdx (by omega)
  · intro hnone
    by_contra hlt
    have hfound : items.reverse.findIdx p < items.reverse.length := by omega
    have hp := hnone _ ⟨items.reverse.findIdx p, by omega, rfl⟩
    rw [List.findIdx_getElem (w := hfound)] at hp
    cases hp

namespace WordSplit

variable {segments : List Segment}

theorem words_of (segments : List Segment) : (WordSplit.of segments).words = wordsOf segments := rfl

/-- **The second border** is after the first incomplete word, if there is one, and after all that was typed; and
it is the first such place. -/
theorem completionStart_le_iff {stop : Nat} :
    (WordSplit.of segments).completionStart ≤ stop ↔
      min ((WordSplit.of segments).firstIncomplete + 1) (wordsOf segments).length ≤ stop ∧
        ∀ word ∈ (wordsOf segments).drop stop, untouched word = true := by
  have huntouched : (∀ word ∈ (wordsOf segments).drop stop, untouched word = true) ↔
      (wordsOf segments).length - (wordsOf segments).reverse.findIdx (·.any (·.typed)) ≤ stop := by
    rw [length_sub_findIdx_reverse_le_iff]
    simp only [untouched, ← List.not_any_eq_all_not, Bool.not_eq_true']
  have hstart : (WordSplit.of segments).completionStart =
      if (WordSplit.of segments).firstIncomplete <
          (wordsOf segments).length - (wordsOf segments).reverse.findIdx (·.any (·.typed)) then
        (wordsOf segments).length - (wordsOf segments).reverse.findIdx (·.any (·.typed))
      else min ((WordSplit.of segments).firstIncomplete + 1) (wordsOf segments).length := rfl
  rw [huntouched, hstart]
  split <;> omega

theorem le_completionStart (segments : List Segment) :
    min ((WordSplit.of segments).firstIncomplete + 1) (wordsOf segments).length ≤
      (WordSplit.of segments).completionStart := (completionStart_le_iff.1 le_rfl).1

theorem firstIncomplete_le (segments : List Segment) :
    (WordSplit.of segments).firstIncomplete ≤ (wordsOf segments).length := List.findIdx_le_length

/-- The borders are in order, and none lies beyond the words. -/
theorem borders (segments : List Segment) :
    (WordSplit.of segments).firstIncomplete ≤ (WordSplit.of segments).completionStart ∧
      (WordSplit.of segments).completionStart ≤ (wordsOf segments).length := by
  have hfirst := firstIncomplete_le segments
  have hstart := le_completionStart segments
  refine ⟨by omega, completionStart_le_iff.2 ⟨Nat.min_le_right _ _, ?_⟩⟩
  simp [List.drop_length]

theorem firstIncomplete_lt_iff :
    (WordSplit.of segments).firstIncomplete < (wordsOf segments).length ↔
      ∃ word ∈ wordsOf segments, whollyTyped word = false := by
  rw [firstIncomplete_of, List.findIdx_lt_length]
  simp only [Bool.not_eq_true']

/-! ## The three parts -/

def matchedWords (split : WordSplit) : List (List Segment) := split.words.take split.firstIncomplete

/-- The words between the borders. -/
def suggestedWords (split : WordSplit) : List (List Segment) :=
  (split.words.take split.completionStart).drop split.firstIncomplete

/-- The words after the second border. -/
def laterWords (split : WordSplit) : List (List Segment) := split.words.drop split.completionStart

theorem suggestedWords_append_laterWords (segments : List Segment) :
    (WordSplit.of segments).suggestedWords ++ (WordSplit.of segments).laterWords =
      (wordsOf segments).drop (WordSplit.of segments).firstIncomplete := by
  have hle : (WordSplit.of segments).firstIncomplete ≤
      ((wordsOf segments).take (WordSplit.of segments).completionStart).length := by
    rw [List.length_take]
    exact Nat.le_min.2 ⟨(borders segments).1, firstIncomplete_le segments⟩
  conv_rhs =>
    rw [← List.take_append_drop (WordSplit.of segments).completionStart (wordsOf segments),
      List.drop_append_of_le_length hle]
  rfl

theorem parts_append (segments : List Segment) :
    (WordSplit.of segments).matchedWords ++ (WordSplit.of segments).suggestedWords ++
      (WordSplit.of segments).laterWords = wordsOf segments := by
  rw [List.append_assoc, suggestedWords_append_laterWords]
  exact List.take_append_drop _ _

theorem whollyTyped_of_mem_matchedWords {word : List Segment}
    (h : word ∈ (WordSplit.of segments).matchedWords) : whollyTyped word = true := by
  rw [matchedWords, firstIncomplete_of, words_of, ← List.takeWhile_eq_take_findIdx_not] at h
  exact List.mem_takeWhile_imp h

theorem untouched_of_mem_laterWords {word : List Segment} (h : word ∈ (WordSplit.of segments).laterWords) :
    untouched word = true :=
  (completionStart_le_iff.1 le_rfl).2 word h

theorem length_suggestedWords (segments : List Segment) :
    (WordSplit.of segments).suggestedWords.length =
      (WordSplit.of segments).completionStart - (WordSplit.of segments).firstIncomplete := by
  have hborders := borders segments
  rw [suggestedWords, List.length_drop, List.length_take, words_of]
  omega

/-- If all words were typed in full, none is suggested. -/
theorem suggestedWords_eq_nil (h : ∀ word ∈ wordsOf segments, whollyTyped word = true) :
    (WordSplit.of segments).suggestedWords = [] := by
  have hnone : ¬(WordSplit.of segments).firstIncomplete < (wordsOf segments).length := by
    rw [firstIncomplete_lt_iff]
    rintro ⟨word, hword, hincomplete⟩
    exact absurd (h word hword) (by simp [hincomplete])
  have hborders := borders segments
  rw [← List.length_eq_zero_iff, length_suggestedWords]
  omega

/-- Else the first suggested word is incomplete. -/
theorem exists_suggestedWords_eq_cons (h : ∃ word ∈ wordsOf segments, whollyTyped word = false) :
    ∃ first rest, (WordSplit.of segments).suggestedWords = first :: rest ∧ whollyTyped first = false := by
  have hlt := firstIncomplete_lt_iff.2 h
  have hstart := le_completionStart segments
  have hlength := length_suggestedWords segments
  cases hwords : (WordSplit.of segments).suggestedWords with
  | nil =>
    rw [hwords, List.length_nil] at hlength
    omega
  | cons first rest =>
    have hdrop := suggestedWords_append_laterWords segments
    rw [hwords, firstIncomplete_of, ← List.dropWhile_eq_drop_findIdx_not] at hdrop
    have hhead := List.head?_dropWhile_not whollyTyped (wordsOf segments)
    rw [← hdrop] at hhead
    exact ⟨first, rest, rfl, by simpa using hhead⟩

/-- **No shorter run will do:** if words from the first incomplete one on are cut after some word, and nothing was
typed after the cut, it is not before the second border. -/
theorem length_suggestedWords_le {run rest : List (List Segment)}
    (hcut : (WordSplit.of segments).suggestedWords ++ (WordSplit.of segments).laterWords = run ++ rest)
    (hrun : run ≠ []) (hrest : ∀ word ∈ rest, untouched word = true) :
    (WordSplit.of segments).suggestedWords.length ≤ run.length := by
  have hlength := List.length_pos_of_ne_nil hrun
  rw [suggestedWords_append_laterWords] at hcut
  have hstop : (WordSplit.of segments).completionStart ≤
      (WordSplit.of segments).firstIncomplete + run.length := by
    refine completionStart_le_iff.2 ⟨by omega, ?_⟩
    rw [← List.drop_drop, hcut, List.drop_left]
    exact hrest
  rw [length_suggestedWords]
  omega

end WordSplit

/-- **The display of any segments.** Take an output with any segments whatever.

- Its words are the longest runs of segments in which only the first may start a word. The first border is not
  after the second, and the second not beyond the words.
- What is matched, the suggestion and the completion are the texts of the words before, between and after the
  borders; one after the other they are the whole text.
- Every segment of what is matched was typed, and none of the completion was.
- If all words were typed in full, no word is suggested. Else the suggestion starts with the first word that was
  not: all words before it were typed in full, and some segment of it was not typed. Of the runs that start there,
  have a word at least, and have nothing typed after them, it is the shortest. -/
theorem Output.display_of_segments (out : Output) :
    let split := WordSplit.of out.segments
    (split.words = out.segments.splitBy goesOn ∧ split.firstIncomplete ≤ split.completionStart ∧
      split.completionStart ≤ split.words.length) ∧
    (split.matchedWords ++ split.suggestedWords ++ split.laterWords = split.words ∧
      out.matched = textOf split.matchedWords ∧ out.suggestion = textOf split.suggestedWords ∧
      out.completion = textOf split.laterWords ∧ out.matched ++ out.suggestion ++ out.completion = out.text) ∧
    (∀ segment ∈ split.matchedWords.flatten, segment.typed = true) ∧
    (∀ segment ∈ split.laterWords.flatten, segment.typed = false) ∧
    ((∀ word ∈ split.words, whollyTyped word = true) → split.suggestedWords = []) ∧
    ((∃ word ∈ split.words, whollyTyped word = false) →
      (∃ first rest, split.suggestedWords = first :: rest ∧ ∃ segment ∈ first, segment.typed = false) ∧
      ∀ run rest, split.suggestedWords ++ split.laterWords = run ++ rest → run ≠ [] →
        (∀ segment ∈ rest.flatten, segment.typed = false) → split.suggestedWords.length ≤ run.length) := by
  intro split
  have hparts : split.matchedWords ++ split.suggestedWords ++ split.laterWords = split.words :=
    WordSplit.parts_append out.segments
  refine ⟨⟨wordsOf_eq_splitBy out.segments, WordSplit.borders out.segments⟩, ⟨hparts, rfl, rfl, rfl, ?_⟩, ?_, ?_,
    WordSplit.suggestedWords_eq_nil, fun hincomplete => ⟨?_, fun run rest hcut hrun hrest => ?_⟩⟩
  · calc textOf split.matchedWords ++ textOf split.suggestedWords ++ textOf split.laterWords
        = textOf (split.matchedWords ++ split.suggestedWords ++ split.laterWords) := by simp [textOf]
      _ = textOf (wordsOf out.segments) := by rw [hparts]; rfl
      _ = out.text := by rw [textOf, flatten_wordsOf, Output.text]
  · intro segment hsegment
    obtain ⟨word, hword, hmem⟩ := List.mem_flatten.1 hsegment
    exact List.all_eq_true.1 (WordSplit.whollyTyped_of_mem_matchedWords hword) segment hmem
  · intro segment hsegment
    obtain ⟨word, hword, hmem⟩ := List.mem_flatten.1 hsegment
    simpa using List.all_eq_true.1 (WordSplit.untouched_of_mem_laterWords hword) segment hmem
  · obtain ⟨first, rest, hwords, hfirst⟩ := WordSplit.exists_suggestedWords_eq_cons hincomplete
    refine ⟨first, rest, hwords, ?_⟩
    simpa [whollyTyped] using hfirst
  · refine WordSplit.length_suggestedWords_le hcut hrun fun word hword => List.all_eq_true.2 fun segment hmem => ?_
    simp [hrest segment (List.mem_flatten.2 ⟨word, hword, hmem⟩)]

/-- A word that nothing starts, a word typed in part, one not typed, one typed that has no text, and one more. -/
def patchyOutput : Output where
  result := .null
  remaining := []
  segments :=
    [⟨"open ".toList, true, false⟩, ⟨"ma".toList, true, true⟩, ⟨"il".toList, false, false⟩,
      ⟨" now".toList, false, true⟩, ⟨[], true, true⟩, ⟨" please".toList, false, true⟩]
  score := .one

/-- The suggestion goes on to the last word with anything typed, though that has no text, and no further. -/
theorem patchyOutput_display :
    (patchyOutput.matched = "open ".toList ∧ patchyOutput.suggestion = "mail now".toList ∧
      patchyOutput.completion = " please".toList ∧ (WordSplit.of patchyOutput.segments).suggestedWords.length = 3) ∧
    ∀ run rest, (WordSplit.of patchyOutput.segments).suggestedWords ++
        (WordSplit.of patchyOutput.segments).laterWords = run ++ rest → run ≠ [] →
      (∀ segment ∈ rest.flatten, segment.typed = false) → 3 ≤ run.length := by
  have hshown : patchyOutput.matched = "open ".toList ∧ patchyOutput.suggestion = "mail now".toList ∧
      patchyOutput.completion = " please".toList ∧
      (WordSplit.of patchyOutput.segments).suggestedWords.length = 3 := by decide
  have hincomplete : ∃ word ∈ (WordSplit.of patchyOutput.segments).words, whollyTyped word = false := by decide
  obtain ⟨-, -, -, -, -, hsuggestion⟩ := patchyOutput.display_of_segments
  refine ⟨hshown, fun run rest hcut hrun hrest => ?_⟩
  rw [← hshown.2.2.2]
  exact (hsuggestion hincomplete).2 run rest hcut hrun hrest

end Typeahead
