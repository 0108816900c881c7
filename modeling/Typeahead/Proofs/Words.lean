import Mathlib.Data.List.TakeWhile
import Typeahead.Output.Words
import Typeahead.Proofs.Provenance

/-!
# The words of an output

Every literal with any text puts one word into an output (`Derives.wordsOf_eval`), and a suggestion is made only
where the input is used up. So the words taper off: up to some word they are typed in full, and after it
nothing is typed (`InTurn.tapering`). For such words the display is as simple as its names say: what is matched
are the words typed in full, the suggestion is the one word after them, and the completion all that follows.
-/

namespace Typeahead

variable {n : Nat}

/-- All of a word was typed. -/
def whollyTyped (word : List Segment) : Bool := word.all (·.typed)

/-- Nothing of a word was typed. -/
def untouched (word : List Segment) : Bool := word.all (!·.typed)

theorem not_whollyTyped_of_untouched {word : List Segment} (hne : word ≠ []) (h : untouched word = true) :
    whollyTyped word = false := by
  obtain ⟨first, rest, rfl⟩ := List.exists_cons_of_ne_nil hne
  simp only [untouched, whollyTyped, List.all_cons, Bool.and_eq_true, Bool.not_eq_true'] at h ⊢
  rw [h.1, Bool.false_and]

/-! ## Cutting into words -/

/-- The segments of one word: the first of them starts it, and no other. -/
def IsWord : List Segment → Prop
  | [] => False
  | first :: rest => first.startsWord = true ∧ ∀ segment ∈ rest, segment.startsWord = false

theorem joinWord_of_isWord (segment : Segment) {words : List (List Segment)}
    (h : ∀ word ∈ words, IsWord word) : joinWord segment words = [segment] :: words := by
  match words with
  | [] => rfl
  | [] :: words => exact absurd (h [] List.mem_cons_self) id
  | (next :: rest) :: words =>
    have hnext : next.startsWord = true := (h _ List.mem_cons_self).1
    rw [joinWord, if_pos hnext]

theorem foldr_joinWord (first : Segment) {rest : List Segment} {words : List (List Segment)}
    (hrest : ∀ segment ∈ rest, segment.startsWord = false) (hwords : ∀ word ∈ words, IsWord word) :
    (first :: rest).foldr joinWord words = (first :: rest) :: words := by
  induction rest generalizing first with
  | nil => exact joinWord_of_isWord first hwords
  | cons next rest ih =>
    rw [List.forall_mem_cons] at hrest
    rw [List.foldr_cons, ih next hrest.2, joinWord, if_neg (by simp [hrest.1])]

/-- **Words joined can be cut apart again.** -/
theorem wordsOf_flatten {words : List (List Segment)} (h : ∀ word ∈ words, IsWord word) :
    wordsOf words.flatten = words := by
  induction words with
  | nil => rfl
  | cons word words ih =>
    rw [List.forall_mem_cons] at h
    match word, h.1 with
    | first :: rest, hword =>
      rw [List.flatten_cons, wordsOf, List.foldr_append]
      change (first :: rest).foldr joinWord (wordsOf words.flatten) = _
      rw [ih h.2]
      exact foldr_joinWord first hword.2 h.2

/-! ## The display of words that taper off -/

/-- Up to some word all are typed in full, and of those after it nothing was typed. -/
def Tapering (words : List (List Segment)) : Prop :=
  ∀ word ∈ (words.dropWhile whollyTyped).tail, untouched word = true

namespace Tapering

variable {word : List Segment} {words : List (List Segment)}

theorem of_untouched (h : ∀ word ∈ words, untouched word = true) : Tapering words := fun word hword =>
  h word ((List.dropWhile_suffix whollyTyped).subset (List.mem_of_mem_tail hword))

/-- Before words that nothing was typed of there may be any word. -/
theorem cons_of_untouched (word : List Segment) (h : ∀ word ∈ words, untouched word = true) :
    Tapering (word :: words) := by
  by_cases hword : whollyTyped word = true
  · rw [Tapering, List.dropWhile_cons_of_pos hword]
    exact of_untouched h
  · rwa [Tapering, List.dropWhile_cons_of_neg hword]

/-- Before words that taper off there may be any that was typed in full. -/
theorem cons (hword : whollyTyped word = true) (h : Tapering words) : Tapering (word :: words) := by
  rwa [Tapering, List.dropWhile_cons_of_pos hword]

end Tapering

theorem WordSplit.firstIncomplete_of (segments : List Segment) :
    (WordSplit.of segments).firstIncomplete = (wordsOf segments).findIdx (!whollyTyped ·) := by
  simp only [WordSplit.of, whollyTyped, List.not_all_eq_any_not]

/-- The suggestion is one word at most. -/
theorem WordSplit.completionStart_of {segments : List Segment} (h : Tapering (wordsOf segments)) :
    (WordSplit.of segments).completionStart =
      min ((WordSplit.of segments).firstIncomplete + 1) (wordsOf segments).length := by
  rw [Tapering, List.dropWhile_eq_drop_findIdx_not, List.tail_drop,
    ← WordSplit.firstIncomplete_of segments] at h
  set first := (WordSplit.of segments).firstIncomplete with hfirst
  set words := wordsOf segments with hwords
  -- seen from the end, the words after the first incomplete one come first, and none of them has any input
  have hlater : ((words.drop (first + 1)).reverse).findIdx (·.any (·.typed)) =
      (words.drop (first + 1)).reverse.length := by
    refine List.findIdx_eq_length.2 fun word hword => ?_
    have huntouched := h word (List.mem_reverse.1 hword)
    rwa [untouched, ← List.not_any_eq_all_not, Bool.not_eq_true'] at huntouched
  have hreverse : words.length - (first + 1) ≤ words.reverse.findIdx (·.any (·.typed)) := by
    have hsplit : words.reverse = (words.drop (first + 1)).reverse ++ (words.take (first + 1)).reverse := by
      rw [← List.reverse_append, List.take_append_drop]
    rw [hsplit, List.findIdx_append, hlater, if_neg (lt_irrefl _), List.length_reverse, List.length_drop]
    exact Nat.le_add_left _ _
  have hstart : (WordSplit.of segments).completionStart =
      if first < words.length - words.reverse.findIdx (·.any (·.typed)) then
        words.length - words.reverse.findIdx (·.any (·.typed))
      else min (first + 1) words.length := rfl
  rw [hstart]
  split <;> omega

section

variable {out : Output}

theorem Output.matched_eq_takeWhile :
    out.matched = textOf ((wordsOf out.segments).takeWhile whollyTyped) := by
  rw [List.takeWhile_eq_take_findIdx_not, ← WordSplit.firstIncomplete_of]
  rfl

theorem Output.suggestion_of_tapering (h : Tapering (wordsOf out.segments)) :
    out.suggestion = textOf ((wordsOf out.segments).dropWhile whollyTyped).head?.toList := by
  rw [← List.take_one, List.dropWhile_eq_drop_findIdx_not, ← WordSplit.firstIncomplete_of]
  change textOf (((wordsOf out.segments).take (WordSplit.of out.segments).completionStart).drop
    (WordSplit.of out.segments).firstIncomplete) = _
  rw [WordSplit.completionStart_of h, List.drop_take]
  congr 1
  rw [List.take_eq_take_iff, List.length_drop]
  omega

theorem Output.completion_of_tapering (h : Tapering (wordsOf out.segments)) :
    out.completion = textOf ((wordsOf out.segments).dropWhile whollyTyped).tail := by
  rw [List.dropWhile_eq_drop_findIdx_not, List.tail_drop, ← WordSplit.firstIncomplete_of]
  change textOf ((wordsOf out.segments).drop (WordSplit.of out.segments).completionStart) = _
  rw [WordSplit.completionStart_of h]
  congr 1
  rw [List.drop_eq_drop_iff]
  omega

/-- Of words that taper off, those typed in full stand at the start. -/
theorem Tapering.filter_whollyTyped {words : List (List Segment)} (h : Tapering words)
    (hne : ∀ word ∈ words, word ≠ []) : words.filter whollyTyped = words.takeWhile whollyTyped := by
  have hrest : (words.dropWhile whollyTyped).filter whollyTyped = [] := by
    cases hdrop : words.dropWhile whollyTyped with
    | nil => rfl
    | cons first later =>
      have hfirst : whollyTyped first = false := by
        simpa [hdrop] using List.head?_dropWhile_not whollyTyped words
      refine List.filter_eq_nil_iff.2 fun word hword => ?_
      rcases List.mem_cons.1 hword with rfl | hlater
      · simp [hfirst]
      · have hmem : word ∈ words := (List.dropWhile_suffix whollyTyped).subset (hdrop ▸ hword)
        have huntouched : untouched word = true := h word (by rwa [hdrop])
        simp [not_whollyTyped_of_untouched (hne word hmem) huntouched]
  calc words.filter whollyTyped
      = (words.takeWhile whollyTyped ++ words.dropWhile whollyTyped).filter whollyTyped := by
        rw [List.takeWhile_append_dropWhile]
    _ = words.takeWhile whollyTyped := by
        rw [List.filter_append, hrest, List.append_nil, List.filter_eq_self]
        exact fun word => List.mem_takeWhile_imp

end

/-! ## The words of literals -/

theorem isWord_segmentsOf {text : Text} {marks : List Bool} (h : segmentsOf text marks ≠ []) :
    IsWord (segmentsOf text marks) := by
  rw [segmentsOf] at h ⊢
  cases hruns : runsOf text marks with
  | nil => simp [hruns] at h
  | cons run runs =>
    refine ⟨rfl, fun segment hsegment => ?_⟩
    obtain ⟨later, -, rfl⟩ := List.mem_map.1 hsegment
    rfl

namespace Literal

variable {l : Literal} {leniency : Leniency} {input : Text} {out : Output}

/-- A literal without text puts nothing into an output, and any other puts one word. -/
theorem read?_word (h : l.read? leniency input = some out) :
    out.text = [] ∧ out.segments = [] ∨ out.text ≠ [] ∧ IsWord out.segments := by
  have htext := (read?_shows h).1
  obtain ⟨alignment, -, rfl⟩ := Option.map_eq_some_iff.1 h
  by_cases hnil : l.text = []
  · refine .inl ⟨htext.trans hnil, ?_⟩
    simp [readingOf, segmentsOf, runsOf, hnil]
  · refine .inr ⟨htext ▸ hnil, isWord_segmentsOf fun hsegments => hnil ?_⟩
    rw [← htext, Output.text, show (l.readingOf alignment).segments = [] from hsegments, List.flatMap_nil]

theorem read?_nil (h : l.read? leniency [] = some out) :
    out.remaining = [] ∧ untouched out.segments = true := by
  rw [read?, alignWith_nil] at h
  cases h
  refine ⟨rfl, List.all_eq_true.2 fun segment hsegment => ?_⟩
  simp [List.eq_of_mem_replicate (mark_mem_of_mem_segmentsOf hsegment)]

/-- A literal that leaves some of the input was typed in full. -/
theorem whollyTyped_of_remaining (h : l.read? leniency input = some out) (hleft : out.remaining ≠ []) :
    whollyTyped out.segments = true := by
  obtain ⟨alignment, halign, rfl⟩ := Option.map_eq_some_iff.1 h
  have hmarks := marks_of_remaining halign hleft
  refine List.all_eq_true.2 fun segment hsegment => ?_
  exact List.eq_of_mem_replicate (hmarks ▸ mark_mem_of_mem_segmentsOf hsegment)

end Literal

/-- The words that readings of literals put into an output: one for each that has any text. -/
def wordsIn (leaves : List Output) : List (List Segment) :=
  (leaves.filter (!·.text.isEmpty)).map (·.segments)

theorem wordsIn_cons_nil {leaf : Output} (h : leaf.text = []) (leaves : List Output) :
    wordsIn (leaf :: leaves) = wordsIn leaves := by
  rw [wordsIn, List.filter_cons_of_neg (by simp [h]), ← wordsIn]

theorem wordsIn_cons {leaf : Output} (h : leaf.text ≠ []) (leaves : List Output) :
    wordsIn (leaf :: leaves) = leaf.segments :: wordsIn leaves := by
  rw [wordsIn, List.filter_cons_of_pos (by simp [h]), List.map_cons, ← wordsIn]

namespace InTurn

variable {leniency : Leniency} {kind : Literal → Prop} {input : Text} {leaves : List Output}

theorem isWord_of_mem_wordsIn (h : InTurn leniency kind input leaves) :
    ∀ word ∈ wordsIn leaves, IsWord word := by
  intro word hword
  obtain ⟨leaf, hleaf, rfl⟩ := List.mem_map.1 hword
  obtain ⟨hmem, htext⟩ := List.mem_filter.1 hleaf
  obtain ⟨l, given, -, hread⟩ := h.exists_read leaf hmem
  rcases Literal.read?_word hread with ⟨hnil, -⟩ | ⟨-, hisWord⟩
  · simp [hnil] at htext
  · exact hisWord

/-- No segment is left out. -/
theorem flatten_wordsIn (h : InTurn leniency kind input leaves) :
    (wordsIn leaves).flatten = leaves.flatMap (·.segments) := by
  induction h with
  | nil => rfl
  | cons _ hread _ ih =>
    rcases Literal.read?_word hread with ⟨hnil, hsegments⟩ | ⟨hne, -⟩
    · rw [wordsIn_cons_nil hnil, List.flatMap_cons, hsegments, List.nil_append, ih]
    · rw [wordsIn_cons hne, List.flatten_cons, List.flatMap_cons, ih]

/-- Literals read when no input is left are all suggestion, and leave none. -/
theorem untouched_of_nil (h : InTurn leniency kind [] leaves) :
    Derivation.rest leaves [] = [] ∧ ∀ word ∈ wordsIn leaves, untouched word = true := by
  have hall : ∀ leaf ∈ leaves, leaf.remaining = [] ∧ untouched leaf.segments = true := by
    intro leaf hleaf
    obtain ⟨l, -, hread⟩ := h.exists_read_nil leaf hleaf
    exact Literal.read?_nil hread
  constructor
  · rw [Derivation.rest]
    cases hlast : leaves.getLast? with
    | none => rfl
    | some leaf => exact (hall leaf (List.mem_of_getLast? hlast)).1
  · intro word hword
    obtain ⟨leaf, hleaf, rfl⟩ := List.mem_map.1 hword
    exact (hall leaf (List.mem_filter.1 hleaf).1).2

/-- **Words taper off**, and as long as input is left over they are all typed in full. -/
theorem tapering (h : InTurn leniency kind input leaves) :
    Tapering (wordsIn leaves) ∧
      (Derivation.rest leaves input ≠ [] → ∀ word ∈ wordsIn leaves, whollyTyped word = true) := by
  induction h with
  | nil => exact ⟨.of_untouched nofun, nofun⟩
  | @cons l input out outs _ hread hrest ih =>
    have hleaves : Derivation.rest (out :: outs) input = Derivation.rest outs out.remaining :=
      Derivation.rest_append [out] outs input
    rw [hleaves]
    by_cases hleft : out.remaining = []
    · -- the input ends here, so that all later words are suggested
      rw [hleft] at hrest ⊢
      obtain ⟨hnone, hlater⟩ := hrest.untouched_of_nil
      refine ⟨?_, fun hne => absurd hnone hne⟩
      rcases Literal.read?_word hread with ⟨hnil, -⟩ | ⟨hne, -⟩
      · rw [wordsIn_cons_nil hnil]
        exact .of_untouched hlater
      · rw [wordsIn_cons hne]
        exact .cons_of_untouched _ hlater
    · rcases Literal.read?_word hread with ⟨hnil, -⟩ | ⟨hne, -⟩
      · rwa [wordsIn_cons_nil hnil]
      · have htyped := Literal.whollyTyped_of_remaining hread hleft
        rw [wordsIn_cons hne]
        exact ⟨.cons htyped ih.1, fun hend => List.forall_mem_cons.2 ⟨htyped, ih.2 hend⟩⟩

end InTurn

/-! ## The words of an output -/

theorem IsWord.ne_nil {word : List Segment} (h : IsWord word) : word ≠ [] := by
  rintro rfl
  exact h

theorem Derives.wordsOf_eval {ctx : Context n} {node : Node n} {trace : Trace} {input : Text} {d : Derivation}
    (h : Derives ctx node trace input d) : wordsOf (d.eval input).segments = wordsIn d.leaves := by
  rw [(d.eval_parts input).1, ← h.leaves_inTurn.flatten_wordsIn]
  exact wordsOf_flatten h.leaves_inTurn.isWord_of_mem_wordsIn

/-- What is matched was typed. -/
theorem Output.matched_prefix_typedText (out : Output) : out.matched <+: out.typedText := by
  have hsegments : out.segments = ((wordsOf out.segments).takeWhile whollyTyped).flatten ++
      ((wordsOf out.segments).dropWhile whollyTyped).flatten := by
    rw [← List.flatten_append, List.takeWhile_append_dropWhile, flatten_wordsOf]
  have htyped : ∀ segment ∈ ((wordsOf out.segments).takeWhile whollyTyped).flatten, segment.typed = true := by
    intro segment hsegment
    obtain ⟨word, hword, hmem⟩ := List.mem_flatten.1 hsegment
    have hall : whollyTyped word = true := List.mem_takeWhile_imp hword
    exact List.all_eq_true.1 hall segment hmem
  rw [typedText, hsegments, List.filter_append, List.filter_eq_self.2 htyped, List.flatMap_append,
    matched_eq_takeWhile]
  exact List.prefix_append _ _

namespace Context

variable (ctx : Context n) (root : Placed n) (input : Text)

/-- **The words of an output taper off.** An output comes from a derivation, and has one word for each literal
of it that has any text. Up to some word all are typed in full, after it nothing is typed, and where input is
left over all are typed in full. So what is matched are the words typed in full, the suggestion is the first
word that is not, if there is one, and the completion are words that nothing was typed of. With case
significant, what is matched is a beginning of the input. -/
theorem words_of_output {out : Output} (h : out ∈ (ctx.resolve root input).outputs) :
    (∃ d, Derives ctx root.node [] input d ∧ d.eval input = out) ∧
    (∀ d, Derives ctx root.node [] input d → d.eval input = out →
      (∀ leaf ∈ d.leaves, ∃ l, Tries ctx root.node [] input l ∧ leaf.text = l.text) ∧
      wordsOf out.segments = (d.leaves.filter (!·.text.isEmpty)).map (·.segments)) ∧
    (∃ k, (∀ word ∈ (wordsOf out.segments).take k, whollyTyped word = true) ∧
      ∀ word ∈ (wordsOf out.segments).drop (k + 1), untouched word = true) ∧
    (out.remaining ≠ [] → ∀ word ∈ wordsOf out.segments, whollyTyped word = true) ∧
    out.matched = textOf ((wordsOf out.segments).filter whollyTyped) ∧
    out.suggestion = textOf ((wordsOf out.segments).find? (!whollyTyped ·)).toList ∧
    (∃ later, later <:+ wordsOf out.segments ∧ (∀ word ∈ later, untouched word = true) ∧
      out.completion = textOf later) ∧
    (ctx.leniency.ignoreCase = false → out.matched <+: input) := by
  obtain ⟨d, hd, heval⟩ := ctx.derived_of_mem_outputs h
  have hinTurn := hd.leaves_inTurn
  have hwords : wordsOf out.segments = wordsIn d.leaves := heval ▸ hd.wordsOf_eval
  have htapering : Tapering (wordsOf out.segments) := hwords ▸ hinTurn.tapering.1
  have hne : ∀ word ∈ wordsOf out.segments, word ≠ [] := fun word hword =>
    (hinTurn.isWord_of_mem_wordsIn word (hwords ▸ hword)).ne_nil
  have hlater : ∀ word ∈ ((wordsOf out.segments).dropWhile whollyTyped).tail, untouched word = true :=
    htapering
  refine ⟨⟨d, hd, heval⟩, ?_, ?_, ?_, ?_, ?_, ?_, ?_⟩
  · rintro d' hd' rfl
    refine ⟨fun leaf hleaf => ?_, hd'.wordsOf_eval⟩
    obtain ⟨l, given, htried, hread⟩ := hd'.leaves_inTurn.exists_read leaf hleaf
    exact ⟨l, htried, (Literal.read?_shows hread).1⟩
  · refine ⟨(wordsOf out.segments).findIdx (!whollyTyped ·), ?_, ?_⟩
    · rw [← List.takeWhile_eq_take_findIdx_not]
      exact fun word => List.mem_takeWhile_imp
    · rwa [← List.tail_drop, ← List.dropWhile_eq_drop_findIdx_not]
  · intro hleft
    rw [hwords]
    refine hinTurn.tapering.2 ?_
    rwa [← (d.eval_parts input).2.2, heval]
  · rw [Output.matched_eq_takeWhile, htapering.filter_whollyTyped hne]
  · rw [Output.suggestion_of_tapering htapering, List.find?_eq_head?_dropWhile_not]
    simp
  · refine ⟨_, (List.tail_suffix _).trans (List.dropWhile_suffix _), hlater, ?_⟩
    exact Output.completion_of_tapering htapering
  · intro hcase
    have haccounts := (ctx.upheld_accounts.resolveTraced root [] input trivial).outputs out h
    rw [hcase] at haccounts
    exact out.matched_prefix_typedText.trans ⟨_, haccounts.append_eq⟩

end Context

/-- Applications, to be found by any of their letters. -/
def mailContext : Context 1 where
  phrases _ :=
    { identity := "App"
      describe := fun _ => .ok <| .sequence none [.text "", .text "mail"] }
  registry := {}
  leniency := { fuzzy := true }

def mailRoot : Placed 1 :=
  ⟨⟨0, []⟩, .sequence none [.text "open ", .element (some "app") ⟨⟨0, Nat.one_pos⟩, []⟩, .text " now"]⟩

/-- The end of its name is typed, and its beginning suggested. -/
theorem mailContext_words :
    ∃ out ∈ (mailContext.resolve mailRoot "open il".toList).outputs,
      (wordsOf out.segments).map (·.map (·.typed)) = [[true], [false, true], [false]] ∧
      out.matched = "open ".toList ∧ out.matched = textOf ((wordsOf out.segments).filter whollyTyped) ∧
      out.suggestion = "mail".toList ∧
      out.suggestion = textOf ((wordsOf out.segments).find? (!whollyTyped ·)).toList ∧
      out.completion = " now".toList ∧
      (∃ later, later <:+ wordsOf out.segments ∧ (∀ word ∈ later, untouched word = true) ∧
        out.completion = textOf later) ∧
      out.matched <+: "open il".toList := by
  have hany : (mailContext.resolve mailRoot "open il".toList).outputs.any (fun out =>
      (wordsOf out.segments).map (·.map (·.typed)) = [[true], [false, true], [false]] ∧
      out.matched = "open ".toList ∧ out.suggestion = "mail".toList ∧ out.completion = " now".toList) = true := by
    decide +kernel
  obtain ⟨out, hout, hshown⟩ := List.any_eq_true.1 hany
  obtain ⟨hmarks, hmatched, hsuggestion, hcompletion⟩ := of_decide_eq_true hshown
  obtain ⟨-, -, -, -, htyped, hfirst, hlater, hprefix⟩ := mailContext.words_of_output mailRoot _ hout
  exact ⟨out, hout, hmarks, hmatched, htyped, hsuggestion, hfirst, hcompletion, hlater, hprefix rfl⟩

end Typeahead
