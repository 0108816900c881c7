import Typeahead.Proofs.Leniency
import Typeahead.Proofs.Scores
import Typeahead.Search.Patterns

/-!
# The best fit of a literal

With case significant, a fuzzy literal is read in three attempts: in lockstep, in one piece, scattered. Taken
together they find the best of all ways to lay the input on the text. Each way to do so has a tier: one if the
typed characters come first, a half if they stand together further on, a quarter if they stand apart. Main
statement: `Literal.reading_is_best_fit`.
-/

namespace Typeahead

/-! ## Ways to lay input on a text -/

/-- A way to lay all of the input on a text, in order: every character of the text has a mark, and those that
are marked spell the input. -/
structure Lays (text input : Text) (marks : List Bool) : Prop where
  covers : marks.length = text.length
  spells : markedPart text marks = input

/-- The marked characters come first. -/
def marksFirst (marks : List Bool) : Bool := (marks.dropWhile id).all (!·)

/-- How good a way to lay input on a text is: whether the marked characters come first, stand together, or stand
apart. -/
def tierOf (marks : List Bool) : Binary64 :=
  if marksFirst marks then .one
  else if marksFirst (marks.dropWhile (!·)) then .half
  else .quarter

/-- Text and input agree until one of them ends. -/
def InStep (text input : Text) : Prop := text <+: input ∨ input <+: text

instance (text input : Text) : Decidable (InStep text input) := inferInstanceAs (Decidable (_ ∨ _))

def bestTier (text input : Text) : Binary64 :=
  if InStep text input then .one else if input <:+: text then .half else .quarter

theorem marksFirst_replicate (typed untyped : Nat) :
    marksFirst (List.replicate typed true ++ List.replicate untyped false) = true := by
  induction typed with
  | zero => cases untyped <;> simp [marksFirst, List.replicate_succ]
  | succ typed ih =>
    rw [List.replicate_succ, List.cons_append]
    exact ih

theorem marksFirst_dropWhile_replicate (before typed untyped : Nat) :
    marksFirst ((List.replicate before false ++ List.replicate typed true ++
      List.replicate untyped false).dropWhile (!·)) = true := by
  induction before with
  | zero =>
    cases typed with
    | zero => cases untyped <;> simp [marksFirst]
    | succ typed => exact marksFirst_replicate (typed + 1) untyped
  | succ before ih =>
    rw [List.replicate_succ, List.cons_append, List.cons_append]
    exact ih

theorem markedPart_of_all_not {marks : List Bool} (h : marks.all (!·) = true) (text : Text) :
    markedPart text marks = [] := by
  have hfalse : ∀ mark ∈ marks, mark = false := by simpa using h
  unfold markedPart
  rw [List.map_eq_nil_iff, List.filter_eq_nil_iff]
  intro entry hentry
  simp [hfalse entry.2 (List.of_mem_zip hentry).2]

theorem markedPart_isPrefix {marks : List Bool} (h : marksFirst marks = true) (text : Text) :
    markedPart text marks <+: text := by
  induction text generalizing marks with
  | nil => simp [markedPart]
  | cons c text ih =>
    cases marks with
    | nil => simp [markedPart]
    | cons mark marks =>
      cases mark with
      | true =>
        rw [markedPart_cons]
        exact (List.prefix_cons_inj c).2 (ih h)
      | false =>
        have hrest : (false :: marks).all (!·) = true := h
        rw [markedPart_of_all_not hrest]
        exact List.nil_prefix

theorem markedPart_isInfix {marks : List Bool} (h : marksFirst (marks.dropWhile (!·)) = true) (text : Text) :
    markedPart text marks <:+: text := by
  induction text generalizing marks with
  | nil => simp [markedPart]
  | cons c text ih =>
    cases marks with
    | nil => simp [markedPart]
    | cons mark marks =>
      cases mark with
      | true => exact (markedPart_isPrefix h _).isInfix
      | false =>
        have hrest : markedPart text marks <:+: text := ih h
        rw [markedPart_cons]
        exact hrest.trans (List.suffix_cons c text).isInfix

namespace Lays

variable {text input : Text} {marks : List Bool}

/-- Input whose characters come first is a beginning of the text. -/
theorem inStep (h : Lays text input marks) (hfirst : marksFirst marks = true) : InStep text input := by
  rw [← h.spells]
  exact .inr (markedPart_isPrefix hfirst text)

theorem isInfix (h : Lays text input marks) (hpiece : marksFirst (marks.dropWhile (!·)) = true) :
    input <:+: text := by
  rw [← h.spells]
  exact markedPart_isInfix hpiece text

/-- **No way to lay the input is better than the best tier.** -/
theorem tier_le (h : Lays text input marks) : (tierOf marks).rank ≤ (bestTier text input).rank := by
  unfold tierOf bestTier
  by_cases hfirst : marksFirst marks = true
  · simp [hfirst, h.inStep hfirst]
  · by_cases hpiece : marksFirst (marks.dropWhile (!·)) = true
    · simp only [hfirst, hpiece, h.isInfix hpiece, if_true]
      by_cases hstep : InStep text input <;> simp only [hstep, if_true, if_false] <;> decide
    · simp only [hfirst, hpiece]
      by_cases hstep : InStep text input
      · simp only [hstep, if_true]
        decide
      · by_cases hoccurs : input <:+: text <;> simp only [hstep, hoccurs, if_true, if_false] <;> decide

end Lays

/-! ## In one piece -/

/-- A piece of a text, and no such piece stands further to the left. -/
structure Leftmost (text before piece after : Text) : Prop where
  text_eq : text = before ++ piece ++ after
  least : ∀ before' after', text = before' ++ piece ++ after' → before.length ≤ before'.length

theorem leftmost_of_find? {search : Search} {text input : Text} {start : Nat}
    (h : search.find? false text input = some start) :
    ∃ before after, Leftmost text before input after ∧ start = before.length := by
  obtain ⟨⟨before, after, htext, hstart⟩, hleast⟩ := search.find?_eq_some_iff.1 h
  refine ⟨before, after, ⟨htext, fun before' after' htext' => ?_⟩, hstart.symm⟩
  rw [hstart]
  exact hleast before'.length ⟨before', after', htext', rfl⟩

/-! ## What the three attempts find -/

theorem lockstep?_isSome_iff {text input : Text} :
    (lockstep? false text input).isSome = true ↔ InStep text input := by
  have hsame {typed consumed : Text} :
      List.Forall₂ (fun c d => sameLetter false c d = true) typed consumed ↔ typed = consumed := by
    simp [sameLetter_false_iff, List.forall₂_eq_eq_eq]
  constructor
  · intro h
    obtain ⟨alignment, halign⟩ := Option.isSome_iff_exists.1 h
    rcases lockstep?_agrees halign with ⟨consumed, hinput, hall⟩ | ⟨-, typed, untyped, htext, hall⟩
    · rw [hsame] at hall
      exact .inl ⟨alignment.remaining, by rw [hinput, hall]⟩
    · rw [hsame] at hall
      exact .inr ⟨untyped, by rw [htext, hall]⟩
  · rintro (⟨rest, rfl⟩ | ⟨untyped, rfl⟩)
    · obtain ⟨alignment, halign, -⟩ := lockstep?_of_text (hsame.2 (Eq.refl text)) rest
      rw [halign]
      rfl
    · obtain ⟨alignment, halign, -⟩ := lockstep?_of_input (hsame.2 (Eq.refl input)) untyped
      rw [halign]
      rfl

theorem alignWith_beginning (search : Search) (fuzzy : Bool) (input untyped : Text) :
    alignWith search fuzzy false (input ++ untyped) input =
      some ⟨List.replicate input.length true ++ List.replicate untyped.length false, [], .one⟩ := by
  cases untyped with
  | nil =>
    have halign := alignWith_append search fuzzy false input []
    rw [List.append_nil] at halign
    simpa using halign
  | cons c untyped =>
    have hall : List.Forall₂ (fun c d => sameLetter false c d = true) input input :=
      List.forall₂_same.2 fun c _ => sameLetter_refl false c
    have hstrip := stripShared_agreeing hall (c :: untyped) []
    rw [List.append_nil] at hstrip
    rw [alignWith, lockstep?, hstrip]
    simp [stripShared]

theorem scattered?_isSome_iff {text input : Text} :
    (scattered? false text input).isSome = true ↔ input.Sublist text := by
  have hsame : (fun d c => sameLetter false c d = true) = Eq := by
    funext d c
    exact propext (sameLetter_false_iff.trans eq_comm)
  rw [scattered?, Option.isSome_map, scatterFrom_isSome_iff, List.sublistForall₂_iff, hsame,
    List.forall₂_eq_eq_eq]
  simp

theorem lays_of_alignWith {search : Search} {fuzzy : Bool} {text input : Text} {alignment : Alignment}
    (h : alignWith search fuzzy false text input = some alignment) (hused : alignment.remaining = []) :
    Lays text input alignment.marks := by
  have hspells := (alignWith_accounts h).append_eq
  rw [hused, List.append_nil] at hspells
  exact ⟨length_marks_alignWith h, hspells⟩

/-- **What an alignment can be**, with case significant and the input to be searched for: the text and what follows
it, a beginning of the text, the leftmost piece of it that equals the input, or, if there is no such piece, the
input scattered over the text. A piece at the very start is a beginning, so that it is found in lockstep. -/
theorem alignWith_strict_cases {search : Search} {text input : Text} {alignment : Alignment}
    (hbuilds : search.builds false input = true)
    (h : alignWith search true false text input = some alignment) :
    (∃ rest, rest ≠ [] ∧ input = text ++ rest ∧
      alignment = ⟨List.replicate text.length true, rest, .one⟩) ∨
    (∃ untyped, text = input ++ untyped ∧
      alignment = ⟨List.replicate input.length true ++ List.replicate untyped.length false, [], .one⟩) ∨
    (¬InStep text input ∧ ∃ before after, Leftmost text before input after ∧
      alignment = ⟨List.replicate before.length false ++ List.replicate input.length true ++
        List.replicate after.length false, [], .half⟩) ∨
    (¬InStep text input ∧ ¬input <:+: text ∧ alignment.remaining = [] ∧ alignment.score = .quarter) := by
  by_cases hstep : InStep text input
  · rcases hstep with ⟨rest, rfl⟩ | ⟨untyped, rfl⟩
    · rw [alignWith_append, Option.some.injEq] at h
      by_cases hrest : rest = []
      · exact .inr (.inl ⟨[], by simp [hrest], by simp [← h, hrest]⟩)
      · exact .inl ⟨rest, hrest, rfl, h.symm⟩
    · rw [alignWith_beginning, Option.some.injEq] at h
      exact .inr (.inl ⟨untyped, rfl, h.symm⟩)
  · have hnone : lockstep? false text input = none := by
      rw [← Option.not_isSome_iff_eq_none, lockstep?_isSome_iff]
      exact hstep
    simp only [alignWith, hnone, if_true, fuzzyAlign?, hbuilds, contiguous?] at h
    cases hfound : search.find? false text input with
    | some start =>
      obtain ⟨before, after, hleftmost, rfl⟩ := leftmost_of_find? hfound
      have hbefore : before.length ≠ 0 := by
        intro hzero
        obtain rfl := List.length_eq_zero_iff.1 hzero
        exact hstep (.inr ⟨after, hleftmost.text_eq.symm⟩)
      have hafter : text.length - before.length - input.length = after.length := by
        have hlength := congrArg List.length hleftmost.text_eq
        simp only [List.length_append] at hlength
        omega
      simp only [hfound, Option.map_some, Option.some.injEq, if_neg hbefore, hafter] at h
      exact .inr (.inr (.inl ⟨hstep, before, after, hleftmost, h.symm⟩))
    | none =>
      simp only [hfound, Option.map_none] at h
      obtain ⟨marks, -, rfl⟩ := Option.map_eq_some_iff.1 h
      refine .inr (.inr (.inr ⟨hstep, ?_, rfl, rfl⟩))
      have hnone : ¬(search.find? false text input).isSome = true := by
        rw [Option.not_isSome_iff_eq_none]
        exact hfound
      rwa [Search.isSome_find?_iff] at hnone

/-! ## The best fit -/

/-- An alignment of input with a text that is as good as there can be. -/
structure BestFit (text input : Text) (alignment : Alignment) : Prop where
  /-- After the whole text, what follows it is left. -/
  rest : text <+: input → input = text ++ alignment.remaining
  /-- In all other cases nothing is left. -/
  used_up : ¬text <+: input → alignment.remaining = []
  score_eq : alignment.score = bestTier text input
  best : ∀ marks, Lays text input marks → (tierOf marks).rank ≤ alignment.score.rank
  attained : input.Sublist text → Lays text input alignment.marks ∧ tierOf alignment.marks = alignment.score
  /-- What occurs in one piece is found at its leftmost place. -/
  leftmost : input <:+: text → ∃ before after, Leftmost text before input after ∧
    alignment.marks = List.replicate before.length false ++ List.replicate input.length true ++
      List.replicate after.length false

theorem not_append_sublist {text rest : Text} (hrest : rest ≠ []) : ¬(text ++ rest).Sublist text := by
  intro hsub
  have hlength := hsub.length_le
  have hpos := List.length_pos_of_ne_nil hrest
  rw [List.length_append] at hlength
  omega

section

variable {search : Search} {text input : Text} {alignment : Alignment}

theorem remaining_of_alignWith (hbuilds : search.builds false input = true)
    (h : alignWith search true false text input = some alignment) :
    (text <+: input → input = text ++ alignment.remaining) ∧ (¬text <+: input → alignment.remaining = []) := by
  rcases alignWith_strict_cases hbuilds h with ⟨rest, -, rfl, rfl⟩ | ⟨untyped, rfl, rfl⟩ |
    ⟨hstep, before, after, -, rfl⟩ | ⟨hstep, -, hused, -⟩
  · exact ⟨fun _ => rfl, fun hno => absurd (List.prefix_append text rest) hno⟩
  · refine ⟨fun hwhole => ?_, fun _ => rfl⟩
    -- text and input are beginnings of each other
    have hequal := hwhole.eq_of_length_le (by simp)
    simpa using hequal.symm
  · exact ⟨fun hwhole => absurd (.inl hwhole) hstep, fun _ => rfl⟩
  · exact ⟨fun hwhole => absurd (.inl hwhole) hstep, fun _ => hused⟩

theorem score_eq_bestTier (hbuilds : search.builds false input = true)
    (h : alignWith search true false text input = some alignment) :
    alignment.score = bestTier text input := by
  unfold bestTier
  rcases alignWith_strict_cases hbuilds h with ⟨rest, -, rfl, rfl⟩ | ⟨untyped, rfl, rfl⟩ |
    ⟨hstep, before, after, hleftmost, rfl⟩ | ⟨hstep, hpiece, -, hscore⟩
  · rw [if_pos (.inl (List.prefix_append text rest))]
  · rw [if_pos (.inr (List.prefix_append input untyped))]
  · rw [if_neg hstep, if_pos ⟨before, after, hleftmost.text_eq.symm⟩]
  · rw [if_neg hstep, if_neg hpiece, hscore]

theorem tierOf_marks (hbuilds : search.builds false input = true)
    (h : alignWith search true false text input = some alignment) (hsub : input.Sublist text) :
    Lays text input alignment.marks ∧ tierOf alignment.marks = alignment.score := by
  have hlays := lays_of_alignWith h
  unfold tierOf
  rcases alignWith_strict_cases hbuilds h with ⟨rest, hrest, rfl, rfl⟩ | ⟨untyped, rfl, rfl⟩ |
    ⟨hstep, before, after, hleftmost, rfl⟩ | ⟨hstep, hpiece, hused, hscore⟩
  · exact absurd hsub (not_append_sublist hrest)
  · exact ⟨hlays rfl, by rw [if_pos (marksFirst_replicate _ _)]⟩
  · have hlater := mt (hlays rfl).inStep hstep
    exact ⟨hlays rfl, by rw [if_neg hlater, if_pos (marksFirst_dropWhile_replicate _ _ _)]⟩
  · have hlater := mt (hlays hused).inStep hstep
    have hapart := mt (hlays hused).isInfix hpiece
    exact ⟨hlays hused, by rw [if_neg hlater, if_neg hapart, hscore]⟩

theorem marks_eq_leftmost (hbuilds : search.builds false input = true)
    (h : alignWith search true false text input = some alignment) (hoccurs : input <:+: text) :
    ∃ before after, Leftmost text before input after ∧
      alignment.marks = List.replicate before.length false ++ List.replicate input.length true ++
        List.replicate after.length false := by
  rcases alignWith_strict_cases hbuilds h with ⟨rest, hrest, rfl, rfl⟩ | ⟨untyped, rfl, rfl⟩ |
    ⟨-, before, after, hleftmost, rfl⟩ | ⟨-, hpiece, -, -⟩
  · exact absurd hoccurs.sublist (not_append_sublist hrest)
  · exact ⟨[], untyped, ⟨rfl, fun _ _ _ => Nat.zero_le _⟩, rfl⟩
  · exact ⟨before, after, hleftmost, rfl⟩
  · exact absurd hoccurs hpiece

/-- **The three attempts together find the best fit.** -/
theorem bestFit_of_alignWith (hbuilds : search.builds false input = true)
    (h : alignWith search true false text input = some alignment) : BestFit text input alignment where
  rest := (remaining_of_alignWith hbuilds h).1
  used_up := (remaining_of_alignWith hbuilds h).2
  score_eq := score_eq_bestTier hbuilds h
  best marks hmarks := by
    rw [score_eq_bestTier hbuilds h]
    exact hmarks.tier_le
  attained := tierOf_marks hbuilds h
  leftmost := marks_eq_leftmost hbuilds h

end

/-- With case significant, input is found fuzzily exactly if it follows the text or lies scattered over it. -/
theorem alignWith_isSome_iff {search : Search} {text input : Text} :
    (alignWith search true false text input).isSome = true ↔ text <+: input ∨ input.Sublist text := by
  constructor
  · intro h
    obtain ⟨alignment, halign⟩ := Option.isSome_iff_exists.1 h
    rcases alignWith_eq_some_iff.1 halign with hlockstep | ⟨hnone, -, hfound⟩
    · have hstep : InStep text input := lockstep?_isSome_iff.1 (by rw [hlockstep]; rfl)
      exact hstep.imp_right fun hbeginning => hbeginning.sublist
    · exact .inr (sublist_of_fuzzyAlign? hnone hfound)
  · intro h
    rw [alignWith]
    cases hlockstep : lockstep? false text input with
    | some alignment => rfl
    | none =>
      have hstep : ¬InStep text input := by
        rw [← lockstep?_isSome_iff, hlockstep]
        simp
      rcases h with hwhole | hsub
      · exact absurd (.inl hwhole) hstep
      · simp only [fuzzyAlign?, if_true]
        split
        · rfl
        · exact scattered?_isSome_iff.2 hsub

/-- A literal that is not fuzzy is read in lockstep or not at all. -/
theorem alignWith_exact_isSome_iff {search : Search} {text input : Text} :
    (alignWith search false false text input).isSome = true ↔ InStep text input := by
  rw [← lockstep?_isSome_iff, alignWith]
  cases lockstep? false text input with
  | some alignment => rfl
  | none => simp

/-- A score of its own takes the place of the alignment's. -/
theorem Literal.readingOf_scored (l : Literal) {score : Binary64} (hscore : score.inUnit = true)
    (alignment : Alignment) :
    readingOf { l with score := some score } alignment =
      { readingOf { l with score := none } alignment with score := score } := by
  simp [readingOf, ownScore?, Option.filter, hscore]

/-- **A literal is read in the best way that there is.** Let case be significant.

- A fuzzy literal, if the input can be searched for, has a reading exactly if its text is a beginning of the input
  or the input lies scattered over the text. The reading is that of a best fit: what follows the text is left, or
  else nothing, and no way to lay the input on the text has a better tier. That is one if text or input is a
  beginning of the other, else a half if the input is a piece of the text, else a quarter. A piece is found at its
  leftmost place.
- A literal that is not fuzzy has a reading exactly if text or input is a beginning of the other.
- A score of its own, above zero and at most one, stands in place of the tier, and changes nothing else. -/
theorem Literal.reading_is_best_fit (l : Literal) (leniency : Leniency) (hcase : leniency.ignoreCase = false)
    (input : Text) :
    ((l.fuzzy || leniency.fuzzy) = true → leniency.search.builds leniency.ignoreCase input = true →
      ((l.read? leniency input).isSome = true ↔ l.text <+: input ∨ input.Sublist l.text) ∧
      ∀ out, l.read? leniency input = some out →
        ∃ alignment, BestFit l.text input alignment ∧ out = l.readingOf alignment) ∧
    ((l.fuzzy || leniency.fuzzy) = false →
      ((l.read? leniency input).isSome = true ↔ InStep l.text input)) ∧
    ∀ score : Binary64, score.inUnit = true →
      read? { l with score := some score } leniency input =
        (read? { l with score := none } leniency input).map fun out => { out with score := score } := by
  unfold read?
  rw [hcase]
  refine ⟨fun hfuzzy hbuilds => ?_, fun hexact => ?_, fun score hscore => ?_⟩
  · rw [hfuzzy, Option.isSome_map]
    refine ⟨alignWith_isSome_iff, fun out hout => ?_⟩
    obtain ⟨alignment, halign, rfl⟩ := Option.map_eq_some_iff.1 hout
    exact ⟨alignment, bestFit_of_alignWith hbuilds halign, rfl⟩
  · rw [hexact, Option.isSome_map]
    exact alignWith_exact_isSome_iff
  · rw [Option.map_map]
    congr 1
    funext alignment
    exact l.readingOf_scored hscore alignment

/-- Of two equal pieces the first one is found; a literal that is not fuzzy does not find it. -/
theorem banana_is_best_fit :
    let l : Literal := { text := "banana".toList, fuzzy := true }
    (∃ out alignment, l.read? {} "an".toList = some out ∧
        BestFit "banana".toList "an".toList alignment ∧ out = l.readingOf alignment ∧ out.score = .half ∧
        out.segments = [⟨"b".toList, false, true⟩, ⟨"an".toList, true, false⟩, ⟨"ana".toList, false, false⟩]) ∧
      (Literal.read? { l with fuzzy := false } {} "an".toList).isSome = false ∧
      Literal.read? { l with score := some .quarter } {} "an".toList =
        (Literal.read? { l with score := none } {} "an".toList).map fun out => { out with score := .quarter } := by
  intro l
  have hbuilds : Pattern.fits false "an".toList = true := by decide +kernel
  have hany : (l.read? {} "an".toList).any (fun out => out.score = .half ∧
      out.segments = [⟨"b".toList, false, true⟩, ⟨"an".toList, true, false⟩, ⟨"ana".toList, false, false⟩]) = true := by
    decide +kernel
  obtain ⟨out, hout, hread⟩ := (Option.any_eq_true _ _).1 hany
  obtain ⟨hscore, hsegments⟩ := of_decide_eq_true hread
  obtain ⟨hfuzzy, -, hscored⟩ := l.reading_is_best_fit {} rfl "an".toList
  obtain ⟨alignment, hfit, hreading⟩ := (hfuzzy rfl hbuilds).2 out hout
  obtain ⟨-, hexact, -⟩ :=
    Literal.reading_is_best_fit { l with fuzzy := false } {} rfl "an".toList
  refine ⟨⟨out, alignment, hout, hfit, hreading, hscore, hsegments⟩, ?_, hscored .quarter (by decide +kernel)⟩
  rw [← Bool.not_eq_true, hexact rfl]
  decide

end Typeahead
