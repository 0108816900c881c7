import Mathlib.Data.List.Forall2
import Mathlib.Data.List.Infix
import Mathlib.Data.Nat.Find
import Typeahead.Literal

/-!
# What an alignment accounts for

The characters that an alignment marks as typed stand one to one for the beginning of the input that it
uses up. Main statement: `alignWith_accounts`, over all three ways to align; `read?_accounts` says the same
of the reading a literal gives. A text that was typed in full is read in lockstep, whatever the leniency
(`read?_append`). What occurs in one piece is found (`Search.isSome_find?_iff`), and so is what is scattered over a
text (`scatterFrom_isSome_iff`).
-/

namespace Typeahead

/-- A character of a text and a typed one that may stand for it: by either way of looking past case. -/
def Stands (ignoreCase : Bool) (c typed : Char) : Prop :=
  sameLetter ignoreCase c typed = true ∨ sameFold ignoreCase c typed = true

theorem stands_false_iff {c typed : Char} : Stands false c typed ↔ c = typed := by
  simp [Stands, sameLetter_false_iff, sameFold_false_iff]

/-- Typed characters and a rest that together account for an input: what comes before the rest is as long
as what was typed, and stands for it character by character. -/
def Accounts (ignoreCase : Bool) (input typed rest : Text) : Prop :=
  ∃ consumed, input = consumed ++ rest ∧ List.Forall₂ (Stands ignoreCase) typed consumed

/-- The characters of a text that are marked. -/
def markedPart (text : Text) (marks : List Bool) : Text := ((text.zip marks).filter (·.2)).map (·.1)

def Output.typedText (out : Output) : Text := (out.segments.filter (·.typed)).flatMap (·.text)

@[simp] theorem Output.typedText_merge (acc : Output) (position : Nat) (child : Output) :
    (acc.merge position child).typedText = acc.typedText ++ child.typedText := by
  simp [merge, typedText]

/-! ## Marked characters -/

theorem markedPart_cons (c : Char) (text : Text) (mark : Bool) (marks : List Bool) :
    markedPart (c :: text) (mark :: marks) = (if mark then [c] else []) ++ markedPart text marks := by
  cases mark <;> simp [markedPart]

theorem markedPart_append {text text' : Text} {marks marks' : List Bool} (h : text.length = marks.length) :
    markedPart (text ++ text') (marks ++ marks') = markedPart text marks ++ markedPart text' marks' := by
  simp [markedPart, List.zip_append h]

@[simp] theorem markedPart_true (text : Text) :
    markedPart text (List.replicate text.length true) = text := by
  induction text with
  | nil => rfl
  | cons c text ih => rw [List.length_cons, List.replicate_succ, markedPart_cons, ih]; rfl

@[simp] theorem markedPart_false (text : Text) :
    markedPart text (List.replicate text.length false) = [] := by
  induction text with
  | nil => rfl
  | cons c text ih => rw [List.length_cons, List.replicate_succ, markedPart_cons, ih]; rfl

theorem marked_joinRun (entry : Char × Bool) (runs : List (Text × Bool)) :
    ((joinRun entry runs).filter (·.2)).flatMap (·.1) =
      (if entry.2 then [entry.1] else []) ++ (runs.filter (·.2)).flatMap (·.1) := by
  obtain ⟨c, mark⟩ := entry
  cases runs with
  | nil => cases mark <;> simp [joinRun]
  | cons run runs =>
    obtain ⟨text, mark'⟩ := run
    cases mark <;> cases mark' <;> simp [joinRun]

theorem marked_runsOf (text : Text) (marks : List Bool) :
    ((runsOf text marks).filter (·.2)).flatMap (·.1) = markedPart text marks := by
  induction text generalizing marks with
  | nil => simp [runsOf, markedPart]
  | cons c text ih =>
    cases marks with
    | nil => simp [runsOf, markedPart]
    | cons mark marks =>
      rw [markedPart_cons, ← ih marks]
      exact marked_joinRun (c, mark) (runsOf text marks)

/-- The typed segments of a text hold its marked characters. -/
theorem typed_segmentsOf (text : Text) (marks : List Bool) :
    ((segmentsOf text marks).filter (·.typed)).flatMap (·.text) = markedPart text marks := by
  rw [← marked_runsOf, segmentsOf]
  cases runsOf text marks with
  | nil => rfl
  | cons run runs =>
    obtain ⟨first, typed⟩ := run
    cases typed <;> simp [List.filter_map, List.flatMap_map, Function.comp_def]

/-! ## The three ways to align -/

theorem stripShared_agree (same : Char → Char → Bool) (text input : Text) :
    ∃ shared consumed, text = shared ++ (stripShared same text input).1 ∧
      input = consumed ++ (stripShared same text input).2 ∧
      List.Forall₂ (fun c d => same c d = true) shared consumed := by
  fun_induction stripShared same text input with
  | case1 c text d input h ih =>
    obtain ⟨shared, consumed, ht, hi, hall⟩ := ih
    exact ⟨c :: shared, d :: consumed, by simp [← ht], by simp [← hi], .cons h hall⟩
  | case2 c text d input h => exact ⟨[], [], rfl, rfl, .nil⟩
  | case3 text input h => exact ⟨[], [], rfl, rfl, .nil⟩

/-- The piece of the text that stands where the input occurs. -/
theorem OccursAt.exists_piece {ignoreCase : Bool} {text input : Text} {place : Nat}
    (h : OccursAt ignoreCase text input place) :
    ∃ before piece after, text = before ++ piece ++ after ∧ before.length = place ∧
      List.Forall₂ (fun c d => sameFold ignoreCase c d = true) piece input := by
  obtain ⟨before, after, htext, hplace⟩ := h
  cases ignoreCase with
  | false =>
    refine ⟨before, input, after, htext, hplace, ?_⟩
    exact List.forall₂_same.2 fun c _ => sameFold_refl false c
  | true =>
    -- the text splits where its folded form does
    obtain ⟨front, after', rfl, hfront, rfl⟩ := List.map_eq_append_iff.1 htext
    obtain ⟨before', piece, rfl, rfl, hpiece⟩ := List.map_eq_append_iff.1 hfront
    refine ⟨before', piece, after', rfl, by simpa using hplace, ?_⟩
    have hall : List.Forall₂ (· = ·) (piece.map foldCase) (input.map foldCase) := by
      rw [hpiece]
      exact List.forall₂_same.2 fun _ _ => rfl
    simpa [List.forall₂_map_left_iff, List.forall₂_map_right_iff, sameFold] using hall

namespace Search

variable {search : Search} {ignoreCase : Bool} {text input : Text} {place : Nat}

theorem occursAt_of_find? (h : search.find? ignoreCase text input = some place) :
    OccursAt ignoreCase text input place :=
  (search.find?_eq_some_iff.1 h).1

/-- **A search finds input exactly where it occurs.** -/
theorem isSome_find?_iff :
    (search.find? ignoreCase text input).isSome = true ↔ folded ignoreCase input <:+: folded ignoreCase text := by
  constructor
  · intro h
    obtain ⟨place, hplace⟩ := Option.isSome_iff_exists.1 h
    obtain ⟨before, after, htext, -⟩ := occursAt_of_find? hplace
    exact ⟨before, after, htext.symm⟩
  · rintro ⟨before, after, htext⟩
    have hoccurs : ∃ place, OccursAt ignoreCase text input place := ⟨_, before, after, htext.symm, rfl⟩
    classical
    have hfound := search.find?_eq_some_iff.2 ⟨Nat.find_spec hoccurs, fun _ => Nat.find_min' hoccurs⟩
    rw [hfound]
    rfl

end Search

/-- Each character of the input has its place in a scattered alignment. -/
theorem scatterFrom_eq_some {same : Char → Char → Bool} {text input : Text} {marks : List Bool}
    (h : scatterFrom same [] text input = some marks) :
    List.Forall₂ (fun c d => same c d = true) (markedPart text marks) input := by
  induction text generalizing input marks with
  | nil =>
    cases input with
    | nil =>
      simp only [scatterFrom, List.reverse_nil, List.nil_append, Option.some.injEq] at h
      subst h
      exact .nil
    | cons wanted input => simp [scatterFrom] at h
  | cons c text ih =>
    cases input with
    | nil =>
      simp only [scatterFrom, List.reverse_nil, List.nil_append, Option.some.injEq] at h
      subst h
      rw [markedPart_false]
      exact .nil
    | cons wanted input =>
      simp only [scatterFrom] at h
      split at h
      · next hsame =>
        rw [scatterFrom_eq_map] at h
        obtain ⟨rest, hrest, rfl⟩ := Option.map_eq_some_iff.1 h
        exact .cons hsame (ih hrest)
      · rw [scatterFrom_eq_map] at h
        obtain ⟨rest, hrest, rfl⟩ := Option.map_eq_some_iff.1 h
        simpa [markedPart_cons] using ih hrest

theorem sublistForall₂_of_cons {R : Char → Char → Prop} {d : Char} {text input : Text}
    (h : List.SublistForall₂ R (d :: input) text) : List.SublistForall₂ R input text := by
  obtain ⟨found, hall, hsub⟩ := List.sublistForall₂_iff.1 h
  cases hall with
  | cons _ hrest => exact List.sublistForall₂_iff.2 ⟨_, hrest, (List.sublist_cons_self _ _).trans hsub⟩

/-- **Input can be scattered over a text exactly if it is a subsequence of it**, by the comparison that is used:
taking the first place that fits never stands in the way of what comes after. -/
theorem scatterFrom_isSome_iff {same : Char → Char → Bool} {acc : List Bool} {text input : Text} :
    (scatterFrom same acc text input).isSome = true ↔
      List.SublistForall₂ (fun d c => same c d = true) input text := by
  induction text generalizing input acc with
  | nil =>
    cases input with
    | nil => simpa [scatterFrom] using List.SublistForall₂.nil
    | cons wanted input =>
      constructor
      · intro h
        simp [scatterFrom] at h
      · intro h
        cases h
  | cons c text ih =>
    cases input with
    | nil => simpa [scatterFrom] using List.SublistForall₂.nil
    | cons wanted input =>
      rw [scatterFrom]
      by_cases hfits : same c wanted = true
      · rw [if_pos hfits, ih]
        constructor
        · exact .cons hfits
        · intro h
          cases h with
          | cons _ hrest => exact hrest
          | cons_right hrest => exact sublistForall₂_of_cons hrest
      · rw [if_neg hfits, ih]
        constructor
        · exact .cons_right
        · intro h
          cases h with
          | cons hsame _ => exact absurd hsame hfits
          | cons_right hrest => exact hrest

theorem lockstep?_accounts {ignoreCase : Bool} {text input : Text} {alignment : Alignment}
    (h : lockstep? ignoreCase text input = some alignment) :
    Accounts ignoreCase input (markedPart text alignment.marks) alignment.remaining := by
  obtain ⟨shared, consumed, ht, hi, hall⟩ := stripShared_agree (sameLetter ignoreCase) text input
  have hstands : List.Forall₂ (Stands ignoreCase) shared consumed := hall.imp fun _ _ => Or.inl
  unfold lockstep? at h
  split at h
  · next rest hstrip =>
    cases h
    rw [hstrip, List.append_nil] at ht
    rw [hstrip] at hi
    subst ht
    rw [markedPart_true]
    exact ⟨consumed, hi, hstands⟩
  · next untyped _ hstrip =>
    cases h
    rw [hstrip] at ht hi
    subst ht
    have hlen : (shared ++ untyped).length - untyped.length = shared.length := by simp
    simp only [hlen]
    rw [markedPart_append (by simp), markedPart_true, markedPart_false, List.append_nil]
    exact ⟨consumed, hi, hstands⟩
  · cases h

theorem contiguous?_accounts {search : Search} {ignoreCase : Bool} {text input : Text} {alignment : Alignment}
    (h : contiguous? search ignoreCase text input = some alignment) :
    Accounts ignoreCase input (markedPart text alignment.marks) alignment.remaining := by
  obtain ⟨start, hstart, rfl⟩ := Option.map_eq_some_iff.1 h
  obtain ⟨before, piece, after, rfl, rfl, hall⟩ := (Search.occursAt_of_find? hstart).exists_piece
  have hafter : (before ++ piece ++ after).length - before.length - piece.length = after.length := by simp
  refine ⟨input, (List.append_nil input).symm, ?_⟩
  simp only [← hall.length_eq, hafter]
  rw [markedPart_append (by simp), markedPart_append (by simp), markedPart_false, markedPart_true,
    markedPart_false, List.nil_append, List.append_nil]
  exact hall.imp fun _ _ => Or.inr

theorem scattered?_accounts {ignoreCase : Bool} {text input : Text} {alignment : Alignment}
    (h : scattered? ignoreCase text input = some alignment) :
    Accounts ignoreCase input (markedPart text alignment.marks) alignment.remaining := by
  obtain ⟨marks, hmarks, rfl⟩ := Option.map_eq_some_iff.1 h
  exact ⟨input, (List.append_nil input).symm, (scatterFrom_eq_some hmarks).imp fun _ _ => Or.inl⟩

/-- A fuzzy alignment is in one piece or scattered. -/
theorem fuzzyAlign?_cases {search : Search} {ignoreCase : Bool} {text input : Text}
    {alignment : Alignment} (h : fuzzyAlign? search ignoreCase text input = some alignment) :
    contiguous? search ignoreCase text input = some alignment ∨ scattered? ignoreCase text input = some alignment := by
  unfold fuzzyAlign? at h
  split at h
  · next found hpiece =>
    split at hpiece
    · exact .inl (hpiece.trans h)
    · cases hpiece
  · exact .inr h

/-- **Alignments account for the input**, however the text is aligned with it. -/
theorem alignWith_accounts {search : Search} {fuzzy ignoreCase : Bool} {text input : Text}
    {alignment : Alignment} (h : alignWith search fuzzy ignoreCase text input = some alignment) :
    Accounts ignoreCase input (markedPart text alignment.marks) alignment.remaining := by
  unfold alignWith at h
  split at h
  · next hlockstep => cases h; exact lockstep?_accounts hlockstep
  · split at h
    · rcases fuzzyAlign?_cases h with hpiece | hscattered
      · exact contiguous?_accounts hpiece
      · exact scattered?_accounts hscattered
    · cases h

theorem Literal.read?_accounts {l : Literal} {leniency : Leniency} {input : Text} {out : Output}
    (h : l.read? leniency input = some out) :
    Accounts leniency.ignoreCase input out.typedText out.remaining := by
  obtain ⟨alignment, halign, rfl⟩ := Option.map_eq_some_iff.1 h
  rw [Output.typedText]
  simp only [readingOf, typed_segmentsOf]
  exact alignWith_accounts halign

/-! ## Accounts put together -/

/-- The rest is a suffix of the input. -/
theorem Accounts.suffix {ignoreCase : Bool} {input typed rest : Text}
    (h : Accounts ignoreCase input typed rest) : rest <:+ input := by
  obtain ⟨consumed, rfl, -⟩ := h
  exact List.suffix_append _ _

/-- With case significant, what was typed is what was consumed. -/
theorem Accounts.append_eq {input typed rest : Text} (h : Accounts false input typed rest) :
    typed ++ rest = input := by
  obtain ⟨consumed, rfl, hall⟩ := h
  have heq : List.Forall₂ (· = ·) typed consumed := hall.imp fun _ _ => stands_false_iff.1
  rw [List.forall₂_eq_eq_eq] at heq
  rw [heq]

theorem Accounts.nil (ignoreCase : Bool) (input : Text) : Accounts ignoreCase input [] input :=
  ⟨[], rfl, .nil⟩

/-- What is typed on from the rest is accounted for too. -/
theorem Accounts.trans {ignoreCase : Bool} {input typed rest typed' rest' : Text}
    (h : Accounts ignoreCase input typed rest) (h' : Accounts ignoreCase rest typed' rest') :
    Accounts ignoreCase input (typed ++ typed') rest' := by
  obtain ⟨consumed, rfl, hall⟩ := h
  obtain ⟨consumed', rfl, hall'⟩ := h'
  exact ⟨consumed ++ consumed', by simp, List.rel_append hall hall'⟩

/-! ## Texts typed in full -/

/-- A reading of a text that was typed in full, with what is left after it and its value. -/
structure Output.Spells (out : Output) (text rest : Text) (result : Value) : Prop where
  text : out.text = text
  typed : ∀ segment ∈ out.segments, segment.typed = true
  remaining : out.remaining = rest
  result : out.result = result

theorem stripShared_append {same : Char → Char → Bool} (hsame : ∀ c, same c c = true) (text rest : Text) :
    stripShared same text (text ++ rest) = ([], rest) := by
  induction text with
  | nil => simp [stripShared]
  | cons c text ih =>
    rw [List.cons_append, stripShared, if_pos (hsame c)]
    exact ih

theorem alignWith_append (search : Search) (fuzzy ignoreCase : Bool) (text rest : Text) :
    alignWith search fuzzy ignoreCase text (text ++ rest) =
      some ⟨List.replicate text.length true, rest, .one⟩ := by
  have hstrip := stripShared_append (sameLetter_refl ignoreCase) text rest
  have hlockstep : lockstep? ignoreCase text (text ++ rest) =
      some ⟨List.replicate text.length true, rest, .one⟩ := by
    rw [lockstep?, hstrip]
  rw [alignWith, hlockstep]

theorem text_segmentsOf {text : Text} {marks : List Bool} (h : marks.length = text.length) :
    (segmentsOf text marks).flatMap (·.text) = text := by
  have hruns := flatMap_runsOf text marks h
  rw [segmentsOf]
  cases heq : runsOf text marks with
  | nil => rwa [heq] at hruns
  | cons run runs =>
    rw [heq] at hruns
    simpa [List.flatMap_map] using hruns

theorem mem_joinRun {entry : Char × Bool} {runs : List (Text × Bool)} {run : Text × Bool}
    (h : run ∈ joinRun entry runs) : run.2 = entry.2 ∨ ∃ old ∈ runs, run.2 = old.2 := by
  cases runs with
  | nil =>
    cases List.mem_singleton.1 h
    exact .inl rfl
  | cons first runs =>
    simp only [joinRun] at h
    split at h
    · next hmark =>
      rcases List.mem_cons.1 h with rfl | h
      · exact .inl hmark
      · exact .inr ⟨run, List.mem_cons_of_mem _ h, rfl⟩
    · rcases List.mem_cons.1 h with rfl | h
      · exact .inl rfl
      · exact .inr ⟨run, h, rfl⟩

theorem mark_mem_of_mem_runsOf {text : Text} {marks : List Bool} {run : Text × Bool}
    (h : run ∈ runsOf text marks) : run.2 ∈ marks := by
  induction text generalizing marks run with
  | nil => simp [runsOf] at h
  | cons c text ih =>
    cases marks with
    | nil => simp [runsOf] at h
    | cons mark marks =>
      have hjoin : run ∈ joinRun (c, mark) (runsOf text marks) := h
      rcases mem_joinRun hjoin with hrun | ⟨old, hold, hrun⟩
      · exact hrun ▸ List.mem_cons_self
      · exact hrun ▸ List.mem_cons_of_mem _ (ih hold)

theorem mark_mem_of_mem_segmentsOf {text : Text} {marks : List Bool} {segment : Segment}
    (h : segment ∈ segmentsOf text marks) : segment.typed ∈ marks := by
  rw [segmentsOf] at h
  cases heq : runsOf text marks with
  | nil => simp [heq] at h
  | cons run runs =>
    have hmarks : ∀ run' ∈ run :: runs, run'.2 ∈ marks := fun run' hrun =>
      mark_mem_of_mem_runsOf (heq ▸ hrun)
    simp only [heq, List.mem_cons, List.mem_map] at h
    rcases h with rfl | ⟨run', hrun, rfl⟩
    · exact hmarks run List.mem_cons_self
    · exact hmarks run' (List.mem_cons_of_mem _ hrun)

/-- **A literal typed in full is read as such**, and what comes after it is left. -/
theorem Literal.read?_append (l : Literal) (leniency : Leniency) (rest : Text) :
    ∃ out, l.read? leniency (l.text ++ rest) = some out ∧
      out.Spells l.text rest (l.value.getD .null) := by
  have halign := alignWith_append leniency.search (l.fuzzy || leniency.fuzzy)
    leniency.ignoreCase l.text rest
  refine ⟨_, by rw [read?, halign]; rfl, ?_, ?_, rfl, rfl⟩
  · exact text_segmentsOf (by simp)
  · intro segment hsegment
    exact List.eq_of_mem_replicate (mark_mem_of_mem_segmentsOf hsegment)

/-! ## How an alignment comes about -/

theorem stripShared_agreeing {same : Char → Char → Bool} {shared consumed : Text}
    (h : List.Forall₂ (fun c d => same c d = true) shared consumed) (text rest : Text) :
    stripShared same (shared ++ text) (consumed ++ rest) = stripShared same text rest := by
  induction h with
  | nil => rfl
  | cons hsame _ ih => rw [List.cons_append, List.cons_append, stripShared, if_pos hsame, ih]

section

variable {ignoreCase : Bool} {text input : Text} {alignment : Alignment}

/-- Text and input agree in lockstep until one of them is used up. -/
theorem lockstep?_agrees (h : lockstep? ignoreCase text input = some alignment) :
    (∃ consumed, input = consumed ++ alignment.remaining ∧
      List.Forall₂ (fun c d => sameLetter ignoreCase c d = true) text consumed) ∨
    alignment.remaining = [] ∧ ∃ typed untyped, text = typed ++ untyped ∧
      List.Forall₂ (fun c d => sameLetter ignoreCase c d = true) typed input := by
  obtain ⟨shared, consumed, ht, hi, hall⟩ := stripShared_agree (sameLetter ignoreCase) text input
  unfold lockstep? at h
  split at h
  · next rest hstrip =>
    cases h
    rw [hstrip] at ht hi
    rw [List.append_nil] at ht
    exact .inl ⟨consumed, hi, ht ▸ hall⟩
  · next untyped _ hstrip =>
    cases h
    rw [hstrip] at ht hi
    rw [List.append_nil] at hi
    exact .inr ⟨rfl, shared, untyped, ht, hi ▸ hall⟩
  · cases h

/-- A text that is typed in full is found in lockstep, whatever follows. -/
theorem lockstep?_of_text {consumed : Text}
    (h : List.Forall₂ (fun c d => sameLetter ignoreCase c d = true) text consumed) (rest : Text) :
    ∃ alignment, lockstep? ignoreCase text (consumed ++ rest) = some alignment ∧
      alignment.remaining = rest := by
  have hstrip := stripShared_agreeing h [] rest
  rw [List.append_nil] at hstrip
  refine ⟨⟨List.replicate text.length true, rest, .one⟩, ?_, rfl⟩
  rw [lockstep?, hstrip]
  rfl

/-- So is one of which only the beginning is typed. -/
theorem lockstep?_of_input {typed : Text}
    (h : List.Forall₂ (fun c d => sameLetter ignoreCase c d = true) typed input) (untyped : Text) :
    ∃ alignment, lockstep? ignoreCase (typed ++ untyped) input = some alignment ∧
      alignment.remaining = [] := by
  cases untyped with
  | nil =>
    rw [List.append_nil]
    simpa using lockstep?_of_text h []
  | cons c untyped =>
    have hstrip := stripShared_agreeing h (c :: untyped) []
    rw [List.append_nil] at hstrip
    exact ⟨_, by rw [lockstep?, hstrip]; rfl, rfl⟩

end

/-- Against no input all of a text is suggested. -/
theorem lockstep?_nil (ignoreCase : Bool) (text : Text) :
    lockstep? ignoreCase text [] = some ⟨List.replicate text.length false, [], .one⟩ := by
  cases text with
  | nil => rfl
  | cons c text => simp [lockstep?, stripShared]

theorem fuzzyAlign?_remaining {search : Search} {ignoreCase : Bool} {text input : Text}
    {alignment : Alignment} (h : fuzzyAlign? search ignoreCase text input = some alignment) :
    alignment.remaining = [] := by
  rcases fuzzyAlign?_cases h with hpiece | hscattered
  · obtain ⟨start, -, rfl⟩ := Option.map_eq_some_iff.1 hpiece
    rfl
  · obtain ⟨marks, -, rfl⟩ := Option.map_eq_some_iff.1 hscattered
    rfl

section

variable {search : Search} {fuzzy ignoreCase : Bool} {text input : Text} {alignment : Alignment}

/-- Lockstep comes first, and all else only where it fails. -/
theorem alignWith_eq_some_iff :
    alignWith search fuzzy ignoreCase text input = some alignment ↔
      lockstep? ignoreCase text input = some alignment ∨
        lockstep? ignoreCase text input = none ∧ fuzzy = true ∧
          fuzzyAlign? search ignoreCase text input = some alignment := by
  unfold alignWith
  cases lockstep? ignoreCase text input with
  | some found => simp
  | none => simp

theorem alignWith_nil :
    alignWith search fuzzy ignoreCase text [] = some ⟨List.replicate text.length false, [], .one⟩ :=
  alignWith_eq_some_iff.2 (.inl (lockstep?_nil ignoreCase text))

/-- Where input is left over, all of the text was typed. -/
theorem marks_of_remaining (h : alignWith search fuzzy ignoreCase text input = some alignment)
    (hleft : alignment.remaining ≠ []) : alignment.marks = List.replicate text.length true := by
  rcases alignWith_eq_some_iff.1 h with hlockstep | ⟨-, -, hfound⟩
  · unfold lockstep? at hlockstep
    split at hlockstep
    · cases hlockstep
      rfl
    · cases hlockstep
      exact absurd rfl hleft
    · cases hlockstep
  · exact absurd (fuzzyAlign?_remaining hfound) hleft

/-- The three ways in which an alignment may have come about. -/
theorem alignWith_cases (h : alignWith search fuzzy ignoreCase text input = some alignment) :
    lockstep? ignoreCase text input = some alignment ∨
      lockstep? ignoreCase text input = none ∧ fuzzy = true ∧
        (contiguous? search ignoreCase text input = some alignment ∨
          scattered? ignoreCase text input = some alignment) := by
  rcases alignWith_eq_some_iff.1 h with hlockstep | ⟨hnone, hfuzzy, hfound⟩
  · exact .inl hlockstep
  · exact .inr ⟨hnone, hfuzzy, fuzzyAlign?_cases hfound⟩

end

/-! ## Marks cover the text -/

theorem length_marks_lockstep? {ignoreCase : Bool} {text input : Text} {alignment : Alignment}
    (h : lockstep? ignoreCase text input = some alignment) :
    alignment.marks.length = text.length := by
  obtain ⟨shared, consumed, ht, -, -⟩ := stripShared_agree (sameLetter ignoreCase) text input
  unfold lockstep? at h
  split at h
  · cases h
    exact List.length_replicate
  · next untyped _ hstrip =>
    cases h
    have hlength : text.length = shared.length + untyped.length := by
      rw [hstrip] at ht
      rw [ht, List.length_append]
    simp only [List.length_append, List.length_replicate]
    omega
  · cases h

theorem length_marks_contiguous? {search : Search} {ignoreCase : Bool} {text input : Text} {alignment : Alignment}
    (h : contiguous? search ignoreCase text input = some alignment) :
    alignment.marks.length = text.length := by
  obtain ⟨start, hstart, rfl⟩ := Option.map_eq_some_iff.1 h
  obtain ⟨before, piece, after, rfl, rfl, hall⟩ := (Search.occursAt_of_find? hstart).exists_piece
  simp only [← hall.length_eq, List.length_append, List.length_replicate]
  omega

theorem length_scatterFrom {same : Char → Char → Bool} {text input : Text} {marks : List Bool}
    (h : scatterFrom same [] text input = some marks) : marks.length = text.length := by
  induction text generalizing input marks with
  | nil =>
    cases input with
    | nil =>
      cases h
      rfl
    | cons wanted input => simp [scatterFrom] at h
  | cons c text ih =>
    cases input with
    | nil =>
      cases h
      simp
    | cons wanted input =>
      simp only [scatterFrom] at h
      split at h <;> rw [scatterFrom_eq_map] at h <;>
        obtain ⟨rest, hrest, rfl⟩ := Option.map_eq_some_iff.1 h <;>
        simp [ih hrest]

theorem length_marks_alignWith {search : Search} {fuzzy ignoreCase : Bool} {text input : Text}
    {alignment : Alignment} (h : alignWith search fuzzy ignoreCase text input = some alignment) :
    alignment.marks.length = text.length := by
  rcases alignWith_cases h with hlockstep | ⟨-, -, hpiece | hscattered⟩
  · exact length_marks_lockstep? hlockstep
  · exact length_marks_contiguous? hpiece
  · obtain ⟨marks, hmarks, rfl⟩ := Option.map_eq_some_iff.1 hscattered
    exact length_scatterFrom hmarks

/-- However little of it was typed, a literal shows its whole text, and has its own value. -/
theorem Literal.read?_shows {l : Literal} {leniency : Leniency} {input : Text} {out : Output}
    (h : l.read? leniency input = some out) : out.text = l.text ∧ out.result = l.value.getD .null := by
  obtain ⟨alignment, halign, rfl⟩ := Option.map_eq_some_iff.1 h
  exact ⟨text_segmentsOf (length_marks_alignWith halign), rfl⟩

end Typeahead
