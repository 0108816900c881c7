import Mathlib
import Typeahead.Literal.Slices
import Typeahead.Proofs.Alignment
import Typeahead.Search.Patterns

/-!
# The segments of a literal

A text is cut only between characters, although places in it are counted in bytes and a character of the text
may take another number of bytes than the typed one that it stands for. So reading by slices never fails, and
gives what reading by characters gives (`Literal.readSliced_eq`). The segments of a reading spell the text, none
of them is empty, typed and suggested ones alternate, and only the first one starts a word. Main statement:
`Literal.segments_spell_text`.
-/

namespace Typeahead

/-! ## Places between characters -/

theorem byteLength_eq_utf8Len (text : Text) : byteLength text = String.utf8Len text :=
  String.utf8ByteSize_ofList text

@[simp] theorem byteLength_nil : byteLength [] = 0 := by simp [byteLength_eq_utf8Len]

@[simp] theorem byteLength_cons (c : Char) (text : Text) :
    byteLength (c :: text) = c.utf8Size + byteLength text := by
  simp [byteLength_eq_utf8Len, Nat.add_comm]

@[simp] theorem byteLength_append (text text' : Text) :
    byteLength (text ++ text') = byteLength text + byteLength text' := by
  simp [byteLength_eq_utf8Len]

theorem byteLength_eq_zero {text : Text} : byteLength text = 0 ↔ text = [] := by
  simp [byteLength_eq_utf8Len]

/-- The places at which a text can be cut are those between two characters. -/
theorem isValid_iff {text : Text} {place : Nat} :
    String.Pos.Raw.isValid (String.ofList text) ⟨place⟩ = true ↔
      ∃ before after, text = before ++ after ∧ byteLength before = place := by
  rw [String.Pos.Raw.isValid_eq_true_iff, String.Pos.Raw.isValid_ofList]
  constructor
  · rintro ⟨i, hi⟩
    exact ⟨text.take i, text.drop i, (List.take_append_drop i text).symm, hi.symm⟩
  · rintro ⟨before, after, rfl, hplace⟩
    refine ⟨before.length, ?_⟩
    rw [List.take_left]
    exact hplace.symm

/-- Of two beginnings of a text, the one with fewer bytes comes first. -/
theorem prefix_of_byteLength_le {text before before' : Text} (h : before <+: text) (h' : before' <+: text)
    (hle : byteLength before ≤ byteLength before') : before <+: before' := by
  rcases List.prefix_or_prefix_of_prefix h h' with hfirst | ⟨more, rfl⟩
  · exact hfirst
  · have hmore : more = [] := by
      rw [byteLength_append] at hle
      exact byteLength_eq_zero.1 (by omega)
    simp [hmore]

theorem extract_append (before piece after : Text) :
    (String.Pos.Raw.extract (String.ofList (before ++ piece ++ after)) ⟨byteLength before⟩
      ⟨byteLength (before ++ piece)⟩).toList = piece := by
  have hvalid := String.extract_of_valid before piece after
  rw [← byteLength_eq_utf8Len, ← byteLength_eq_utf8Len, ← byteLength_append] at hvalid
  rw [hvalid, String.toList_ofList]

/-- **A slice is what stands between two places**, both of them between characters, within the text and in order;
at all other places there is none. -/
theorem slice_eq_ok_iff {text piece : Text} {start stop : Nat} :
    slice text start stop = .ok piece ↔
      ∃ before after, text = before ++ piece ++ after ∧ byteLength before = start ∧
        byteLength (before ++ piece) = stop := by
  simp only [slice]
  constructor
  · intro h
    by_cases hstop : String.Pos.Raw.isValid (String.ofList text) ⟨stop⟩ = true
    · by_cases hstart : String.Pos.Raw.isValid (String.ofList text) ⟨start⟩ = true
      · by_cases horder : stop < start
        · simp [hstop, horder] at h
        · obtain ⟨upTo, after, htext, rfl⟩ := isValid_iff.1 hstop
          obtain ⟨before, later, htext', rfl⟩ := isValid_iff.1 hstart
          obtain ⟨found, rfl⟩ : before <+: upTo :=
            prefix_of_byteLength_le ⟨later, htext'.symm⟩ ⟨after, htext.symm⟩ (Nat.le_of_not_lt horder)
          simp only [hstop, hstart, horder, not_true_eq_false, or_self, if_false, Except.ok.injEq] at h
          rw [htext, extract_append] at h
          subst h
          exact ⟨before, after, htext, rfl, rfl⟩
      · simp [hstop, hstart] at h
    · simp [hstop] at h
  · rintro ⟨before, after, rfl, rfl, rfl⟩
    have hstop := isValid_iff.2 ⟨before ++ piece, after, rfl, rfl⟩
    have hstart : String.Pos.Raw.isValid (String.ofList (before ++ piece ++ after)) ⟨byteLength before⟩ = true :=
      isValid_iff.2 ⟨before, piece ++ after, by simp, rfl⟩
    have horder : ¬byteLength (before ++ piece) < byteLength before := by
      rw [byteLength_append]
      omega
    simp only [hstop, hstart, horder, not_true_eq_false, or_self, if_false, extract_append]

theorem slice_start (piece after : Text) : slice (piece ++ after) 0 (byteLength piece) = .ok piece :=
  slice_eq_ok_iff.2 ⟨[], after, by simp⟩

theorem slice_end (before piece : Text) :
    slice (before ++ piece) (byteLength before) (byteLength (before ++ piece)) = .ok piece :=
  slice_eq_ok_iff.2 ⟨before, [], by simp⟩

theorem slice_middle (before piece after : Text) :
    slice (before ++ piece ++ after) (byteLength before) (byteLength (before ++ piece)) = .ok piece :=
  slice_eq_ok_iff.2 ⟨before, after, rfl, rfl, rfl⟩

/-! ## Pushing segments -/

section

variable {piece : Text} {typed : Bool}

theorem pushSegment_nil (segments : List Segment) : pushSegment segments [] typed = segments := by
  simp [pushSegment]

/-- Only the last segment is touched. -/
theorem pushSegment_cons (first : Segment) {segments : List Segment} (h : segments ≠ []) :
    pushSegment (first :: segments) piece typed = first :: pushSegment segments piece typed := by
  unfold pushSegment
  by_cases hpiece : piece.isEmpty = true
  · simp [hpiece]
  · obtain ⟨second, rest, rfl⟩ := List.exists_cons_of_ne_nil h
    cases hlast : (second :: rest).getLast? with
    | none => simp at hlast
    | some last =>
      by_cases hmark : last.typed = typed
      · simp [hpiece, hlast, hmark]
      · simp [hpiece, hlast, hmark]

/-- Add a piece of text after runs: it joins the last one if that has the same mark. -/
def pushRun (piece : Text) (typed : Bool) : List (Text × Bool) → List (Text × Bool)
  | [] => [(piece, typed)]
  | [(text, mark)] => if mark = typed then [(text ++ piece, mark)] else [(text, mark), (piece, typed)]
  | first :: second :: rest => first :: pushRun piece typed (second :: rest)

/-- A character in front and a piece at the end are added in either order. -/
theorem joinRun_pushRun (entry : Char × Bool) (runs : List (Text × Bool)) :
    joinRun entry (pushRun piece typed runs) = pushRun piece typed (joinRun entry runs) := by
  match runs with
  | [] =>
    simp only [pushRun, joinRun]
    by_cases hmark : typed = entry.2 <;> simp [hmark, eq_comm]
  | [(text, mark)] =>
    simp only [pushRun, joinRun]
    by_cases hmark : mark = typed
    · subst hmark
      by_cases hentry : mark = entry.2 <;> simp [hentry, pushRun]
    · by_cases hentry : mark = entry.2 <;> simp_all [pushRun]
  | (text, mark) :: second :: rest =>
    simp only [pushRun, joinRun]
    by_cases hentry : mark = entry.2 <;> simp [hentry, pushRun]

theorem runsOf_replicate (h : piece ≠ []) (typed : Bool) :
    runsOf piece (List.replicate piece.length typed) = [(piece, typed)] := by
  induction piece with
  | nil => exact absurd rfl h
  | cons c piece ih =>
    have hcons : runsOf (c :: piece) (List.replicate (c :: piece).length typed) =
        joinRun (c, typed) (runsOf piece (List.replicate piece.length typed)) := rfl
    cases piece with
    | nil => rfl
    | cons d piece =>
      rw [hcons, ih (by simp), joinRun, if_pos rfl]

theorem runsOf_append (h : piece ≠ []) (typed : Bool) {text : Text} {marks : List Bool}
    (hmarks : marks.length = text.length) :
    runsOf (text ++ piece) (marks ++ List.replicate piece.length typed) =
      pushRun piece typed (runsOf text marks) := by
  induction text generalizing marks with
  | nil =>
    obtain rfl : marks = [] := List.length_eq_zero_iff.1 hmarks
    simpa [pushRun, runsOf] using runsOf_replicate h typed
  | cons c text ih =>
    cases marks with
    | nil => simp at hmarks
    | cons mark marks =>
      have hlength : marks.length = text.length := by simpa using hmarks
      have hrest := ih hlength
      have hcons (text : Text) (marks : List Bool) :
          runsOf (c :: text) (mark :: marks) = joinRun (c, mark) (runsOf text marks) := rfl
      rw [List.cons_append, List.cons_append, hcons, hrest, hcons, joinRun_pushRun]

/-- Runs of a text as the segments of a word. -/
def asWord : List (Text × Bool) → List Segment
  | [] => []
  | (first, typed) :: rest => ⟨first, typed, true⟩ :: rest.map fun run => ⟨run.1, run.2, false⟩

theorem segmentsOf_eq_asWord (text : Text) (marks : List Bool) :
    segmentsOf text marks = asWord (runsOf text marks) := by
  unfold segmentsOf asWord
  rfl

theorem map_pushRun (h : piece ≠ []) {runs : List (Text × Bool)} (hruns : runs ≠ []) :
    (pushRun piece typed runs).map (fun run => (⟨run.1, run.2, false⟩ : Segment)) =
      pushSegment (runs.map fun run => ⟨run.1, run.2, false⟩) piece typed := by
  fun_induction pushRun piece typed runs with
  | case1 => exact absurd rfl hruns
  | case2 text => simp [pushSegment, h]
  | case3 text mark hmark => simp [pushSegment, h, hmark]
  | case4 first second rest ih =>
    rw [List.map_cons, ih (by simp), List.map_cons (l := second :: rest), pushSegment_cons _ (by simp)]

theorem asWord_pushRun (h : piece ≠ []) (runs : List (Text × Bool)) :
    asWord (pushRun piece typed runs) = pushSegment (asWord runs) piece typed := by
  match runs with
  | [] => simp [pushRun, asWord, pushSegment, h]
  | [(text, mark)] =>
    by_cases hmark : mark = typed
    · simp [pushRun, asWord, pushSegment, h, hmark]
    · simp [pushRun, asWord, pushSegment, h, hmark]
  | first :: second :: rest =>
    rw [pushRun, asWord, map_pushRun h (by simp), asWord, pushSegment_cons _ (by simp)]

/-- **Segments are put together from left to right**: those of a longer text are those of its beginning with the
rest pushed behind. -/
theorem segmentsOf_append (piece : Text) (typed : Bool) {text : Text} {marks : List Bool}
    (hmarks : marks.length = text.length) :
    segmentsOf (text ++ piece) (marks ++ List.replicate piece.length typed) =
      pushSegment (segmentsOf text marks) piece typed := by
  by_cases h : piece = []
  · simp [h, pushSegment_nil]
  · rw [segmentsOf_eq_asWord, segmentsOf_eq_asWord, runsOf_append h typed hmarks, asWord_pushRun h]

theorem segmentsOf_replicate (piece : Text) (typed : Bool) :
    segmentsOf piece (List.replicate piece.length typed) = pushSegment [] piece typed := by
  have hmarks : ([] : List Bool).length = ([] : Text).length := rfl
  exact segmentsOf_append piece typed hmarks

end

/-! ## Walking by bytes -/

/-- The bytes in lockstep are those of the beginnings that are stripped. -/
theorem sharedBytes_eq (same : Char → Char → Bool) (text input : Text) :
    ∃ shared consumed, text = shared ++ (stripShared same text input).1 ∧
      input = consumed ++ (stripShared same text input).2 ∧
      sharedBytes same text input = (byteLength shared, byteLength consumed) := by
  fun_induction stripShared same text input with
  | case1 c text d input h ih =>
    obtain ⟨shared, consumed, ht, hi, hbytes⟩ := ih
    refine ⟨c :: shared, d :: consumed, by simp [← ht], by simp [← hi], ?_⟩
    simp [sharedBytes, h, hbytes]
  | case2 c text d input h => exact ⟨[], [], by simp [sharedBytes, h]⟩
  | case3 text input h =>
    refine ⟨[], [], rfl, rfl, ?_⟩
    cases text with
    | nil => simp [sharedBytes]
    | cons c text =>
      cases input with
      | nil => simp [sharedBytes]
      | cons d input => exact absurd rfl (h c text d input rfl)

section

variable {same : Char → Char → Bool} {wanted : Char} {text : Text}

/-- Where no character fits, the walk from letter to letter ends. -/
theorem scatterFrom_of_firstFit_eq_none (h : firstFit same wanted text = none) (input : Text) :
    scatterFrom same [] text (wanted :: input) = none := by
  induction text with
  | nil => rfl
  | cons c text ih =>
    rw [firstFit] at h
    by_cases hfits : same c wanted = true
    · simp [hfits] at h
    · simp only [hfits, Bool.false_eq_true, if_false, Option.map_eq_none_iff] at h
      rw [scatterFrom, if_neg hfits, scatterFrom_eq_map, ih h, Option.map_none]

/-- Where one does, the walk goes on behind it. -/
theorem scatterFrom_of_firstFit_eq_some {bytes : Nat} {found : Char}
    (h : firstFit same wanted text = some (bytes, found)) :
    ∃ skipped after, text = skipped ++ found :: after ∧ bytes = byteLength skipped ∧
      ∀ input, scatterFrom same [] text (wanted :: input) =
        (scatterFrom same [] after input).map fun marks =>
          List.replicate skipped.length false ++ true :: marks := by
  induction text generalizing bytes with
  | nil => cases h
  | cons c text ih =>
    rw [firstFit] at h
    by_cases hfits : same c wanted = true
    · simp only [hfits, if_true, Option.some.injEq, Prod.mk.injEq] at h
      obtain ⟨rfl, rfl⟩ := h
      refine ⟨[], text, rfl, by simp, fun input => ?_⟩
      rw [scatterFrom, if_pos hfits, scatterFrom_eq_map]
      rfl
    · simp only [hfits, Bool.false_eq_true, if_false, Option.map_eq_some_iff, Prod.mk.injEq] at h
      obtain ⟨⟨bytes', found'⟩, hlater, rfl, rfl⟩ := h
      obtain ⟨skipped, after, rfl, rfl, hscatter⟩ := ih hlater
      refine ⟨c :: skipped, after, rfl, by simp, fun input => ?_⟩
      rw [scatterFrom, if_neg hfits, scatterFrom_eq_map, hscatter, Option.map_map]
      rfl

end

/-- **Slices of the walk from letter to letter.** With the segments of what was passed so far, it goes on through
the rest and ends with the segments of the whole text, marked as the walk by characters marks it. -/
theorem sliceScattered_eq (same : Char → Char → Bool) {passed : Text} {marks : List Bool}
    (hmarks : marks.length = passed.length) (rest input : Text) :
    sliceScattered same (passed ++ rest) (byteLength passed) (segmentsOf passed marks) input =
      .ok ((scatterFrom same [] rest input).map fun more => segmentsOf (passed ++ rest) (marks ++ more)) := by
  induction input generalizing passed marks rest with
  | nil =>
    rw [sliceScattered, slice_end]
    simp only [bind, Except.bind, pure, Except.pure, scatterFrom, List.reverse_nil, List.nil_append,
      Option.map_some, segmentsOf_append rest false hmarks]
  | cons wanted input ih =>
    rw [sliceScattered, slice_end]
    simp only [bind, Except.bind, pure, Except.pure]
    cases hfit : firstFit same wanted rest with
    | none => simp [scatterFrom_of_firstFit_eq_none hfit]
    | some fit =>
      obtain ⟨bytes, found⟩ := fit
      obtain ⟨skipped, after, rfl, rfl, hscatter⟩ := scatterFrom_of_firstFit_eq_some hfit
      -- the text, seen as what is passed after this letter and what is left then
      have htext : passed ++ (skipped ++ found :: after) = passed ++ skipped ++ [found] ++ after := by simp
      have hplace : byteLength passed + byteLength skipped + found.utf8Size =
          byteLength (passed ++ skipped ++ [found]) := by simp [Nat.add_assoc]
      have hskipped : slice (passed ++ (skipped ++ found :: after)) (byteLength passed)
          (byteLength passed + byteLength skipped) = .ok skipped := by
        rw [← byteLength_append, ← List.append_assoc]
        exact slice_middle passed skipped (found :: after)
      have htaken : slice (passed ++ (skipped ++ found :: after)) (byteLength passed + byteLength skipped)
          (byteLength passed + byteLength skipped + found.utf8Size) = .ok [found] := by
        rw [hplace, ← byteLength_append, htext]
        exact slice_middle (passed ++ skipped) [found] after
      have hlength : (marks ++ List.replicate skipped.length false).length = (passed ++ skipped).length := by
        simp [hmarks]
      have hpushed := segmentsOf_append [found] true hlength
      simp only [hskipped, htaken]
      rw [hscatter, hplace, htext, ← segmentsOf_append skipped false hmarks, ← hpushed, ih (by simp [hmarks])]
      simp [Function.comp_def]

theorem sliceScattered_zero (same : Char → Char → Bool) (text input : Text) :
    sliceScattered same text 0 [] input = .ok ((scatterFrom same [] text input).map (segmentsOf text)) := by
  have hwalk := sliceScattered_eq same (show ([] : List Bool).length = ([] : Text).length from rfl) text input
  simp only [List.nil_append, byteLength_nil] at hwalk
  exact hwalk

/-! ## Reading by slices -/

/-- A piece that is found is cut out of the text. -/
theorem sliceFuzzily_of_occurrence {search : Search} {ignoreCase : Bool} {text input : Text} {start : Nat}
    (hbuilds : search.builds ignoreCase input = true) (h : search.find? ignoreCase text input = some start) :
    sliceFuzzily search ignoreCase text input =
      .ok (some (segmentsOf text (List.replicate start false ++ List.replicate input.length true ++
        List.replicate (text.length - start - input.length) false), if start = 0 then .one else .half)) := by
  obtain ⟨before, piece, after, rfl, rfl, hall⟩ := (Search.occursAt_of_find? h).exists_piece
  have hlength := hall.length_eq
  have hstart : (before ++ piece ++ after).take before.length = before := by simp
  have hstop : (before ++ piece ++ after).take (before.length + input.length) = before ++ piece := by
    rw [← hlength, ← List.length_append, List.take_left]
  have hafter : (before ++ piece ++ after).length - before.length - input.length = after.length := by
    simp only [List.length_append]
    omega
  have hscore : (byteLength before = 0) = (before.length = 0) := by
    simp [byteLength_eq_zero]
  have hsegments : segmentsOf (before ++ piece ++ after) (List.replicate before.length false ++
      List.replicate piece.length true ++ List.replicate after.length false) =
      pushSegment (pushSegment (pushSegment [] before false) piece true) after false := by
    rw [segmentsOf_append after false (by simp), segmentsOf_append piece true (by simp), segmentsOf_replicate]
  unfold sliceFuzzily foundBytes
  rw [if_pos hbuilds, h]
  simp only [Option.map_some, hstart, hstop, hafter, slice_middle, slice_end, hscore]
  rw [List.append_assoc, slice_start, ← List.append_assoc, ← hlength, hsegments]
  rfl

/-- Fuzzily, too, the slices are those of the alignment by characters. -/
theorem sliceFuzzily_eq (search : Search) (ignoreCase : Bool) (text input : Text) :
    sliceFuzzily search ignoreCase text input =
      .ok ((fuzzyAlign? search ignoreCase text input).map fun alignment =>
        (segmentsOf text alignment.marks, alignment.score)) := by
  have hscattered := sliceScattered_zero (sameLetter ignoreCase) text input
  by_cases hbuilds : search.builds ignoreCase input = true
  · cases hfound : search.find? ignoreCase text input with
    | none =>
      simp [sliceFuzzily, fuzzyAlign?, contiguous?, foundBytes, scattered?, hbuilds, hfound, hscattered,
        bind, Except.bind, pure, Except.pure, Function.comp_def]
    | some start =>
      rw [sliceFuzzily_of_occurrence hbuilds hfound]
      simp [fuzzyAlign?, contiguous?, hbuilds, hfound]
  · simp [sliceFuzzily, fuzzyAlign?, scattered?, hbuilds, hscattered, bind, Except.bind, pure, Except.pure,
      Function.comp_def]

theorem Literal.readingOf_eq (l : Literal) (alignment : Alignment) :
    l.readingOf alignment =
      l.readingWith alignment.remaining (segmentsOf l.text alignment.marks) alignment.score := rfl

/-- **Reading by slices is reading by characters**: no slice of text or input is ever misplaced. -/
theorem Literal.readSliced_eq (l : Literal) (leniency : Leniency) (input : Text) :
    l.readSliced leniency input = .ok (l.read? leniency input) := by
  obtain ⟨shared, consumed, htext, hinput, hbytes⟩ :=
    sharedBytes_eq (sameLetter leniency.ignoreCase) l.text input
  have hwhole : byteLength shared = byteLength l.text ↔
      (stripShared (sameLetter leniency.ignoreCase) l.text input).1 = [] := by
    conv_lhs => rw [htext, byteLength_append, eq_comm, Nat.add_eq_left, byteLength_eq_zero]
  have hused : byteLength consumed = byteLength input ↔
      (stripShared (sameLetter leniency.ignoreCase) l.text input).2 = [] := by
    conv_lhs => rw [hinput, byteLength_append, eq_comm, Nat.add_eq_left, byteLength_eq_zero]
  simp only [readSliced, read?, alignWith, lockstep?, hbytes, hwhole, hused, sliceFuzzily_eq]
  generalize stripShared (sameLetter leniency.ignoreCase) l.text input = left at htext hinput
  obtain ⟨untyped, rest⟩ := left
  cases untyped with
  | nil =>
    have hrest : slice input (byteLength consumed) (byteLength input) = .ok rest := by
      rw [hinput]
      exact slice_end consumed rest
    simp only [if_true, hrest, Option.map_some, readingOf_eq, segmentsOf_replicate]
    rfl
  | cons c untyped =>
    cases rest with
    | nil =>
      have htyped : slice l.text 0 (byteLength shared) = .ok shared := by
        rw [htext]
        exact slice_start shared _
      have huntyped : slice l.text (byteLength shared) (byteLength l.text) = .ok (c :: untyped) := by
        rw [htext]
        exact slice_end shared _
      have hmarks : segmentsOf l.text (List.replicate shared.length true ++
          List.replicate (c :: untyped).length false) =
          pushSegment (pushSegment [] shared true) (c :: untyped) false := by
        rw [htext, segmentsOf_append (c :: untyped) false (by simp), segmentsOf_replicate]
      have hlength : l.text.length - (c :: untyped).length = shared.length := by
        rw [htext, List.length_append, Nat.add_sub_cancel]
      simp only [reduceCtorEq, if_false, if_true, htyped, huntyped, Option.map_some, readingOf_eq, hlength, hmarks]
      rfl
    | cons d rest =>
      simp only [reduceCtorEq, if_false]
      by_cases hfuzzy : (l.fuzzy || leniency.fuzzy) = true
      · rw [if_pos hfuzzy, if_pos hfuzzy]
        cases hfound : fuzzyAlign? leniency.search leniency.ignoreCase l.text input with
        | none => rfl
        | some alignment =>
          rw [Option.map_some, Option.map_some, readingOf_eq, fuzzyAlign?_remaining hfound]
          rfl
      · rw [if_neg hfuzzy, if_neg hfuzzy]
        rfl

/-! ## The shape of segments -/

/-- Runs of a text: none is empty, and neighbours have different marks. -/
def Alternating (runs : List (Text × Bool)) : Prop :=
  (∀ run ∈ runs, run.1 ≠ []) ∧ runs.IsChain fun run next => run.2 ≠ next.2

theorem alternating_joinRun (entry : Char × Bool) {runs : List (Text × Bool)} (h : Alternating runs) :
    Alternating (joinRun entry runs) := by
  obtain ⟨hne, hchain⟩ := h
  cases runs with
  | nil => exact ⟨by simp [joinRun], .singleton _⟩
  | cons first rest =>
    obtain ⟨text, mark⟩ := first
    simp only [joinRun]
    by_cases hmark : mark = entry.2
    · rw [if_pos hmark]
      refine ⟨fun run hrun => ?_, ?_⟩
      · rcases List.mem_cons.1 hrun with rfl | hrest
        · simp
        · exact hne run (List.mem_cons_of_mem _ hrest)
      · cases rest with
        | nil => exact .singleton _
        | cons second rest => simpa [List.isChain_cons_cons] using hchain
    · rw [if_neg hmark]
      refine ⟨fun run hrun => ?_, List.isChain_cons_cons.2 ⟨Ne.symm hmark, hchain⟩⟩
      rcases List.mem_cons.1 hrun with rfl | hrest
      · simp
      · exact hne run hrest

theorem alternating_runsOf (text : Text) (marks : List Bool) : Alternating (runsOf text marks) := by
  unfold runsOf
  induction text.zip marks with
  | nil => exact ⟨by simp, .nil⟩
  | cons entry entries ih => exact alternating_joinRun entry ih

theorem map_asWord (runs : List (Text × Bool)) :
    (asWord runs).map (fun segment => (segment.text, segment.typed)) = runs := by
  cases runs with
  | nil => rfl
  | cons first rest => simp [asWord, Function.comp_def]

theorem startsWord_asWord_iff {runs : List (Text × Bool)} {i : Nat} {segment : Segment}
    (h : (asWord runs)[i]? = some segment) : segment.startsWord = true ↔ i = 0 := by
  cases runs with
  | nil => simp [asWord] at h
  | cons first rest =>
    cases i with
    | zero =>
      simp only [asWord, List.getElem?_cons_zero, Option.some.injEq] at h
      simp [← h]
    | succ i =>
      simp only [asWord, List.getElem?_cons_succ, List.getElem?_map, Option.map_eq_some_iff] at h
      obtain ⟨run, -, rfl⟩ := h
      simp

/-- **The segments of a literal spell its text.** Read any input as a literal, however leniently, by whatever search,
and whether or not the input can be searched for in one piece.

- No slice of text or input that is taken on the way is misplaced: each lies within its text and is cut between
  characters, and the reading by slices is the reading by characters.
- If there is a reading, its segments are the text of the literal, letter for letter. No segment is empty, typed
  and suggested ones alternate, and the first one is the only one that starts a word. There are none only if the
  text is empty. -/
theorem Literal.segments_spell_text (l : Literal) (leniency : Leniency) (input : Text) :
    l.readSliced leniency input = .ok (l.read? leniency input) ∧
    ∀ out, l.read? leniency input = some out →
      out.segments.flatMap (·.text) = l.text ∧
      (∀ segment ∈ out.segments, segment.text ≠ []) ∧
      out.segments.IsChain (fun segment next => segment.typed ≠ next.typed) ∧
      (∀ i segment, out.segments[i]? = some segment → (segment.startsWord = true ↔ i = 0)) ∧
      (out.segments = [] ↔ l.text = []) := by
  refine ⟨l.readSliced_eq leniency input, fun out hout => ?_⟩
  obtain ⟨alignment, halign, rfl⟩ := Option.map_eq_some_iff.1 hout
  have htext : (l.readingOf alignment).segments.flatMap (·.text) = l.text :=
    text_segmentsOf (length_marks_alignWith halign)
  have hword : (l.readingOf alignment).segments = asWord (runsOf l.text alignment.marks) :=
    segmentsOf_eq_asWord l.text alignment.marks
  obtain ⟨hne, hchain⟩ := alternating_runsOf l.text alignment.marks
  rw [← map_asWord (runsOf l.text alignment.marks), ← hword] at hne hchain
  rw [List.isChain_map] at hchain
  refine ⟨htext, fun segment hsegment => ?_, hchain, fun i segment hsegment => ?_, ?_⟩
  · exact hne (segment.text, segment.typed) (List.mem_map_of_mem hsegment)
  · rw [hword] at hsegment
    exact startsWord_asWord_iff hsegment
  · constructor
    · intro hnil
      rw [← htext, hnil, List.flatMap_nil]
    · intro hnil
      rw [hword, hnil]
      rfl

/-- A small letter of three bytes is found as its capital of two. -/
theorem stroked_letters_are_spelled :
    let l : Literal := { text := "Ⱥ-ȺB".toList, fuzzy := true }
    l.readSliced { ignoreCase := true } "ⱥb".toList = .ok (l.read? { ignoreCase := true } "ⱥb".toList) ∧
      ∃ out, l.read? { ignoreCase := true } "ⱥb".toList = some out ∧
        out.segments = [⟨"Ⱥ-".toList, false, true⟩, ⟨"ȺB".toList, true, false⟩] ∧
        out.segments.flatMap (·.text) = l.text ∧
        out.segments.IsChain fun segment next => segment.typed ≠ next.typed := by
  intro l
  obtain ⟨hsliced, hspelled⟩ := l.segments_spell_text { ignoreCase := true } "ⱥb".toList
  have hany : (l.read? { ignoreCase := true } "ⱥb".toList).any (fun out =>
      out.segments = [⟨"Ⱥ-".toList, false, true⟩, ⟨"ȺB".toList, true, false⟩]) = true := by
    cbv
  obtain ⟨out, hout, hsegments⟩ := (Option.any_eq_true _ _).1 hany
  obtain ⟨htext, -, halternate, -⟩ := hspelled out hout
  exact ⟨hsliced, out, hout, of_decide_eq_true hsegments, htext, halternate⟩

end Typeahead
