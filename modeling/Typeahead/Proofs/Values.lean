import Typeahead.Proofs.Simulation

/-!
# Values do not steer reading

Labels, the values of literals and the value functions of phrases make up the result of a reading, and results
are looked at by filters alone. So two grammars that differ in nothing else, and in which no filter rejects
anything, are read in step: the outputs come in pairs that match the same text in the same way
(`Output.SameMatch`), and what is counted is the same after every pull (`Run.InStep.pullOn`). Main statement:
`values_never_steer`.
-/

namespace Typeahead

variable {n : Nat}

/-! ## Pulling in step -/

theorem Metrics.record_alike {place : Address → Address → Prop} {e e' : Event} (h : e.Alike place e')
    (metrics : Metrics) : metrics.record e = metrics.record e' := by
  cases h <;> rfl

section

variable {α β : Type} {place : Address → Address → Prop} {output : α → β → Prop}

/-- Two pulls that give the same kind of answer, with related outputs and rests that are in step. -/
inductive Pulled.InStep (place : Address → Address → Prop) (output : α → β → Prop) : Pulled α → Pulled β → Prop
  | output {a : α} {b : β} {rest : Run α} {rest' : Run β} : output a b →
      Run.InStep (Event.Alike place) output rest rest' → InStep place output (.output a rest) (.output b rest')
  | exhausted : InStep place output .exhausted .exhausted
  | fault (f : Fault) : InStep place output (.fault f) (.fault f)

/-- One pull on runs in step counts the same, and leaves runs in step. -/
theorem Run.InStep.pull {run : Run α} {run' : Run β} (h : Run.InStep (Event.Alike place) output run run')
    {progress progress' : Progress} (hmetrics : progress.metrics = progress'.metrics) :
    Pulled.InStep place output (run.pull progress).1 (run'.pull progress').1 ∧
      (run.pull progress).2.metrics = (run'.pull progress').2.metrics := by
  induction h generalizing progress progress' with
  | done => exact ⟨.exhausted, hmetrics⟩
  | fault f => exact ⟨.fault f, hmetrics⟩
  | @event e e' rest rest' he _ ih =>
    refine ih (?_ : (progress.record e).metrics = (progress'.record e').metrics)
    simp only [Progress.record, hmetrics, Metrics.record_alike he]
  | output ho hrest _ => exact ⟨.output ho hrest, hmetrics⟩

/-- **Any number of pulls** on runs in step count the same. -/
theorem Run.InStep.pullOn {run : Run α} {run' : Run β} (h : Run.InStep (Event.Alike place) output run run')
    {progress progress' : Progress} (hmetrics : progress.metrics = progress'.metrics) (count : Nat) :
    Pulled.InStep place output (run.pullOn progress count).1 (run'.pullOn progress' count).1 ∧
      (run.pullOn progress count).2.metrics = (run'.pullOn progress' count).2.metrics := by
  induction count generalizing run run' progress progress' with
  | zero => exact h.pull hmetrics
  | succ count ih =>
    obtain ⟨hpulled, hafter⟩ := h.pull hmetrics
    simp only [Run.pullOn]
    generalize run.pull progress = pulled at hpulled hafter ⊢
    generalize run'.pull progress' = pulled' at hpulled hafter ⊢
    obtain ⟨answer, after⟩ := pulled
    obtain ⟨answer', after'⟩ := pulled'
    cases hpulled with
    | output _ hrest => exact ih hrest hafter
    | exhausted => exact ⟨.exhausted, hafter⟩
    | fault f => exact ⟨.fault f, hafter⟩

end

/-! ## Grammars that differ in values -/

/-- Readings that match the same text in the same way, whatever their results. -/
structure Output.SameMatch (out out' : Output) : Prop where
  segments : out.segments = out'.segments
  remaining : out.remaining = out'.remaining
  score : out.score = out'.score

/-- Literals that differ at most in their values. -/
structure Literal.SameButValue (l l' : Literal) : Prop where
  text : l.text = l'.text
  fuzzy : l.fuzzy = l'.fuzzy
  score : l.score = l'.score

/-- Trees that differ at most in labels and values of literals, wherever they stand. -/
abbrev Likeness.butValues (n : Nat) : Likeness n where
  place _ _ := True
  label _ _ := True
  literal := Literal.SameButValue
  output := Output.SameMatch

/-- Books that differ at most in labels, values of literals and value functions. -/
structure Phrasebook.SameButValues (book book' : Phrasebook n) : Prop where
  identity : ∀ phrase, (book phrase).identity = (book' phrase).identity
  supplements : ∀ phrase, (book phrase).supplements = (book' phrase).supplements
  overrides : ∀ phrase, (book phrase).overrides = (book' phrase).overrides
  describe : ∀ phrase props, SameOutcome (Node.Alike (.butValues n)) ((book phrase).describe props)
    ((book' phrase).describe props)

/-- No phrase rejects anything, and no value function gives up. -/
structure Phrasebook.Permissive (book : Phrasebook n) : Prop where
  accepts : ∀ phrase props result, (book phrase).accepts props result = .ok true
  value : ∀ phrase value props result, (book phrase).value = some value →
    ∃ given, value props result = .ok given

theorem Literal.SameButValue.inStep_read {l l' : Literal} (h : l.SameButValue l') (leniency : Leniency)
    (input : Text) : (Likeness.butValues n).InStep (Run.ofOption (l.read? leniency input))
      (Run.ofOption (l'.read? leniency input)) := by
  rw [Literal.read?, Literal.read?, h.text, h.fuzzy]
  cases alignWith leniency.search (l'.fuzzy || leniency.fuzzy) leniency.ignoreCase l'.text input with
  | none => exact .done
  | some alignment =>
    refine Run.inStep_pure ⟨?_, rfl, ?_⟩
    · simp only [Literal.readingOf, h.text]
    · simp only [Literal.readingOf, Literal.ownScore?, h.score]

theorem Likeness.composes_butValues (leniency : Leniency) :
    (Likeness.butValues n).Composes (Likeness.butValues n).InStep leniency leniency where
  literal input h := h.inStep_read leniency input
  label _ h := ⟨by simpa using h.segments, by simpa using h.remaining, by simpa using h.score⟩
  seed _ := ⟨rfl, rfl, rfl⟩
  merge position hacc hout := by
    refine ⟨?_, hout.remaining, ?_⟩
    · simp only [Output.merge, hacc.segments, hout.segments]
    · simp only [Output.merge, hacc.score, hout.score]
  remaining h := h.remaining
  down _ _ := trivial

namespace Phrasebook.Permissive

variable {book book' : Phrasebook n}

theorem screen_eq (h : book.Permissive) (phrase : Fin n) (props : Props) (out : Output) :
    (book phrase).screen props out = Run.pure out := by
  rw [Phrase.screen, h.accepts]

theorem exists_revalue_eq (h : book.Permissive) (phrase : Fin n) (props : Props) (out : Output) :
    ∃ result, (book phrase).revalue props out = Run.pure { out with result } := by
  unfold Phrase.revalue
  split
  · exact ⟨out.result, rfl⟩
  · next value hvalue =>
    obtain ⟨given, hgiven⟩ := h.value phrase value props out.result hvalue
    exact ⟨given, by rw [hgiven]⟩

end Phrasebook.Permissive

/-- **Grammars that differ in values are read in step.** -/
theorem similar_of_sameButValues {book book' : Phrasebook n} (hbooks : book.SameButValues book')
    (hbook : book.Permissive) (hbook' : book'.Permissive) {extensions extensions' : List (Placed n)}
    (hextensions : List.Forall₂ (Placed.Alike (.butValues n)) extensions extensions') (leniency : Leniency) :
    Similar (.butValues n) ⟨book, .ofExtensions book extensions, leniency⟩
      ⟨book', .ofExtensions book' extensions', leniency⟩ := by
  have htargets {e e' : Element n} (he : e = e') :
      (book e.phrase).supplements = (book' e'.phrase).supplements ∧
        (book e.phrase).overrides = (book' e'.phrase).overrides := by
    rw [he]
    exact ⟨hbooks.supplements _, hbooks.overrides _⟩
  have hlists := Registry.lists_alike (hextensions.imp fun _ _ h => ⟨h, h.targets_eq htargets⟩)
  refine
    { toComposes := Likeness.composes_butValues leniency
      identity := ?_
      override := ?_
      describe := ?_
      screen := ?_
      revalue := ?_
      supplements := ?_ }
  · rintro e _ rfl
    exact hbooks.identity _
  · rintro e _ rfl
    rw [← hbooks.identity]
    exact (hlists _).2
  · rintro e _ rfl -
    exact hbooks.describe _ _
  · rintro e _ out out' rfl - hout
    rw [hbook.screen_eq, hbook'.screen_eq]
    exact Run.inStep_pure hout
  · rintro e _ out out' rfl - hout
    obtain ⟨result, hvalue⟩ := hbook.exists_revalue_eq e.phrase e.props out
    obtain ⟨result', hvalue'⟩ := hbook'.exists_revalue_eq e.phrase e.props out'
    rw [hvalue, hvalue']
    exact Run.inStep_pure ⟨hout.segments, hout.remaining, hout.score⟩
  · rintro e _ rfl -
    rw [← hbooks.identity]
    exact (hlists _).1

/-- **Values never steer reading.** Take two grammars with their extensions that differ only in labels, values of
literals and value functions, wherever their nodes stand; value functions do not give up, and no filter rejects
anything. Then two roots that differ only so are read alike on every input:

- there are as many outputs, pair by pair with the same segments, the same rest and the same score;
- if a description is not to be had, both readings end with the same fault at that point;
- every pull gives such a pair, or ends both readings; and whatever was counted before, if it was the same, it is
  the same again after the pull. -/
theorem values_never_steer (book book' : Phrasebook n) (extensions extensions' : List (Placed n))
    (leniency : Leniency) (hbooks : book.SameButValues book') (hbook : book.Permissive) (hbook' : book'.Permissive)
    (hextensions : List.Forall₂ (Placed.Alike (.butValues n)) extensions extensions') (root root' : Placed n)
    (hroot : root.Alike (.butValues n) root') (input : Text) :
    let run := (⟨book, .ofExtensions book extensions, leniency⟩ : Context n).resolve root input
    let run' := (⟨book', .ofExtensions book' extensions', leniency⟩ : Context n).resolve root' input
    List.Forall₂ Output.SameMatch run.outputs run'.outputs ∧ run.fault? = run'.fault? ∧
    ∀ progress progress' : Progress, progress.metrics = progress'.metrics → ∀ pulls,
      Pulled.InStep (fun _ _ => True) Output.SameMatch (run.pullOn progress pulls).1
          (run'.pullOn progress' pulls).1 ∧
        (run.pullOn progress pulls).2.metrics = (run'.pullOn progress' pulls).2.metrics := by
  intro run run'
  have hsimilar := similar_of_sameButValues hbooks hbook hbook' hextensions leniency
  have hstep : (Likeness.butValues n).InStep run run' := hsimilar.resolveTraced hroot [] input
  obtain ⟨-, houtputs, hfault⟩ := hstep.views
  refine ⟨houtputs, hfault, fun progress progress' hmetrics pulls => ?_⟩
  exact hstep.pullOn hmetrics pulls

/-- Colours, and shades that are added to them: plain, or with labels, values and a value function. -/
def swatchBook (plain : Bool) : Phrasebook 2
  | 0 =>
    { identity := "Colour"
      describe := fun _ =>
        if plain then .ok (.choice none [.text "red", .text "rose"])
        else .ok (.choice (some "shade") [(Node.text "red").valued (.int 3), (Node.text "rose").labelled "kind"])
      value := if plain then none else some fun _ result => .ok (.arr [result]) }
  | 1 =>
    { identity := "Shade"
      describe := fun _ => .ok (.text "russet")
      supplements := ["Colour"] }

def swatchRoot (label : Option String) : Placed 2 :=
  ⟨⟨0, []⟩, .sequence label [.text "paint ", .element label ⟨0, []⟩]⟩

def swatchExtensions : List (Placed 2) := [⟨⟨1, []⟩, .element none ⟨1, []⟩⟩]

theorem swatchBook_sameButValues : (swatchBook true).SameButValues (swatchBook false) where
  identity
    | 0 | 1 => rfl
  supplements
    | 0 | 1 => rfl
  overrides
    | 0 | 1 => rfl
  describe
    | 0, _ =>
      .ok (.choice trivial (.cons (.literal trivial ⟨rfl, rfl, rfl⟩) (.cons (.literal trivial ⟨rfl, rfl, rfl⟩) .nil)))
    | 1, _ => .ok (.literal trivial ⟨rfl, rfl, rfl⟩)

theorem swatchBook_permissive : ∀ plain, (swatchBook plain).Permissive := by
  refine fun plain => ⟨fun phrase props result => ?_, fun phrase value props result hvalue => ?_⟩
  · match phrase with
    | 0 => rfl
    | 1 => rfl
  · match phrase, plain with
    | 0, true => cases hvalue
    | 0, false => cases hvalue; exact ⟨_, rfl⟩
    | 1, _ => cases hvalue

theorem swatchRoot_alike (label label' : Option String) :
    (swatchRoot label).Alike (.butValues 2) (swatchRoot label') := by
  refine ⟨trivial, .sequence trivial (.cons (.literal trivial ⟨rfl, rfl, rfl⟩) (.cons ?_ .nil))⟩
  exact .element trivial rfl

/-- Plain or not, the same colours match in the same way, and every pull does the same work; but no result is the
same. -/
theorem swatches_match_alike :
    let run (plain : Bool) (label : Option String) :=
      (⟨swatchBook plain, .ofExtensions (swatchBook plain) swatchExtensions, {}⟩ : Context 2).resolve
        (swatchRoot label) "paint r".toList
    let plain := run true none
    let valued := run false (some "job")
    List.Forall₂ Output.SameMatch plain.outputs valued.outputs ∧
    (∀ pulls, (plain.pullOn {} pulls).2.metrics = (valued.pullOn {} pulls).2.metrics) ∧
    plain.outputs.map (·.text) = ["paint red".toList, "paint rose".toList, "paint russet".toList] ∧
    (List.zipWith (fun out out' => out.result.same out'.result) plain.outputs valued.outputs) =
      [false, false, false] := by
  intro run plain valued
  have hextensions : List.Forall₂ (Placed.Alike (.butValues 2)) swatchExtensions swatchExtensions :=
    .cons ⟨trivial, .element trivial rfl⟩ .nil
  obtain ⟨houtputs, -, hpulls⟩ := values_never_steer (swatchBook true) (swatchBook false) swatchExtensions
    swatchExtensions {} swatchBook_sameButValues (swatchBook_permissive true) (swatchBook_permissive false)
    hextensions (swatchRoot none) (swatchRoot (some "job")) (swatchRoot_alike _ _) "paint r".toList
  refine ⟨houtputs, fun pulls => (hpulls {} {} rfl pulls).2, ?_, ?_⟩
  · decide +kernel
  · decide +kernel

end Typeahead
