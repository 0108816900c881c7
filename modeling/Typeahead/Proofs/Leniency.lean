import Typeahead.Proofs.Narrowing

/-!
# Comparing less strictly

A comparison can be loosened in two ways: every literal may count as fuzzy, and the case of letters may be
ignored. Neither loses a reading. The first leaves readings as they are (`Literal.read?_fuzzy`). The second may
align a literal with the input in another way, with other segments and another score, but it leaves as much of
the input (`Literal.read?_ignoreCase`), so whatever comes after the literal reads on from the same place. Main
statement: `loosening_only_adds`.
-/

namespace Typeahead

/-! ## Aligning less strictly -/

theorem markedPart_sublist (text : Text) (marks : List Bool) : (markedPart text marks).Sublist text := by
  induction text generalizing marks with
  | nil => exact List.nil_sublist _
  | cons c text ih =>
    cases marks with
    | nil => exact List.nil_sublist _
    | cons mark marks =>
      rw [markedPart_cons]
      cases mark with
      | true => exact (ih marks).cons_cons c
      | false => exact (ih marks).cons c

/-- What is scattered over a text is found there by any comparison. -/
theorem scatterFrom_isSome {same : Char → Char → Bool} (hsame : ∀ c, same c c = true) {text input : Text}
    (h : input.Sublist text) (acc : List Bool) : (scatterFrom same acc text input).isSome := by
  rw [scatterFrom_isSome_iff, List.sublistForall₂_iff]
  exact ⟨input, List.forall₂_same.2 fun c _ => hsame c, h⟩

/-- With case significant, what is found fuzzily lies scattered over the text. -/
theorem sublist_of_fuzzyAlign? {search : Search} {text input : Text} {alignment : Alignment}
    (hnone : lockstep? false text input = none)
    (h : fuzzyAlign? search false text input = some alignment) : input.Sublist text := by
  have halign : alignWith search true false text input = some alignment :=
    alignWith_eq_some_iff.2 (.inr ⟨hnone, rfl, h⟩)
  have hinput := (alignWith_accounts halign).append_eq
  rw [fuzzyAlign?_remaining h, List.append_nil] at hinput
  rw [← hinput]
  exact markedPart_sublist _ _

section

variable {search : Search} {fuzzy : Bool} {text input : Text} {alignment : Alignment}

/-- Lockstep goes as far when case is ignored. -/
theorem lockstep?_ignoreCase (h : lockstep? false text input = some alignment) :
    ∃ looser, lockstep? true text input = some looser ∧ looser.remaining = alignment.remaining := by
  have hsame (c d : Char) (heq : sameLetter false c d = true) : sameLetter true c d = true := by
    rw [sameLetter_false_iff.1 heq]
    exact sameLetter_refl true d
  rcases lockstep?_agrees h with ⟨consumed, hinput, hall⟩ | ⟨hremaining, typed, untyped, rfl, hall⟩
  · rw [hinput]
    exact lockstep?_of_text (hall.imp hsame) _
  · rw [hremaining]
    exact lockstep?_of_input (hall.imp hsame) untyped

theorem lockstep?_remaining_of_length_le {ignoreCase : Bool} (hle : input.length ≤ text.length)
    (h : lockstep? ignoreCase text input = some alignment) : alignment.remaining = [] := by
  rcases lockstep?_agrees h with ⟨consumed, hinput, hall⟩ | ⟨hremaining, -⟩
  · -- the text is used up, so there is no input beyond it
    rw [hinput, List.length_append, hall.length_eq] at hle
    exact List.length_eq_zero_iff.1 (by omega)
  · exact hremaining

/-- Fuzzily or not, what is aligned with case significant is aligned when case is ignored, and as much of the
input is left. It does not matter which inputs can be searched for in one piece, nor what a search does. -/
theorem alignWith_ignoreCase (h : alignWith search fuzzy false text input = some alignment)
    (search' : Search) :
    ∃ looser, alignWith search' fuzzy true text input = some looser ∧
      looser.remaining = alignment.remaining := by
  rcases alignWith_eq_some_iff.1 h with hlockstep | ⟨hnone, hfuzzy, hfound⟩
  · obtain ⟨looser, hlooser, hremaining⟩ := lockstep?_ignoreCase hlockstep
    exact ⟨looser, alignWith_eq_some_iff.2 (.inl hlooser), hremaining⟩
  · have hsub := sublist_of_fuzzyAlign? hnone hfound
    rw [fuzzyAlign?_remaining hfound]
    -- lockstep may do now; if not, the input can still be scattered over the text
    cases hlockstep : lockstep? true text input with
    | some looser =>
      refine ⟨looser, alignWith_eq_some_iff.2 (.inl hlockstep), ?_⟩
      exact lockstep?_remaining_of_length_le hsub.length_le hlockstep
    | none =>
      have hscattered : (scattered? true text input).isSome := by
        rw [scattered?, Option.isSome_map]
        exact scatterFrom_isSome (sameLetter_refl true) hsub []
      have hsome : (fuzzyAlign? search' true text input).isSome := by
        unfold fuzzyAlign?
        split
        · rfl
        · exact hscattered
      obtain ⟨looser, hlooser⟩ := Option.isSome_iff_exists.1 hsome
      exact ⟨looser, alignWith_eq_some_iff.2 (.inr ⟨hlockstep, hfuzzy, hlooser⟩), fuzzyAlign?_remaining hlooser⟩

end

/-! ## Reading less strictly -/

/-- What an output stands for, whatever was typed to get there: its value, its text, and what is left. -/
def Output.gist (out : Output) : Value × Text × Text := (out.result, out.text, out.remaining)

namespace Literal

variable {l : Literal} {leniency : Leniency} {input : Text} {out : Output}

theorem read?_fuzzy (h : l.read? leniency input = some out) :
    l.read? { leniency with fuzzy := true } input = some out := by
  obtain ⟨alignment, halign, rfl⟩ := Option.map_eq_some_iff.1 h
  refine Option.map_eq_some_iff.2 ⟨alignment, ?_, rfl⟩
  rw [Bool.or_true]
  rcases alignWith_eq_some_iff.1 halign with hlockstep | ⟨hnone, -, hfound⟩
  · exact alignWith_eq_some_iff.2 (.inl hlockstep)
  · exact alignWith_eq_some_iff.2 (.inr ⟨hnone, rfl, hfound⟩)

/-- A literal that is read is read when case is ignored, as a reading with the same gist. -/
theorem read?_ignoreCase (h : l.read? leniency input = some out) :
    ∃ looser, l.read? { leniency with ignoreCase := true } input = some looser ∧ out.gist = looser.gist := by
  cases hcase : leniency.ignoreCase with
  | true =>
    have hsame : { leniency with ignoreCase := true } = leniency := by rw [← hcase]
    exact ⟨out, by rw [hsame, h], rfl⟩
  | false =>
    obtain ⟨alignment, halign, rfl⟩ := Option.map_eq_some_iff.1 h
    rw [hcase] at halign
    obtain ⟨looser, hlooser, hremaining⟩ := alignWith_ignoreCase halign leniency.search
    have hread : l.read? { leniency with ignoreCase := true } input = some (l.readingOf looser) :=
      Option.map_eq_some_iff.2 ⟨looser, hlooser, rfl⟩
    obtain ⟨htext, hresult⟩ := read?_shows h
    obtain ⟨htext', hresult'⟩ := read?_shows hread
    refine ⟨_, hread, ?_⟩
    rw [Output.gist, Output.gist, htext, htext', hresult, hresult']
    exact congrArg _ (congrArg _ hremaining.symm)

end Literal

/-! ## Loosened grammars -/

/-- A way to compare outputs that goes along with how they are put together. -/
structure Output.Compatible (rel : Output → Output → Prop) : Prop where
  seed : ∀ input, rel (Output.seed input) (Output.seed input)
  merge : ∀ {acc acc' out out'} (position), rel acc acc' → rel out out' →
    rel (acc.merge position out) (acc'.merge position out')
  remaining : ∀ {out out'}, rel out out' → out.remaining = out'.remaining
  result : ∀ {out out'}, rel out out' → out.result = out'.result
  value : ∀ {out out' : Output} (value), rel out out' →
    rel { out with result := value } { out' with result := value }

namespace Output

theorem compatible_eq : Compatible Eq where
  seed _ := rfl
  merge _ hacc hout := by rw [hacc, hout]
  remaining h := by rw [h]
  result h := by rw [h]
  value _ h := by rw [h]

/-- Outputs with the same gist are put together to outputs with the same gist. -/
theorem compatible_gist : Compatible fun out out' => out.gist = out'.gist where
  seed _ := rfl
  merge {acc acc' out out'} position hacc hout := by
    simp only [gist, Prod.mk.injEq] at hacc hout ⊢
    refine ⟨?_, ?_, hout.2.2⟩
    · simp only [merge, fields, hacc.1, hout.1]
    · rw [text_merge, text_merge, hacc.2.1, hout.2.1]
  remaining h := (Prod.mk.inj (Prod.mk.inj h).2).2
  result h := (Prod.mk.inj h).1
  value value h := by
    obtain ⟨htext, hremaining⟩ := Prod.mk.inj (Prod.mk.inj h).2
    exact congrArg (Prod.mk value) (congrArg₂ Prod.mk htext hremaining)

end Output

variable {n : Nat}

/-- A context is narrower than one that reads all literals that it reads. -/
theorem narrows_of_leniency {rel : Output → Output → Prop} (hrel : Output.Compatible rel) (ctx : Context n)
    (leniency : Leniency)
    (hread : ∀ (l : Literal) input out, l.read? ctx.leniency input = some out →
      ∃ looser, l.read? leniency input = some looser ∧ rel out looser) :
    Narrows rel ctx { ctx with leniency } where
  literal {l l'} input hl := by
    cases hl
    cases hnarrow : l.read? ctx.leniency input with
    | none => exact Run.among_done _
    | some out =>
      obtain ⟨looser, hlooser, hout⟩ := hread l input out hnarrow
      rw [hlooser]
      exact Run.among_pure hout
  label {label label' out out'} hlabel hout := by
    cases hlabel
    cases label with
    | none => exact hout
    | some name =>
      have hlabelled := hrel.value (.obj [(name, out.result)]) hout
      rw [Output.labelIf, Output.labelIf, Output.label, Output.label, ← hrel.result hout]
      exact hlabelled
  seed := hrel.seed
  merge := hrel.merge
  remaining := hrel.remaining
  down step h := congrArg (·.down step) h
  phrases := rfl
  override _ := rfl
  supplements _ _ := List.Sublist.refl _
  result := hrel.result
  value := hrel.value

/-- Outputs that are found among others with the same view are, in that view, some of them. -/
theorem map_sublist_of_sublistForall₂ {α β : Type} (view : α → β) {items items' : List α}
    (h : List.SublistForall₂ (fun a b => view a = view b) items items') :
    (items.map view).Sublist (items'.map view) := by
  obtain ⟨found, hfound, hsub⟩ := List.sublistForall₂_iff.1 h
  have hviews : List.Forall₂ (· = ·) (items.map view) (found.map view) := by
    rw [List.forall₂_map_left_iff, List.forall₂_map_right_iff]
    exact hfound
  rw [List.forall₂_eq_eq_eq] at hviews
  rw [hviews]
  exact hsub.map view

/-- **Comparing less strictly loses nothing.** Take any grammar with any extensions, and read some input with
every literal counted as fuzzy, or with case ignored.

- If no phrase function gives up, both readings end well.
- Whenever reading fuzzily ends well, so does reading strictly, and the outputs of the strict reading are found
  among those of the fuzzy one, the same ones in the same order.
- Whenever reading with case ignored ends well, so does reading strictly, and the outputs of the strict reading,
  as to value, text and what is left, are found among those with case ignored, in the same order. -/
theorem loosening_only_adds (ctx : Context n) (root : Placed n) (input : Text) (progress : Progress) :
    let fuzzy : Context n := { ctx with leniency := { ctx.leniency with fuzzy := true } }
    let caseless : Context n := { ctx with leniency := { ctx.leniency with ignoreCase := true } }
    (ctx.phrases.Quiet →
      (∃ more, ((fuzzy.resolve root input).drain progress).1 = .ok more) ∧
      ∃ more, ((caseless.resolve root input).drain progress).1 = .ok more) ∧
    (∀ more, ((fuzzy.resolve root input).drain progress).1 = .ok more →
      ∃ outputs, ((ctx.resolve root input).drain progress).1 = .ok outputs ∧ outputs.Sublist more) ∧
    ∀ more, ((caseless.resolve root input).drain progress).1 = .ok more →
      ∃ outputs, ((ctx.resolve root input).drain progress).1 = .ok outputs ∧
        (outputs.map Output.gist).Sublist (more.map Output.gist) := by
  intro fuzzy caseless
  refine ⟨fun hquiet => ⟨?_, ?_⟩, fun more hmore => ?_, fun more hmore => ?_⟩
  · exact ⟨_, Run.drain_eq_ok_iff.2 ⟨fuzzy.fault?_resolveTraced hquiet root [] input, rfl⟩⟩
  · exact ⟨_, Run.drain_eq_ok_iff.2 ⟨caseless.fault?_resolveTraced hquiet root [] input, rfl⟩⟩
  · have hnarrows : Narrows Eq ctx fuzzy :=
      narrows_of_leniency Output.compatible_eq ctx _ fun l input out h => ⟨out, l.read?_fuzzy h, rfl⟩
    obtain ⟨outputs, houtputs, hamong⟩ := hnarrows.exists_drain hmore
    have hsub := map_sublist_of_sublistForall₂ id hamong
    rw [List.map_id, List.map_id] at hsub
    exact ⟨outputs, houtputs, hsub⟩
  · have hnarrows : Narrows (fun out out' => out.gist = out'.gist) ctx caseless :=
      narrows_of_leniency Output.compatible_gist ctx _ fun l input out h => l.read?_ignoreCase h
    obtain ⟨outputs, houtputs, hamong⟩ := hnarrows.exists_drain hmore
    exact ⟨outputs, houtputs, map_sublist_of_sublistForall₂ Output.gist hamong⟩

/-- Applications by name: one in small letters, one with the typed letter inside, one with a capital, and a chain
of applications. -/
def launchContext : Context 1 where
  phrases _ :=
    { identity := "App"
      describe := fun _ => .ok <| .choice none [.text "mail", .text "email", .text "Maps",
        .sequence none [.text "mix ", .element none ⟨⟨0, Nat.one_pos⟩, []⟩]] }
  registry := {}
  leniency := {}

def launchRoot : Placed 1 :=
  ⟨⟨0, []⟩, .sequence none [.text "open ", .element (some "app") ⟨⟨0, Nat.one_pos⟩, []⟩]⟩

/-- Typing "m" finds one more application fuzzily, and another one when case is ignored. -/
theorem launchContext_loosened :
    let reading (leniency : Leniency) :=
      ({ launchContext with leniency }.resolve launchRoot "open m".toList).drain {}
    ∃ outputs fuzzy caseless, (reading {}).1 = .ok outputs ∧ (reading { fuzzy := true }).1 = .ok fuzzy ∧
      (reading { ignoreCase := true }).1 = .ok caseless ∧ outputs.Sublist fuzzy ∧
      (outputs.map Output.gist).Sublist (caseless.map Output.gist) ∧
      outputs.map (·.text) = ["open mail".toList] ∧
      fuzzy.map (·.text) = ["open mail".toList, "open email".toList] ∧
      caseless.map (·.text) = ["open mail".toList, "open Maps".toList] := by
  intro reading
  have hquiet : launchContext.phrases.Quiet := by
    rintro phrase f (h | ⟨h, -⟩ | h) <;> cases h
  obtain ⟨hends, hfuzzy, hcaseless⟩ := loosening_only_adds launchContext launchRoot "open m".toList {}
  obtain ⟨⟨fuzzy, hfuzzyEnds⟩, caseless, hcaselessEnds⟩ := hends hquiet
  obtain ⟨outputs, houtputs, hsub⟩ := hfuzzy fuzzy hfuzzyEnds
  obtain ⟨outputs', houtputs', hsub'⟩ := hcaseless caseless hcaselessEnds
  cases houtputs.symm.trans houtputs'
  refine ⟨outputs, fuzzy, caseless, houtputs, hfuzzyEnds, hcaselessEnds, hsub, hsub', ?_, ?_, ?_⟩
  · rw [← (Run.drain_eq_ok_iff.1 houtputs).2]
    decide +kernel
  · rw [← (Run.drain_eq_ok_iff.1 hfuzzyEnds).2]
    decide +kernel
  · rw [← (Run.drain_eq_ok_iff.1 hcaselessEnds).2]
    decide +kernel

end Typeahead
