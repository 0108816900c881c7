import Mathlib.Algebra.GroupWithZero.Nat
import Typeahead.Proofs.History
import Typeahead.Proofs.Simulation
import Typeahead.Proofs.Survey

/-!
# Overridden phrases

Where an extension stands in for the phrases of an identity, nothing of these phrases matters but the identity.
Two grammars that differ only in what such phrases do, and in the props of their elements, are read in step
(`similar_of_overridden`). No description of such an element is called for (`survey_undescribed`). And of
several extensions that stand in for one identity only the last one counts (`override?_withdraw`). Main
statement: `overridden_phrase_is_inert`.
-/

namespace Typeahead

variable {n : Nat}

/-! ## Grammars that differ in what is overridden -/

/-- Trees that are the same but for the props of the elements of an identity. -/
abbrev Likeness.butProps (book : Phrasebook n) (target : String) : Likeness n where
  element e e' := e.phrase = e'.phrase ∧ ((book e.phrase).identity ≠ target → e.props = e'.props)

theorem Node.alike_butProps (book : Phrasebook n) (target : String) (node : Node n) :
    node.Alike (.butProps book target) node := by
  refine Node.alike_self (fun _ => rfl) (fun _ => rfl) (fun e => ?_) node
  exact ⟨rfl, fun _ => rfl⟩

/-- Books that are the same but for what the phrases of an identity do, and for the props of their elements. -/
structure Phrasebook.SameBut (book : Phrasebook n) (target : String) (book' : Phrasebook n) : Prop where
  identity : ∀ phrase, (book phrase).identity = (book' phrase).identity
  supplements : ∀ phrase, (book phrase).supplements = (book' phrase).supplements
  overrides : ∀ phrase, (book phrase).overrides = (book' phrase).overrides
  describe : ∀ phrase, (book phrase).identity ≠ target → ∀ props,
    SameOutcome (Node.Alike (.butProps book target)) ((book phrase).describe props)
      ((book' phrase).describe props)
  value : ∀ phrase, (book phrase).identity ≠ target → (book phrase).value = (book' phrase).value
  accepts : ∀ phrase, (book phrase).identity ≠ target → (book phrase).accepts = (book' phrase).accepts

section

variable {book book' : Phrasebook n} {target : String} {extensions extensions' : List (Placed n)}

theorem Phrasebook.SameBut.screen_eq (h : book.SameBut target book') {phrase : Fin n}
    (hne : (book phrase).identity ≠ target) : (book phrase).screen = (book' phrase).screen := by
  funext props out
  rw [Phrase.screen, Phrase.screen, h.accepts phrase hne]

theorem Phrasebook.SameBut.revalue_eq (h : book.SameBut target book') {phrase : Fin n}
    (hne : (book phrase).identity ≠ target) : (book phrase).revalue = (book' phrase).revalue := by
  funext props out
  rw [Phrase.revalue, Phrase.revalue, h.value phrase hne]

/-- As extensions, elements go by their phrase alone. -/
theorem targets_alike (hbooks : book.SameBut target book') {placed placed' : Placed n}
    (h : placed.Alike (.butProps book target) placed') :
    placed.supplements book = placed'.supplements book' ∧ placed.overrides book = placed'.overrides book' := by
  refine h.targets_eq ?_
  rintro e e' ⟨hphrase, -⟩
  rw [hphrase]
  exact ⟨hbooks.supplements _, hbooks.overrides _⟩

/-- Phrases that nothing stands in for are of another identity. -/
theorem ne_of_override?_eq_none (hoverridden : ∃ placed ∈ extensions, target ∈ placed.overrides book)
    {other : String} (hnone : (Registry.ofExtensions book extensions).override? other = none) :
    other ≠ target := by
  rintro rfl
  obtain ⟨placed, hplaced, hnames⟩ := hoverridden
  exact Registry.override?_eq_none_iff.1 hnone placed hplaced hnames

/-- **Grammars that differ in what is overridden are read in step.** -/
theorem similar_of_overridden (hbooks : book.SameBut target book')
    (hextensions : List.Forall₂ (Placed.Alike (.butProps book target)) extensions extensions')
    (hoverridden : ∃ placed ∈ extensions, target ∈ placed.overrides book) (leniency : Leniency) :
    Similar (.butProps book target) ⟨book, .ofExtensions book extensions, leniency⟩
      ⟨book', .ofExtensions book' extensions', leniency⟩ := by
  have hlists := Registry.lists_alike (hextensions.imp fun _ _ h => ⟨h, targets_alike hbooks h⟩)
  refine
    { toComposes := Likeness.composes_eq (Likeness.compares_inStep _)
        (fun step h => congrArg (·.down step) h) leniency
      identity := ?_
      override := ?_
      describe := ?_
      screen := ?_
      revalue := ?_
      supplements := ?_ }
  all_goals intro e e'
  · rintro ⟨hphrase, -⟩
    rw [← hphrase]
    exact hbooks.identity _
  · rintro ⟨hphrase, -⟩
    rw [← hphrase, ← hbooks.identity]
    exact (hlists _).2
  · rintro ⟨hphrase, hprops⟩ hnone
    have hne := ne_of_override?_eq_none hoverridden hnone
    rw [← hphrase, ← hprops hne]
    exact hbooks.describe _ hne _
  · rintro out _ ⟨hphrase, hprops⟩ hnone rfl
    have hne := ne_of_override?_eq_none hoverridden hnone
    rw [← hphrase, ← hprops hne, hbooks.screen_eq hne]
    exact Phrase.inStep_screen _ _ _
  · rintro out _ ⟨hphrase, hprops⟩ hnone rfl
    have hne := ne_of_override?_eq_none hoverridden hnone
    rw [← hphrase, ← hprops hne, hbooks.revalue_eq hne]
    exact Phrase.inStep_revalue _ _ _
  · rintro ⟨hphrase, -⟩ -
    rw [← hphrase, ← hbooks.identity]
    exact (hlists _).1

/-! ## Descriptions that are not called for -/

/-- The roots of a session tell its nodes apart. -/
theorem Session.Sound.rooted {session : Session n} (h : session.Sound) :
    Rooted (session.sentences ++ session.extensions.map (·.placed)) where
  nodup := by
    rw [List.map_append, List.map_map]
    exact h.nodup_roots
  at_root root hroot := by
    rcases List.mem_append.1 hroot with hsentence | hextension
    · exact h.at_root root hsentence
    · obtain ⟨extension, -, rfl⟩ := List.mem_map.1 hextension
      rfl

/-- No description of an element is called for if something stands in for its phrase. -/
theorem survey_undescribed {roots : List (Placed n)} (hroots : Rooted roots) (hextensions : extensions ⊆ roots)
    (hoverridden : ∃ placed ∈ extensions, target ∈ placed.overrides book) (leniency : Leniency) :
    Survey ⟨book, .ofExtensions book extensions, leniency⟩ (Within book roots) fun event =>
      ∀ here label e, Within book roots ⟨here, .element label e⟩ → (book e.phrase).identity = target →
        event ≠ .describe here where
  child := .child
  override _ hoverride := .root (hextensions (Registry.mem_of_override?_eq_some hoverride))
  description hsite _ hdescribe := .description hsite hdescribe
  supplement _ _ hmem := .root (hextensions (Registry.mem_of_mem_supplementsFor hmem))
  describe hsite hnone := by
    -- the element that is described is the one that stands there
    intro here label e hother hidentity heq
    cases heq
    cases hsite.unique hroots hother rfl
    exact ne_of_override?_eq_none hoverridden hnone hidentity
  visit := by simp
  enter := by simp
  attempt := by simp
  prune := by simp
  reject := by simp

/-! ## Earlier extensions -/

/-- The book in which some phrases no longer stand in for an identity. -/
def Phrasebook.withdraw (book : Phrasebook n) (target : String) (withdrawn : Fin n → Bool) : Phrasebook n :=
  fun phrase =>
    if withdrawn phrase then { book phrase with overrides := (book phrase).overrides.filter (· != target) }
    else book phrase

variable {withdrawn : Fin n → Bool}

theorem Phrasebook.sameUse_withdraw (book : Phrasebook n) (target : String) (withdrawn : Fin n → Bool)
    (phrase : Fin n) : (book.withdraw target withdrawn phrase).SameUse (book phrase) := by
  unfold Phrasebook.withdraw
  split <;> exact ⟨rfl, rfl, rfl, rfl⟩

theorem supplements_withdraw :
    Placed.supplements (book.withdraw target withdrawn) = Placed.supplements book := by
  funext placed
  unfold Placed.supplements
  split
  · unfold Phrasebook.withdraw
    split <;> rfl
  · rfl

theorem count_overrides_withdraw {identity : String} (hne : identity ≠ target) (placed : Placed n) :
    (placed.overrides (book.withdraw target withdrawn)).count identity =
      (placed.overrides book).count identity := by
  unfold Placed.overrides
  split
  · unfold Phrasebook.withdraw
    split
    · exact List.count_filter (by simpa using hne)
    · rfl
  · rfl

theorem mem_of_mem_overrides_withdraw {identity : String} {placed : Placed n}
    (h : identity ∈ placed.overrides (book.withdraw target withdrawn)) : identity ∈ placed.overrides book := by
  unfold Placed.overrides at h ⊢
  split at h
  · unfold Phrasebook.withdraw at h
    split at h
    · exact List.mem_of_mem_filter h
    · exact h
  · exact h

/-- **Only the last extension counts** of those that stand in for an identity: earlier ones may withdraw. -/
theorem override?_withdraw (before : List (Placed n)) {last : Placed n} {after : List (Placed n)}
    (hlast : target ∈ last.overrides (book.withdraw target withdrawn))
    (hafter : ∀ later ∈ after, target ∉ later.overrides book) (identity : String) :
    (Registry.ofExtensions (book.withdraw target withdrawn) (before ++ last :: after)).override? identity =
      (Registry.ofExtensions book (before ++ last :: after)).override? identity := by
  by_cases hidentity : identity = target
  · subst hidentity
    have hafter' : ∀ later ∈ after, identity ∉ later.overrides (book.withdraw identity withdrawn) :=
      fun later hlater hnames => hafter later hlater (mem_of_mem_overrides_withdraw hnames)
    rw [Registry.override?_eq_some_of_last hlast before hafter',
      Registry.override?_eq_some_of_last (mem_of_mem_overrides_withdraw hlast) before hafter]
  · rw [Registry.override?_ofExtensions, Registry.override?_ofExtensions, Registry.listing, Registry.listing]
    simp only [count_overrides_withdraw hidentity]

end

/-- **An overridden phrase is inert.** Take any extensions, one of which stands in for the phrases of an
identity; there may be others, and they may stand in for each other, also in a circle.

- In a grammar that differs only in what the phrases of the identity describe, accept and give as value, and in
  the props of their elements, wherever these stand, every root is read the same, event by event and output by
  output.
- Reading builds no description of an element of the identity, wherever that stands below roots with numbers of
  their own, such as those of a session.
- Of several extensions that stand in for the identity only the last one counts: if any others withdraw, every
  root is still read the same. -/
theorem overridden_phrase_is_inert (book : Phrasebook n) (leniency : Leniency) (target : String)
    (extensions : List (Placed n)) (hoverridden : ∃ placed ∈ extensions, target ∈ placed.overrides book) :
    let reading (book : Phrasebook n) (extensions : List (Placed n)) (root : Placed n) (input : Text) :=
      (⟨book, .ofExtensions book extensions, leniency⟩ : Context n).resolve root input
    (∀ book' extensions' root root', book.SameBut target book' →
      List.Forall₂ (Placed.Alike (.butProps book target)) extensions extensions' →
      root.Alike (.butProps book target) root' →
      ∀ input, reading book extensions root input = reading book' extensions' root' input) ∧
    (∀ roots root, Rooted roots → extensions ⊆ roots → Within book roots root →
      ∀ here label e, Within book roots ⟨here, .element label e⟩ → (book e.phrase).identity = target →
      ∀ input progress, here ∈ ((reading book extensions root input).drain progress).2.described →
        here ∈ progress.described) ∧
    ∀ before last after withdrawn, extensions = before ++ last :: after →
      (∀ later ∈ after, target ∉ later.overrides book) →
      target ∈ last.overrides (book.withdraw target withdrawn) →
      ∀ root input, reading (book.withdraw target withdrawn) extensions root input =
        reading book extensions root input := by
  intro reading
  refine ⟨?_, ?_, ?_⟩
  · intro book' extensions' root root' hbooks hextensions hroot input
    have hsimilar := similar_of_overridden hbooks hextensions hoverridden leniency
    exact (hsimilar.resolveTraced hroot [] input).eq Event.Alike.eq
  · intro roots root hroots hextensions hroot here label e helement hidentity input progress hbuilt
    have hcovers := (survey_undescribed hroots hextensions hoverridden leniency).resolveTraced hroot [] input
    rw [Run.drain, Run.drainOnto_progress, Progress.mem_described_foldl] at hbuilt
    rcases hbuilt with hevent | hbefore
    · exact absurd rfl (hcovers.events _ hevent here label e helement hidentity)
    · exact hbefore
  · rintro before last after withdrawn rfl hafter hlast root input
    refine Context.resolveTraced_congr ?_ (book.sameUse_withdraw target withdrawn)
      (override?_withdraw before hlast hafter) (fun identity _ => ?_) root [] input
    · rfl
    · rw [Registry.supplementsFor_ofExtensions, Registry.supplementsFor_ofExtensions, supplements_withdraw]

section

/-- Three phrases, mentioned by their numbers. -/
local instance neZero_three : NeZero 3 := ⟨Nat.succ_ne_zero 2⟩

/-- Colours, for which both ink and dye stand in; dye leads back to colours. Colours may be spoilt. -/
def dyeBook (spoilt : Bool) : Phrasebook 3
  | 0 =>
    { identity := "Colour"
      describe := fun _ => if spoilt then .error ⟨"no colour"⟩ else .ok (.text "red") }
  | 1 =>
    { identity := "Ink"
      describe := fun _ => .ok (.text "ruby")
      overrides := ["Colour"] }
  | 2 =>
    { identity := "Dye"
      describe := fun _ =>
        .ok (.choice none [.sequence none [.text "rich ", .element none ⟨0, []⟩], .text "russet"])
      overrides := ["Colour"] }

def dyeRoot (props : Props) : Placed 3 :=
  ⟨⟨0, []⟩, .sequence none [.text "paint ", .element none ⟨0, props⟩]⟩

def dyeExtensions : List (Placed 3) := [⟨⟨1, []⟩, .element none ⟨1, []⟩⟩, ⟨⟨2, []⟩, .element none ⟨2, []⟩⟩]

end

theorem dyeBook_sameBut : (dyeBook false).SameBut "Colour" (dyeBook true) where
  identity
    | 0 | 1 | 2 => rfl
  supplements
    | 0 | 1 | 2 => rfl
  overrides
    | 0 | 1 | 2 => rfl
  describe
    | 0, hne, _ => absurd rfl hne
    | 1, _, _ | 2, _, _ => .ok (Node.alike_butProps _ _ _)
  value
    | 0, _ | 1, _ | 2, _ => rfl
  accepts
    | 0, _ | 1, _ | 2, _ => rfl

/-- Dye stands in for colours: spoilt or not, and with whatever props, they are not looked at, and ink does not
matter. -/
theorem colours_are_inert :
    let reading (book : Phrasebook 3) (root : Placed 3) :=
      (⟨book, .ofExtensions book dyeExtensions, {}⟩ : Context 3).resolve root "paint r".toList
    reading (dyeBook false) (dyeRoot []) = reading (dyeBook true) (dyeRoot [("tone", .null)]) ∧
    ⟨0, [.child 1]⟩ ∉ ((reading (dyeBook false) (dyeRoot [])).drain {}).2.described ∧
    reading ((dyeBook false).withdraw "Colour" (· == 1)) (dyeRoot []) = reading (dyeBook false) (dyeRoot []) ∧
    (reading (dyeBook false) (dyeRoot [])).outputs.map (·.text) = ["paint russet".toList] := by
  intro reading
  have hoverridden : ∃ placed ∈ dyeExtensions, "Colour" ∈ placed.overrides (dyeBook false) :=
    ⟨_, List.mem_cons_self, List.mem_singleton_self _⟩
  obtain ⟨hsame, hundescribed, hwithdraw⟩ :=
    overridden_phrase_is_inert (dyeBook false) {} "Colour" dyeExtensions hoverridden
  have hself (node : Node 3) := node.alike_butProps (dyeBook false) "Colour"
  refine ⟨?_, ?_, ?_, ?_⟩
  · have hroot : (dyeRoot []).Alike (.butProps (dyeBook false) "Colour") (dyeRoot [("tone", .null)]) :=
      ⟨rfl, .sequence rfl (.cons (hself _) (.cons (.element rfl ⟨rfl, fun hne => absurd rfl hne⟩) .nil))⟩
    exact hsame _ _ _ _ dyeBook_sameBut (List.forall₂_same.2 fun placed _ => ⟨rfl, hself _⟩) hroot _
  · let roots := dyeRoot [] :: dyeExtensions
    -- the roots are numbered as a session numbers them
    have hnew : (Desk.ofSettings (dyeBook false) {}).session.Sound := Session.sound_new _ _
    have hsound := Desk.sound_handleAll hnew [.setSentences [(dyeRoot []).node], .setExtensions [1, 2]]
    have hroots : Rooted roots := hsound.rooted
    have hroot : Within (dyeBook false) roots (dyeRoot []) := .root List.mem_cons_self
    have hcolour : Within (dyeBook false) roots ⟨⟨0, [.child 1]⟩, .element none ⟨0, []⟩⟩ :=
      @Within.child _ _ _ _ 1 _ hroot rfl
    have hunbuilt := hundescribed _ _ hroots (List.subset_cons_self _ _) hroot _ _ _ hcolour rfl
      "paint r".toList {}
    dsimp only [reading] at hunbuilt ⊢
    exact fun hbuilt => List.not_mem_nil (hunbuilt hbuilt)
  · exact hwithdraw [_] _ [] (· == 1) rfl nofun (List.mem_singleton_self _) _ _
  · decide +kernel

end Typeahead
