import Typeahead.Proofs.Simulation

/-!
# Extensions in another order

A registry is known by its lists, and reading looks at nothing else of it. The list of an identity tells in which
order the extensions that name it were registered, and nothing about any others. So two extensions next to each
other may change places, unless both add to one phrase or both stand in for one.

Main statement: `extensions_go_by_identity`.
-/

namespace Typeahead

variable {n : Nat}

/-- Extensions that are listed in the same way are used in the same way. -/
theorem Context.resolveTraced_of_listings {book : Phrasebook n} {extensions extensions' : List (Placed n)}
    (hsupplements : ∀ identity, Registry.listing (Placed.supplements book) identity extensions =
      Registry.listing (Placed.supplements book) identity extensions')
    (hoverrides : ∀ identity, Registry.listing (Placed.overrides book) identity extensions =
      Registry.listing (Placed.overrides book) identity extensions')
    (leniency : Leniency) (placed : Placed n) (trace : Trace) (input : Text) :
    (⟨book, .ofExtensions book extensions, leniency⟩ : Context n).resolveTraced placed trace input =
      (⟨book, .ofExtensions book extensions', leniency⟩ : Context n).resolveTraced placed trace input := by
  apply Context.resolveTraced_congr
  · rfl
  · intro phrase
    exact ⟨rfl, rfl, rfl, rfl⟩
  · intro identity
    rw [Registry.override?_ofExtensions, Registry.override?_ofExtensions, hoverrides]
  · intro identity _
    rw [Registry.supplementsFor_ofExtensions, Registry.supplementsFor_ofExtensions, hsupplements]

/-- **Extensions go by the identities they name.** Register any nodes as extensions, phrase elements or not, whose
phrases may name an identity more than once.

- What is added to the phrases of an identity, and what would stand in for them, is every extension as often as its
  phrase names the identity, in order of registration, and nothing else. The last one stands in. Counted are the
  phrase elements.
- Two extensions next to each other that add to no phrase in common, and stand in for none in common, may change
  places: every root is read the same on every path, output by output and event by event, so that the same is
  counted. -/
theorem extensions_go_by_identity (book : Phrasebook n) (extensions : List (Placed n)) :
    let registry := Registry.ofExtensions book extensions
    ((∀ identity,
        registry.supplementsFor identity = Registry.listing (Placed.supplements book) identity extensions ∧
        registry.overridesFor identity = Registry.listing (Placed.overrides book) identity extensions ∧
        registry.override? identity =
          (Registry.listing (Placed.overrides book) identity extensions).getLast?) ∧
      registry.count = extensions.countP fun placed => placed.node.element?.isSome) ∧
    ∀ before first second after, extensions = before ++ first :: second :: after →
      (first.supplements book).Disjoint (second.supplements book) →
      (first.overrides book).Disjoint (second.overrides book) →
      ∀ leniency root trace input,
        (⟨book, .ofExtensions book (before ++ second :: first :: after), leniency⟩ : Context n).resolveTraced
            root trace input =
          (⟨book, registry, leniency⟩ : Context n).resolveTraced root trace input := by
  intro registry
  refine ⟨⟨fun identity => ⟨?_, ?_, ?_⟩, ?_⟩, ?_⟩
  · exact Registry.supplementsFor_ofExtensions book extensions identity
  · exact Registry.overridesFor_ofExtensions book extensions identity
  · exact Registry.override?_ofExtensions book extensions identity
  · exact Registry.count_ofExtensions book extensions
  · rintro before first second after rfl hsupplements hoverrides leniency root trace input
    apply Context.resolveTraced_of_listings
    · intro identity
      exact Registry.listing_exchange hsupplements before after identity
    · intro identity
      exact Registry.listing_exchange hoverrides before after identity

/-- Colours, metals, tints that name colours twice and lead back to them, and gilding, which stands in for metals. -/
def tintBook : Phrasebook 4
  | ⟨0, _⟩ =>
    { identity := "Colour"
      describe := fun _ => .ok (.choice none [.text "red", .text "rose"]) }
  | ⟨1, _⟩ =>
    { identity := "Metal"
      describe := fun _ => .ok (.text "raw iron") }
  | ⟨2, _⟩ =>
    { identity := "Tint"
      describe := fun _ =>
        .ok (.choice none [.sequence none [.text "rich ", .element none ⟨⟨0, by decide⟩, []⟩], .text "russet"])
      supplements := ["Colour", "Colour"] }
  | ⟨_ + 3, _⟩ =>
    { identity := "Gilding"
      describe := fun _ => .ok (.text "rolled gold")
      overrides := ["Metal"] }

def tintRoot : Placed 4 :=
  ⟨⟨0, []⟩, .choice none [.element none ⟨⟨0, by decide⟩, []⟩, .element none ⟨⟨1, by decide⟩, []⟩]⟩

/-- A text, which is no extension. -/
def dye : Placed 4 := ⟨⟨1, []⟩, .text "dye"⟩

def tints : Placed 4 := ⟨⟨2, []⟩, .element none ⟨⟨2, by decide⟩, []⟩⟩

def gilding : Placed 4 := ⟨⟨3, []⟩, .element none ⟨⟨3, by decide⟩, []⟩⟩

/-- Tints are added to colours twice, the text is passed over, and gilding may as well come before tints. -/
theorem tints_and_gilding_exchange :
    let registry := Registry.ofExtensions tintBook [dye, tints, gilding]
    let reading (extensions : List (Placed 4)) :=
      (⟨tintBook, .ofExtensions tintBook extensions, {}⟩ : Context 4).resolveTraced tintRoot [] "r".toList
    registry.supplementsFor "Colour" = [tints, tints] ∧ registry.overridesFor "Metal" = [gilding] ∧
      registry.override? "Metal" = some gilding ∧ registry.count = 2 ∧
      reading [dye, gilding, tints] = reading [dye, tints, gilding] ∧
      (reading [dye, tints, gilding]).outputs.map (·.text) =
        ["red".toList, "rose".toList, "russet".toList, "russet".toList, "rolled gold".toList] := by
  intro registry reading
  obtain ⟨⟨hlists, hcount⟩, hexchange⟩ := extensions_go_by_identity tintBook [dye, tints, gilding]
  refine ⟨(hlists "Colour").1, (hlists "Metal").2.1, (hlists "Metal").2.2, hcount, ?_, ?_⟩
  · exact hexchange [dye] tints gilding [] rfl (List.disjoint_nil_right _) (List.disjoint_nil_left _) {} tintRoot [] _
  · decide +kernel

end Typeahead
