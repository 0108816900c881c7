import Mathlib.Data.List.Forall2
import Typeahead.Registry

/-!
# What a registry lists

A registry built from a list of extensions lists, for each identity, every extension as often as its phrase
names that identity, in order of registration (`supplementsFor_ofExtensions`, `overridesFor_ofExtensions`).
So the lists of a registry are read off the extensions, and nothing need be known of how they were put
together.
-/

namespace Typeahead

variable {n : Nat}

namespace Placed

/-- The identities a node adds alternatives to as an extension: none, unless it is an element. -/
def supplements (book : Phrasebook n) (placed : Placed n) : List String :=
  match placed.node.element? with
  | some e => (book e.phrase).supplements
  | none => []

/-- The identities a node stands in for as an extension: none, unless it is an element. -/
def overrides (book : Phrasebook n) (placed : Placed n) : List String :=
  match placed.node.element? with
  | some e => (book e.phrase).overrides
  | none => []

end Placed

namespace Registry

/-- Every extension as often as it names an identity, in order. -/
def listing (targets : Placed n → List String) (identity : String) (extensions : List (Placed n)) :
    List (Placed n) :=
  extensions.flatMap fun placed => List.replicate ((targets placed).count identity) placed

theorem listing_cons (targets : Placed n → List String) (identity : String) (placed : Placed n)
    (later : List (Placed n)) :
    listing targets identity (placed :: later) =
      List.replicate ((targets placed).count identity) placed ++ listing targets identity later :=
  List.flatMap_cons

theorem listing_append (targets : Placed n → List String) (identity : String) (first later : List (Placed n)) :
    listing targets identity (first ++ later) =
      listing targets identity first ++ listing targets identity later :=
  List.flatMap_append

/-- An extension that does not name an identity makes no difference to its list. -/
theorem listing_insert_of_notMem {targets : Placed n → List String} {identity : String} {placed : Placed n}
    (h : identity ∉ targets placed) (before after : List (Placed n)) :
    listing targets identity (before ++ placed :: after) = listing targets identity (before ++ after) := by
  rw [listing_append, listing_append, listing_cons, List.count_eq_zero_of_not_mem h, List.replicate_zero,
    List.nil_append]

/-- Two neighbours that name no identity in common may stand in either order. -/
theorem listing_exchange {targets : Placed n → List String} {first second : Placed n}
    (h : (targets first).Disjoint (targets second)) (before after : List (Placed n)) (identity : String) :
    listing targets identity (before ++ second :: first :: after) =
      listing targets identity (before ++ first :: second :: after) := by
  have hnone : (targets first).count identity = 0 ∨ (targets second).count identity = 0 := by
    by_cases hfirst : identity ∈ targets first
    · exact .inr (List.count_eq_zero_of_not_mem (h hfirst))
    · exact .inl (List.count_eq_zero_of_not_mem hfirst)
  simp only [listing_append, listing_cons]
  rcases hnone with hnone | hnone
  all_goals rw [hnone, List.replicate_zero, List.nil_append, List.nil_append]

theorem mem_listing {targets : Placed n → List String} {identity : String} {extensions : List (Placed n)}
    {placed : Placed n} :
    placed ∈ listing targets identity extensions ↔ placed ∈ extensions ∧ identity ∈ targets placed := by
  simp only [listing, List.mem_flatMap, List.mem_replicate, ne_eq, List.count_eq_zero, Classical.not_not]
  constructor
  · rintro ⟨other, hother, hnames, rfl⟩
    exact ⟨hother, hnames⟩
  · rintro ⟨hplaced, hnames⟩
    exact ⟨placed, hplaced, hnames, rfl⟩

variable (book : Phrasebook n)

theorem lists_register (registry : Registry n) (placed : Placed n) (identity : String) :
    (registry.register book placed).supplementsFor identity =
        registry.supplementsFor identity ++ List.replicate ((placed.supplements book).count identity) placed ∧
      (registry.register book placed).overridesFor identity =
        registry.overridesFor identity ++ List.replicate ((placed.overrides book).count identity) placed := by
  unfold register Placed.supplements Placed.overrides
  cases placed.node.element? with
  | none => simp
  | some e => exact ⟨get?_enlist _ _ _ _, get?_enlist _ _ _ _⟩

theorem lists_foldl (registry : Registry n) (extensions : List (Placed n)) (identity : String) :
    (extensions.foldl (register book) registry).supplementsFor identity =
        registry.supplementsFor identity ++ listing (Placed.supplements book) identity extensions ∧
      (extensions.foldl (register book) registry).overridesFor identity =
        registry.overridesFor identity ++ listing (Placed.overrides book) identity extensions := by
  induction extensions generalizing registry with
  | nil => simp [listing]
  | cons placed later ih =>
    obtain ⟨hsupplements, hoverrides⟩ := lists_register book registry placed identity
    rw [List.foldl_cons, (ih _).1, (ih _).2, hsupplements, hoverrides, listing_cons, listing_cons,
      List.append_assoc, List.append_assoc]
    exact ⟨rfl, rfl⟩

variable (extensions : List (Placed n)) (identity : String)

/-- **Supplements** of an identity: every extension as often as it names the identity, in order. -/
theorem supplementsFor_ofExtensions :
    (ofExtensions book extensions).supplementsFor identity =
      listing (Placed.supplements book) identity extensions :=
  (lists_foldl book {} extensions identity).1

/-- **Overrides** of an identity: every extension as often as it names the identity, in order. -/
theorem overridesFor_ofExtensions :
    (ofExtensions book extensions).overridesFor identity =
      listing (Placed.overrides book) identity extensions :=
  (lists_foldl book {} extensions identity).2

/-- What stands in for a phrase is the last extension that names its identity. -/
theorem override?_ofExtensions :
    (ofExtensions book extensions).override? identity =
      (listing (Placed.overrides book) identity extensions).getLast? := by
  rw [override?, overridesFor_ofExtensions]

theorem count_foldl (registry : Registry n) :
    (extensions.foldl (register book) registry).count =
      registry.count + extensions.countP (·.node.element?.isSome) := by
  induction extensions generalizing registry with
  | nil => rfl
  | cons placed later ih =>
    rw [List.foldl_cons, ih, List.countP_cons, register]
    cases placed.node.element? with
    | none => simp
    | some e =>
      simp only [Option.isSome_some, if_true]
      omega

/-- Counted are the extensions that are phrase elements. -/
theorem count_ofExtensions :
    (ofExtensions book extensions).count = extensions.countP (·.node.element?.isSome) := by
  rw [ofExtensions, count_foldl, Nat.zero_add]

variable {book extensions identity}

theorem mem_supplementsFor {placed : Placed n} :
    placed ∈ (ofExtensions book extensions).supplementsFor identity ↔
      placed ∈ extensions ∧ identity ∈ placed.supplements book := by
  rw [supplementsFor_ofExtensions, mem_listing]

theorem mem_of_mem_supplementsFor {placed : Placed n}
    (h : placed ∈ (ofExtensions book extensions).supplementsFor identity) : placed ∈ extensions :=
  (mem_supplementsFor.1 h).1

/-- What stands in for a phrase is an extension that names its identity. -/
theorem names_of_override?_eq_some {placed : Placed n}
    (h : (ofExtensions book extensions).override? identity = some placed) :
    placed ∈ extensions ∧ identity ∈ placed.overrides book := by
  rw [override?_ofExtensions] at h
  exact mem_listing.1 (List.mem_of_getLast? h)

theorem mem_of_override?_eq_some {placed : Placed n}
    (h : (ofExtensions book extensions).override? identity = some placed) : placed ∈ extensions :=
  (names_of_override?_eq_some h).1

theorem override?_eq_none_iff :
    (ofExtensions book extensions).override? identity = none ↔
      ∀ placed ∈ extensions, identity ∉ placed.overrides book := by
  rw [override?_ofExtensions, List.getLast?_eq_none_iff, List.eq_nil_iff_forall_not_mem]
  simp only [mem_listing, not_and]

/-- **The last extension that names an identity** stands in for its phrases. -/
theorem override?_eq_some_of_last {last : Placed n} (hlast : identity ∈ last.overrides book)
    (before : List (Placed n)) {after : List (Placed n)}
    (hafter : ∀ later ∈ after, identity ∉ later.overrides book) :
    (ofExtensions book (before ++ last :: after)).override? identity = some last := by
  have hnone : listing (Placed.overrides book) identity after = [] := by
    refine List.eq_nil_iff_forall_not_mem.2 fun later hlater => ?_
    obtain ⟨hmem, hnames⟩ := mem_listing.1 hlater
    exact hafter later hmem hnames
  have hcount : (last.overrides book).count identity ≠ 0 := by rwa [ne_eq, List.count_eq_zero, not_not]
  obtain ⟨count, hcount⟩ := Nat.exists_eq_succ_of_ne_zero hcount
  rw [override?_ofExtensions, listing_append, listing_cons, hnone, hcount, List.append_nil,
    Nat.succ_eq_add_one, List.replicate_succ', ← List.append_assoc, List.getLast?_concat]

/-! ## Extensions that answer to each other -/

section

variable {rel : Placed n → Placed n → Prop} {book' : Phrasebook n} {extensions' : List (Placed n)}

/-- Extensions that name the same identities are listed alike. -/
theorem forall₂_listing {targets targets' : Placed n → List String}
    (h : List.Forall₂ (fun placed placed' => targets placed = targets' placed' ∧ rel placed placed')
      extensions extensions') (identity : String) :
    List.Forall₂ rel (listing targets identity extensions) (listing targets' identity extensions') := by
  refine List.rel_flatMap h fun placed placed' hplaced => ?_
  rw [hplaced.1]
  induction (targets' placed').count identity with
  | zero => exact .nil
  | succ count ih => exact .cons hplaced.2 ih

theorem rel_getLast? {α β : Type} {rel : α → β → Prop} {items : List α} {items' : List β}
    (h : List.Forall₂ rel items items') : Option.Rel rel items.getLast? items'.getLast? := by
  have hreverse := List.rel_reverse h
  rw [List.getLast?_eq_head?_reverse, List.getLast?_eq_head?_reverse]
  generalize items.reverse = last at hreverse ⊢
  generalize items'.reverse = last' at hreverse ⊢
  cases hreverse with
  | nil => exact .none
  | cons hlast _ => exact .some hlast

/-- **Registries of extensions that answer to each other** do so in all their lists. -/
theorem lists_alike
    (h : List.Forall₂ (fun placed placed' => rel placed placed' ∧
      placed.supplements book = placed'.supplements book' ∧ placed.overrides book = placed'.overrides book')
      extensions extensions') (identity : String) :
    List.Forall₂ rel ((ofExtensions book extensions).supplementsFor identity)
        ((ofExtensions book' extensions').supplementsFor identity) ∧
      Option.Rel rel ((ofExtensions book extensions).override? identity)
        ((ofExtensions book' extensions').override? identity) := by
  rw [supplementsFor_ofExtensions, supplementsFor_ofExtensions, override?_ofExtensions, override?_ofExtensions]
  constructor
  · exact forall₂_listing (h.imp fun _ _ hboth => ⟨hboth.2.1, hboth.1⟩) identity
  · exact rel_getLast? (forall₂_listing (h.imp fun _ _ hboth => ⟨hboth.2.2, hboth.1⟩) identity)

end

end Registry

end Typeahead
