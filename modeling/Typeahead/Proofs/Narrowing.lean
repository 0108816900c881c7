import Mathlib.Data.List.Forall2
import Typeahead.Proofs.Pass
import Typeahead.Proofs.Registry
import Typeahead.Proofs.Simulation

/-!
# Readings among other readings

A grammar may be wider than another: it adds alternatives, or compares less strictly, or reads on a path with
fewer frames. Then it reads everything that the narrower one reads, in the same order, with other readings
between. `Narrows` says of two contexts that each decision is so, and `Narrows.resolveTraced` concludes that
the outputs of the narrower are found among those of the wider. Main statements: `supplements_only_add`,
`longer_paths_only_remove`.
-/

namespace Typeahead

/-! ## Runs among others -/

section

variable {α β γ δ : Type} {rel : α → β → Prop} {rel' : γ → δ → Prop} {items : List α} {items' : List β}

theorem sublistForall₂_append {later : List α} {later' : List β} (h : List.SublistForall₂ rel items items')
    (hlater : List.SublistForall₂ rel later later') :
    List.SublistForall₂ rel (items ++ later) (items' ++ later') := by
  obtain ⟨found, hfound, hsub⟩ := List.sublistForall₂_iff.1 h
  obtain ⟨found', hfound', hsub'⟩ := List.sublistForall₂_iff.1 hlater
  exact List.sublistForall₂_iff.2 ⟨found ++ found', List.rel_append hfound hfound', hsub.append hsub'⟩

theorem exists_mem_of_sublistForall₂ (h : List.SublistForall₂ rel items items') {a : α} (ha : a ∈ items) :
    ∃ b ∈ items', rel a b := by
  induction h with
  | nil => cases ha
  | cons hab _ ih =>
    rcases List.mem_cons.1 ha with rfl | hlater
    · exact ⟨_, List.mem_cons_self, hab⟩
    · obtain ⟨b, hb, hrel⟩ := ih hlater
      exact ⟨b, List.mem_cons_of_mem _ hb, hrel⟩
  | cons_right _ ih =>
    obtain ⟨b, hb, hrel⟩ := ih ha
    exact ⟨b, List.mem_cons_of_mem _ hb, hrel⟩

theorem sublistForall₂_flatMap {f : α → List γ} {g : β → List δ} (h : List.SublistForall₂ rel items items')
    (hfg : ∀ a, ∀ b ∈ items', rel a b → List.SublistForall₂ rel' (f a) (g b)) :
    List.SublistForall₂ rel' (items.flatMap f) (items'.flatMap g) := by
  induction h with
  | nil => exact .nil
  | cons hab _ ih =>
    have hlater := ih fun a b hb => hfg a b (List.mem_cons_of_mem _ hb)
    exact sublistForall₂_append (hfg _ _ List.mem_cons_self hab) hlater
  | cons_right _ ih =>
    have hlater := ih fun a b hb => hfg a b (List.mem_cons_of_mem _ hb)
    exact sublistForall₂_append .nil hlater

end

namespace Run

variable {α β γ δ : Type} {rel : α → β → Prop} {rel' : γ → δ → Prop}

/-- If the wide run ends well, so does the run, and its outputs are found among those of the wide one, in the
same order. -/
def Among (rel : α → β → Prop) (run : Run α) (wide : Run β) : Prop :=
  wide.fault? = none → run.fault? = none ∧ List.SublistForall₂ rel run.outputs wide.outputs

/-- A wide run that does not end well has anything among it. -/
theorem among_fault (run : Run α) (f : Fault) : Among rel run (.fault f) := by
  intro hfault
  cases hfault

theorem among_done (wide : Run β) : Among rel .done wide := fun _ => ⟨rfl, .nil⟩

theorem among_pure {a : α} {b : β} (h : rel a b) : Among rel (pure a) (pure b) := fun _ => ⟨rfl, .cons h .nil⟩

namespace Among

variable {run : Run α} {wide : Run β}

/-- More may come first in the wide run. -/
theorem skip {next : Unit → Run β} (h : Among rel run (next ())) : Among rel run (wide.append next) := by
  intro hfault
  obtain ⟨hwide, hnext⟩ := fault?_append_eq_none.1 hfault
  obtain ⟨hrun, houtputs⟩ := h hnext
  rw [outputs_append _ _ hwide]
  exact ⟨hrun, sublistForall₂_append .nil houtputs⟩

theorem append (h : Among rel run wide) {next : Unit → Run α} {next' : Unit → Run β}
    (hnext : Among rel (next ()) (next' ())) : Among rel (run.append next) (wide.append next') := by
  intro hfault
  obtain ⟨hwide, hwide'⟩ := fault?_append_eq_none.1 hfault
  obtain ⟨hrun, houtputs⟩ := h hwide
  obtain ⟨hrun', houtputs'⟩ := hnext hwide'
  rw [outputs_append _ _ hwide, outputs_append _ _ hrun]
  exact ⟨fault?_append_eq_none.2 ⟨hrun, hrun'⟩, sublistForall₂_append houtputs houtputs'⟩

theorem bind (h : Among rel run wide) {k : α → Run γ} {k' : β → Run δ}
    (hk : ∀ a b, rel a b → Among rel' (k a) (k' b)) : Among rel' (run.bind k) (wide.bind k') := by
  intro hfault
  obtain ⟨hwide, hall⟩ := fault?_bind_eq_none.1 hfault
  obtain ⟨hrun, houtputs⟩ := h hwide
  have hrun' : (run.bind k).fault? = none := by
    refine fault?_bind_eq_none.2 ⟨hrun, fun a ha => ?_⟩
    obtain ⟨b, hb, hab⟩ := exists_mem_of_sublistForall₂ houtputs ha
    exact (hk a b hab (hall b hb)).1
  rw [outputs_bind hfault, outputs_bind hrun']
  exact ⟨hrun', sublistForall₂_flatMap houtputs fun a b hb hab => (hk a b hab (hall b hb)).2⟩

end Among

theorem among_ofList {items wideItems : List γ} (h : items.Sublist wideItems) {run : γ → Run α}
    {wide : γ → Run β} (hrun : ∀ item, Among rel (run item) (wide item)) :
    Among rel (ofList items run) (ofList wideItems wide) := by
  induction h with
  | slnil => exact among_done _
  | cons item _ ih => exact ih.skip
  | cons_cons item _ ih => exact (hrun item).append ih

end Run

/-! ## Narrower contexts -/

variable {n : Nat}

/-- Trees are the same, and outputs answer to each other in some way. -/
abbrev Likeness.ofOutputs (rel : Output → Output → Prop) : Likeness n := { output := rel }

theorem compares_among (rel : Output → Output → Prop) :
    (Likeness.ofOutputs rel : Likeness n).Compares (Run.Among rel) where
  done := Run.among_done _
  pure := Run.among_pure
  event _ h := h
  append h hnext := h.append hnext
  bind h hk := h.bind hk

/-- One context decides as a wider one does, but may have fewer supplements and compare more strictly. Outputs
that answer to each other have the same result. -/
structure Narrows (rel : Output → Output → Prop) (ctx wide : Context n) : Prop
    extends (Likeness.ofOutputs rel : Likeness n).Composes (Run.Among rel) ctx.leniency wide.leniency where
  phrases : ctx.phrases = wide.phrases
  override : ∀ identity, ctx.registry.override? identity = wide.registry.override? identity
  supplements : ∀ identity, ctx.registry.override? identity = none →
    (ctx.registry.supplementsFor identity).Sublist (wide.registry.supplementsFor identity)
  result : ∀ {out out'}, rel out out' → out.result = out'.result
  value : ∀ {out out' : Output} (value), rel out out' →
    rel { out with result := value } { out' with result := value }

namespace Narrows

variable {rel : Output → Output → Prop} {ctx wide : Context n}

theorem screen (h : Narrows rel ctx wide) (phrase : Phrase n) (props : Props) {out out' : Output}
    (hout : rel out out') : (phrase.screen props out).Among rel (phrase.screen props out') := by
  unfold Phrase.screen
  rw [h.result hout]
  split
  · exact Run.among_pure hout
  · exact Run.among_done _
  · exact Run.among_fault _ _

theorem revalue (h : Narrows rel ctx wide) (phrase : Phrase n) (props : Props) {out out' : Output}
    (hout : rel out out') : (phrase.revalue props out).Among rel (phrase.revalue props out') := by
  unfold Phrase.revalue
  rw [h.result hout]
  split
  · exact Run.among_pure hout
  · split
    · exact Run.among_pure (h.value _ hout)
    · exact Run.among_fault _ _

theorem readNode (h : Narrows rel ctx wide) {expand expand' : Expansion n} {trace trace' : Trace}
    (hexpand : ∀ here e input, (expand here e trace input).Among rel (expand' here e trace' input))
    (placed : Placed n) (input : Text) :
    (Node.read ctx.leniency expand placed.node placed.address trace input).Among rel
      (Node.read wide.leniency expand' placed.node placed.address trace' input) := by
  have hself : placed.node.Alike (.ofOutputs rel) placed.node :=
    Node.alike_self (fun _ => rfl) (fun _ => rfl) (fun _ => rfl) _
  refine h.read (compares_among rel) (fun input hplace he => ?_) input hself rfl
  cases hplace
  cases he
  exact hexpand _ _ input

theorem readDescription (h : Narrows rel ctx wide) {expand expand' : Expansion n} {trace trace' : Trace}
    (hexpand : ∀ here e input, (expand here e trace input).Among rel (expand' here e trace' input))
    (here : Address) (e : Element n) (description : Node n) (input : Text) :
    (ctx.readDescription expand here e description trace input).Among rel
      (wide.readDescription expand' here e description trace' input) := by
  have hread := h.readNode hexpand ⟨here.description, description⟩ input
  simp only [Context.readDescription, h.phrases]
  exact (hread.bind fun _ _ => h.screen _ _).bind fun _ _ => h.revalue _ _

theorem readSupplements (h : Narrows rel ctx wide) {expand expand' : Expansion n} {trace trace' : Trace}
    (hexpand : ∀ here e input, (expand here e trace input).Among rel (expand' here e trace' input))
    {e : Element n} (hnone : ctx.registry.override? (ctx.phrases e.phrase).identity = none) (input : Text) :
    (ctx.readSupplements expand e trace input).Among rel (wide.readSupplements expand' e trace' input) := by
  have hread := Run.among_ofList (h.supplements _ hnone) fun supplement => h.readNode hexpand supplement input
  simp only [Context.readSupplements, h.phrases] at hread ⊢
  exact hread.bind fun _ _ => h.screen _ _

/-- Expanding an element, if the elements inside it are expanded so. The path of the wider reading has no frames
that the other's does not have, so it admits whatever the other's admits. -/
theorem expandOnce (h : Narrows rel ctx wide) {expand expand' : Expansion n}
    (hexpand : ∀ here e input {trace trace' : Trace}, trace' ⊆ trace →
      (expand here e trace input).Among rel (expand' here e trace' input))
    (here : Address) (e : Element n) (input : Text) {trace trace' : Trace} (htrace : trace' ⊆ trace) :
    (ctx.expandOnce expand here e trace input).Among rel (wide.expandOnce expand' here e trace' input) := by
  have hframe : ctx.frame e.phrase input = wide.frame e.phrase input := by
    rw [Context.frame, Context.frame, h.phrases]
  unfold Context.expandOnce
  rw [hframe]
  by_cases hadmits : trace.admits (wide.frame e.phrase input) = true
  · rw [if_pos hadmits, if_pos (Trace.admits_of_subset htrace hadmits), ← h.override, ← h.phrases]
    have hinner := List.cons_subset_cons (wide.frame e.phrase input) htrace
    have hexpand' (here : Address) (e : Element n) (input : Text) := hexpand here e input hinner
    cases hoverride : ctx.registry.override? (ctx.phrases e.phrase).identity with
    | some replacement => exact h.readNode hexpand' replacement input
    | none =>
      cases (ctx.phrases e.phrase).describe e.props with
      | error f => exact Run.among_fault _ f
      | ok description =>
        have hdescription := h.readDescription hexpand' here e description input
        exact hdescription.append (h.readSupplements hexpand' hoverride input)
  · rw [if_neg hadmits]
    exact Run.among_done _

theorem expandWithin (h : Narrows rel ctx wide) (bound : Nat) (here : Address) (e : Element n) (input : Text)
    {trace trace' : Trace} (htrace : trace' ⊆ trace) :
    (ctx.expandWithin bound here e trace input).Among rel (wide.expandWithin bound here e trace' input) := by
  induction bound generalizing here e input trace trace' with
  | zero => exact Run.among_done _
  | succ bound ih => exact h.expandOnce (fun here e input => ih here e input) here e input htrace

/-- **What the narrower context reads is found among what the wider one reads,** in the same order, also on a
path with fewer frames. -/
theorem resolveTraced (h : Narrows rel ctx wide) (placed : Placed n) (input : Text) {trace trace' : Trace}
    (htrace : trace' ⊆ trace) :
    (ctx.resolveTraced placed trace input).Among rel (wide.resolveTraced placed trace' input) :=
  h.readNode (fun here e input => h.expandWithin _ here e input htrace) placed input

/-- Where the wider reading ends well, so does the narrower one. -/
theorem exists_drain_traced (h : Narrows rel ctx wide) {placed : Placed n} {input : Text} {progress : Progress}
    {trace trace' : Trace} (htrace : trace' ⊆ trace) {more : List Output}
    (hmore : ((wide.resolveTraced placed trace' input).drain progress).1 = .ok more) :
    ∃ outputs, ((ctx.resolveTraced placed trace input).drain progress).1 = .ok outputs ∧
      List.SublistForall₂ rel outputs more := by
  obtain ⟨hfault, rfl⟩ := Run.drain_eq_ok_iff.1 hmore
  obtain ⟨hends, hamong⟩ := h.resolveTraced placed input htrace hfault
  exact ⟨_, Run.drain_eq_ok_iff.2 ⟨hends, rfl⟩, hamong⟩

theorem exists_drain (h : Narrows rel ctx wide) {root : Placed n} {input : Text} {progress : Progress}
    {more : List Output} (hmore : ((wide.resolve root input).drain progress).1 = .ok more) :
    ∃ outputs, ((ctx.resolve root input).drain progress).1 = .ok outputs ∧
      List.SublistForall₂ rel outputs more :=
  h.exists_drain_traced (List.Subset.refl []) hmore

/-- If outputs answer to each other only where they are the same, the narrower reading leaves some out. -/
theorem exists_sublist (h : Narrows Eq ctx wide) {placed : Placed n} {input : Text} {progress : Progress}
    {trace trace' : Trace} (htrace : trace' ⊆ trace) {more : List Output}
    (hmore : ((wide.resolveTraced placed trace' input).drain progress).1 = .ok more) :
    ∃ outputs, ((ctx.resolveTraced placed trace input).drain progress).1 = .ok outputs ∧ outputs.Sublist more := by
  obtain ⟨outputs, houtputs, hamong⟩ := h.exists_drain_traced htrace hmore
  obtain ⟨found, hfound, hsub⟩ := List.sublistForall₂_iff.1 hamong
  rw [List.forall₂_eq_eq_eq] at hfound
  exact ⟨outputs, houtputs, hfound ▸ hsub⟩

end Narrows

/-! ## One more extension -/

theorem narrows_insert (book : Phrasebook n) (leniency : Leniency) (before after : List (Placed n))
    {added : Placed n} (hadded : added.overrides book = []) :
    Narrows Eq ⟨book, .ofExtensions book (before ++ after), leniency⟩
      ⟨book, .ofExtensions book (before ++ added :: after), leniency⟩ where
  toComposes := Likeness.composes_eq (compares_among Eq) (fun step h => congrArg (·.down step) h) leniency
  phrases := rfl
  override identity := by
    have hnot : identity ∉ added.overrides book := by simp [hadded]
    rw [Registry.override?_ofExtensions, Registry.override?_ofExtensions,
      Registry.listing_insert_of_notMem hnot]
  supplements identity _ := by
    simp only [Registry.supplementsFor_ofExtensions, Registry.listing_append, Registry.listing_cons]
    exact (List.Sublist.refl _).append (List.sublist_append_right _ _)
  result h := by rw [h]
  value value h := by rw [h]

/-- **Supplements only add.** Take any extensions, and one more that stands in for nothing, registered anywhere
among them; it may add to any phrases, also to such that lead back to it.

- If no phrase function gives up, reading with it ends well.
- Whenever reading with it ends well, so does reading without it, and the readings without it are found among
  those with it, the same ones in the same order.
- If something stands in for every phrase that it adds to, it makes no difference at all. -/
theorem supplements_only_add (book : Phrasebook n) (leniency : Leniency) (before after : List (Placed n))
    (added : Placed n) (hadded : added.overrides book = []) (root : Placed n) (input : Text)
    (progress : Progress) :
    let without : Context n := ⟨book, .ofExtensions book (before ++ after), leniency⟩
    let extended : Context n := ⟨book, .ofExtensions book (before ++ added :: after), leniency⟩
    (book.Quiet → ∃ outputs, ((extended.resolve root input).drain progress).1 = .ok outputs) ∧
    (∀ outputs, ((extended.resolve root input).drain progress).1 = .ok outputs →
      ∃ fewer, ((without.resolve root input).drain progress).1 = .ok fewer ∧ fewer.Sublist outputs) ∧
    ((∀ target ∈ added.supplements book, ∃ placed ∈ before ++ after, target ∈ placed.overrides book) →
      without.resolve root input = extended.resolve root input) := by
  intro without extended
  have hnarrows : Narrows Eq without extended := narrows_insert book leniency before after hadded
  refine ⟨fun hquiet => ?_, fun outputs houtputs => ?_, fun htargets => ?_⟩
  · exact ⟨_, Run.drain_eq_ok_iff.2 ⟨extended.fault?_resolveTraced hquiet root [] input, rfl⟩⟩
  · obtain ⟨hfault, rfl⟩ := Run.drain_eq_ok_iff.1 houtputs
    obtain ⟨hfault', hamong⟩ := hnarrows.resolveTraced root input (List.Subset.refl []) hfault
    obtain ⟨found, hfound, hsub⟩ := List.sublistForall₂_iff.1 hamong
    rw [List.forall₂_eq_eq_eq] at hfound
    exact ⟨_, Run.drain_eq_ok_iff.2 ⟨hfault', rfl⟩, hfound ▸ hsub⟩
  · have hleniency : without.leniency = extended.leniency := rfl
    have hsame (phrase : Fin n) : (book phrase).SameUse (book phrase) := ⟨rfl, rfl, rfl, rfl⟩
    refine Context.resolveTraced_congr hleniency hsame hnarrows.override ?_ root [] input
    intro identity hnone
    -- nothing stands in for the identity, so it is none of those the extension adds to
    have hnot : identity ∉ added.supplements book := by
      intro htarget
      obtain ⟨placed, hplaced, hnames⟩ := htargets identity htarget
      exact Registry.override?_eq_none_iff.1 hnone placed hplaced hnames
    rw [Registry.supplementsFor_ofExtensions, Registry.supplementsFor_ofExtensions,
      Registry.listing_insert_of_notMem hnot]

/-- Colours, shades that are added to them and lead back to them, and ink, which stands in for colours. -/
def shadeBook : Phrasebook 3
  | ⟨0, _⟩ =>
    { identity := "Colour"
      describe := fun _ => .ok (.choice none [.text "red", .text "rose"]) }
  | ⟨1, _⟩ =>
    { identity := "Shade"
      describe := fun _ =>
        .ok (.choice none [.sequence none [.text "rich ", .element none ⟨⟨0, by decide⟩, []⟩], .text "russet"])
      supplements := ["Colour"] }
  | ⟨_ + 2, _⟩ =>
    { identity := "Ink"
      describe := fun _ => .ok (.text "ruby")
      overrides := ["Colour"] }

def shadeRoot : Placed 3 := ⟨⟨0, []⟩, .sequence none [.text "paint ", .element none ⟨⟨0, by decide⟩, []⟩]⟩

def shades : Placed 3 := ⟨⟨1, []⟩, .element none ⟨⟨1, by decide⟩, []⟩⟩

def ink : Placed 3 := ⟨⟨2, []⟩, .element none ⟨⟨2, by decide⟩, []⟩⟩

/-- Shades add "russet" after the two colours, and nothing where ink stands in for colours. -/
theorem shades_add_russet :
    let reading (extensions : List (Placed 3)) :=
      (⟨shadeBook, .ofExtensions shadeBook extensions, {}⟩ : Context 3).resolve shadeRoot "paint r".toList
    (∃ outputs fewer, ((reading [shades]).drain {}).1 = .ok outputs ∧
      ((reading []).drain {}).1 = .ok fewer ∧ fewer.Sublist outputs ∧
      outputs.map (·.text) = ["paint red".toList, "paint rose".toList, "paint russet".toList] ∧
      fewer.map (·.text) = ["paint red".toList, "paint rose".toList]) ∧
    reading [ink] = reading [ink, shades] := by
  intro reading
  have hquiet : shadeBook.Quiet := by
    intro phrase f hraises
    match phrase with
    | ⟨0, _⟩ => rcases hraises with h | ⟨h, -⟩ | h <;> cases h
    | ⟨1, _⟩ => rcases hraises with h | ⟨h, -⟩ | h <;> cases h
    | ⟨_ + 2, _⟩ => rcases hraises with h | ⟨h, -⟩ | h <;> cases h
  constructor
  · obtain ⟨hends, hfewer, -⟩ :=
      supplements_only_add shadeBook {} [] [] shades rfl shadeRoot "paint r".toList {}
    obtain ⟨outputs, houtputs⟩ := hends hquiet
    obtain ⟨fewer, hwithout, hsub⟩ := hfewer outputs houtputs
    refine ⟨outputs, fewer, houtputs, hwithout, hsub, ?_, ?_⟩
    · rw [← (Run.drain_eq_ok_iff.1 houtputs).2]
      decide +kernel
    · rw [← (Run.drain_eq_ok_iff.1 hwithout).2]
      decide +kernel
  · obtain ⟨-, -, hsame⟩ := supplements_only_add shadeBook {} [ink] [] shades rfl
      shadeRoot "paint r".toList {}
    refine hsame fun target htarget => ⟨ink, List.mem_singleton_self _, ?_⟩
    cases List.mem_singleton.1 htarget
    exact List.mem_singleton_self _

/-! ## Longer paths -/

/-- No context is narrower than itself, or wider. -/
theorem narrows_self (ctx : Context n) : Narrows Eq ctx ctx where
  toComposes := Likeness.composes_eq (compares_among Eq) (fun step h => congrArg (·.down step) h) ctx.leniency
  phrases := rfl
  override _ := rfl
  supplements _ _ := .refl _
  result h := by rw [h]
  value value h := by rw [h]

/-- **Longer paths only remove readings.** Take two paths, one of which has every frame that the other has, and
perhaps more, in whatever order.

- If no phrase function gives up, reading on the shorter one ends well.
- Whenever reading on the shorter path ends well, so does reading on the longer one, and the readings on the longer
  path are found among those on the shorter, the same ones in the same order. -/
theorem longer_paths_only_remove (ctx : Context n) (placed : Placed n) (input : Text) (progress : Progress)
    {trace longer : Trace} (h : trace ⊆ longer) :
    (ctx.phrases.Quiet → ∃ outputs, ((ctx.resolveTraced placed trace input).drain progress).1 = .ok outputs) ∧
    ∀ outputs, ((ctx.resolveTraced placed trace input).drain progress).1 = .ok outputs →
      ∃ fewer, ((ctx.resolveTraced placed longer input).drain progress).1 = .ok fewer ∧ fewer.Sublist outputs := by
  constructor
  · intro hquiet
    exact ⟨_, Run.drain_eq_ok_iff.2 ⟨ctx.fault?_resolveTraced hquiet placed trace input, rfl⟩⟩
  · intro outputs houtputs
    exact (narrows_self ctx).exists_sublist h houtputs

theorem shadeBook_quiet : shadeBook.Quiet
  | ⟨0, _⟩, _, h | ⟨1, _⟩, _, h | ⟨_ + 2, _⟩, _, h => by rcases h with h | ⟨h, -⟩ | h <;> cases h

/-- Within a shade, with the same input left, no shades are added to colours. -/
theorem inner_shades_are_removed :
    let reading (trace : Trace) :=
      (⟨shadeBook, .ofExtensions shadeBook [shades], {}⟩ : Context 3).resolveTraced shadeRoot trace "paint r".toList
    ∃ outputs fewer, ((reading [⟨"Ink", 3⟩]).drain {}).1 = .ok outputs ∧
      ((reading [⟨"Shade", 1⟩, ⟨"Ink", 3⟩]).drain {}).1 = .ok fewer ∧ fewer.Sublist outputs ∧
      outputs.map (·.text) = ["paint red".toList, "paint rose".toList, "paint russet".toList] ∧
      fewer.map (·.text) = ["paint red".toList, "paint rose".toList] := by
  intro reading
  obtain ⟨hends, hfewer⟩ := longer_paths_only_remove ⟨shadeBook, .ofExtensions shadeBook [shades], {}⟩ shadeRoot
    "paint r".toList {} (List.subset_cons_self ⟨"Shade", 1⟩ [⟨"Ink", 3⟩])
  obtain ⟨outputs, houtputs⟩ := hends shadeBook_quiet
  obtain ⟨fewer, hlonger, hsub⟩ := hfewer outputs houtputs
  refine ⟨outputs, fewer, houtputs, hlonger, hsub, ?_, ?_⟩
  · rw [← (Run.drain_eq_ok_iff.1 houtputs).2]
    decide +kernel
  · rw [← (Run.drain_eq_ok_iff.1 hlonger).2]
    decide +kernel

end Typeahead
