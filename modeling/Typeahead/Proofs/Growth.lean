import Typeahead.Proofs.Standing
import Typeahead.Proofs.Visits

/-!
# How trees grow

Descriptions are built when a way down is followed, and when an element is expanded while input is read. Either
way more is built, each description once, and only of elements that stand and that their phrase describes
(`Grows`). Main statements: following a way down grows the trees (`Placed.grows_follow`), and so does whatever
happens while nodes that stand are read (`Session.grows_foldl`).
-/

namespace Typeahead

variable {n : Nat} {book : Phrasebook n} {roots : List (Placed n)}

/-- An element stands here that its phrase describes. -/
def Describable (book : Phrasebook n) (roots : List (Placed n)) (built : List Address) (here : Address) : Prop :=
  ∃ label e description, Standing book roots built ⟨here, .element label e⟩ ∧
    (book e.phrase).describe e.props = .ok description

theorem Describable.mono {built built' : List Address} {here : Address} (h : Describable book roots built here)
    (hbuilt : built ⊆ built') : Describable book roots built' here := by
  obtain ⟨label, e, description, hstanding, hdescribe⟩ := h
  exact ⟨label, e, description, hstanding.mono hbuilt, hdescribe⟩

/-- How what is built may change while the trees stay: more is built, each once, and only for elements that
then stand and that their phrase describes. -/
structure Grows (book : Phrasebook n) (roots : List (Placed n)) (before after : List Address) : Prop where
  suffix : before <:+ after
  nodup : before.Nodup → after.Nodup
  describable : ∀ here ∈ after, here ∉ before → Describable book roots after here

namespace Grows

theorem refl (built : List Address) : Grows book roots built built where
  suffix := List.suffix_refl built
  nodup := id
  describable _ hmem hnot := absurd hmem hnot

theorem trans {before middle after : List Address} (h : Grows book roots before middle)
    (h' : Grows book roots middle after) : Grows book roots before after where
  suffix := h.suffix.trans h'.suffix
  nodup hnodup := h'.nodup (h.nodup hnodup)
  describable here hmem hnot := by
    by_cases hmiddle : here ∈ middle
    · exact (h.describable here hmiddle hnot).mono h'.suffix.subset
    · exact h'.describable here hmem hmiddle

/-- Building one description, unless it is there already. -/
theorem note {built : List Address} {here : Address} (h : Describable book roots built here) :
    Grows book roots built (Progress.noteDescribed built here) where
  suffix := by
    unfold Progress.noteDescribed
    split
    · exact List.suffix_refl built
    · exact List.suffix_cons here built
  nodup hnodup := Progress.nodup_noteDescribed hnodup here
  describable other hmem hnot := by
    rcases Progress.mem_noteDescribed.1 hmem with rfl | hbefore
    · exact h.mono fun _ => Progress.mem_noteDescribed.2 ∘ .inr
    · exact absurd hbefore hnot

end Grows

/-! ## Following a way down -/

/-- **Following a way down** grows the trees, and what is found stands. -/
theorem Placed.grows_follow {placed : Placed n} {built : List Address} (h : Standing book roots built placed)
    (steps : List Step) :
    Grows book roots built (placed.follow book built steps).2 ∧
      ∀ found, (placed.follow book built steps).1 = .ok (some found) →
        Standing book roots (placed.follow book built steps).2 found := by
  induction steps generalizing placed built with
  | nil =>
    refine ⟨.refl built, fun found hfound => ?_⟩
    cases hfound
    exact h
  | cons step rest ih =>
    obtain ⟨here, node⟩ := placed
    cases step with
    | child index =>
      rw [Placed.follow]
      split
      · next child hchild => exact ih (.child h hchild)
      · exact ⟨.refl built, nofun⟩
    | description =>
      cases node with
      | element label e =>
        simp only [Placed.follow, Node.element?]
        split
        · exact ⟨.refl built, nofun⟩
        · next description hdescribe =>
          have hnote : Grows book roots built _ := .note ⟨label, e, description, h, hdescribe⟩
          have hmem : here ∈ Progress.noteDescribed built here := Progress.mem_noteDescribed.2 (.inl rfl)
          obtain ⟨hgrows, hfound⟩ := ih (.description (h.mono hnote.suffix.subset) hmem hdescribe)
          exact ⟨hnote.trans hgrows, hfound⟩
      | _ => exact ⟨.refl built, nofun⟩

namespace Session

variable {session : Session n}

theorem placed_mem_trees {extension : Extension n} (h : extension ∈ session.extensions) :
    extension.placed ∈ session.trees :=
  List.mem_append_right _ (List.mem_map_of_mem h)

theorem mem_trees_of_root? {anchor : Anchor} {root : Placed n} (h : session.root? anchor = some root) :
    root ∈ session.trees := by
  cases anchor with
  | sentence index => exact List.mem_append_left _ (List.mem_of_getElem? h)
  | extension index =>
    obtain ⟨extension, hextension, rfl⟩ := Option.map_eq_some_iff.1 h
    exact placed_mem_trees (List.mem_of_getElem? hextension)

/-- **Finding a node** grows the trees, changes nothing else, and finds what stands. -/
theorem exists_locate_grows (session : Session n) (anchor : Anchor) (steps : List Step) :
    ∃ built, (session.locate anchor steps).2 = { session with described := built } ∧
      Grows session.phrases session.trees session.described built ∧
      ∀ found, (session.locate anchor steps).1 = .ok (some found) →
        Standing session.phrases session.trees built found := by
  unfold locate
  split
  · exact ⟨session.described, rfl, .refl _, nofun⟩
  · next root hroot =>
    exact ⟨_, rfl, Placed.grows_follow (.root (mem_trees_of_root? hroot)) steps⟩

/-! ## Reading -/

/-- What reading has come to stands, if its roots do and what was called for is built. -/
theorem standing_of_reached {roots : List (Placed n)} {past : List Event} {built : List Address}
    (hroots : ∀ root ∈ roots, Standing session.phrases session.trees built root)
    (hpast : ∀ here, .describe here ∈ past → here ∈ built) {path : Trace} {placed : Placed n}
    (h : session.pass.context.Reached [] roots past path placed) :
    Standing session.phrases session.trees built placed := by
  induction h with
  | root hroot => exact hroots _ hroot
  | lead _ _ hleads ih =>
    cases hleads with
    | child hchild => exact .child ih hchild
    | override _ hoverride =>
      obtain ⟨extension, hextension, rfl, -⟩ := exists_extension_of_override hoverride
      exact .root (placed_mem_trees hextension)
    | description _ _ hdescribe hcalled => exact .description ih (hpast _ hcalled) hdescribe
    | supplement _ _ hmem =>
      obtain ⟨extension, hextension, rfl, -⟩ := exists_extension_of_supplement hmem
      exact .root (placed_mem_trees hextension)

/-- **What happens while nodes that stand are read** grows the trees. -/
theorem grows_foldl {roots : List (Placed n)} {past events : List Event} {progress : Progress}
    (h : Ordered (session.pass.Allows roots) past events)
    (hroots : ∀ root ∈ roots, Standing session.phrases session.trees progress.described root)
    (hpast : ∀ here, .describe here ∈ past → here ∈ progress.described) :
    Grows session.phrases session.trees progress.described (events.foldl Progress.record progress).described := by
  induction events generalizing past progress with
  | nil => exact .refl _
  | cons e later ih =>
    have hrecord : Grows session.phrases session.trees progress.described (progress.record e).described := by
      cases e with
      | describe here =>
        rcases h.1 with hemit | ⟨path, placed, hreached, hhappens⟩
        · cases hemit
        · obtain ⟨label, e, _, description, _, rfl, -, -, -, hdescribe⟩ := hhappens.of_describe
          exact .note ⟨label, e, description, standing_of_reached hroots hpast hreached, hdescribe⟩
      | _ => exact .refl _
    refine hrecord.trans (ih h.2 (fun root hroot => ?_) fun here hhere => ?_)
    · exact (hroots root hroot).mono hrecord.suffix.subset
    · rcases List.mem_cons.1 hhere with rfl | hbefore
      · exact Progress.mem_noteDescribed.2 (.inl rfl)
      · exact hrecord.suffix.subset (hpast here hbefore)

theorem grows_drain {roots : List (Placed n)} {run : Run Output}
    (h : run.InOrder (session.pass.Allows roots) []) (progress : Progress)
    (hroots : ∀ root ∈ roots, Standing session.phrases session.trees progress.described root) :
    Grows session.phrases session.trees progress.described (run.drain progress).2.described := by
  rw [Run.drain, Run.drainOnto_progress]
  exact grows_foldl h.events hroots fun _ hmem => absurd hmem List.not_mem_nil

end Session

end Typeahead
