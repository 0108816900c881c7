import Typeahead.Proofs.History
import Typeahead.Proofs.Registry
import Typeahead.Proofs.Simulation

/-!
# Sessions have no memory

Two sound sessions with the same configuration may have come to it in different ways: their roots are numbered
differently, they have marks and built descriptions of different passes, and their epochs differ. None of that
shows in what they find next (`Session.Twins.parse_alike`). The nodes of one answer to those of the other by
the position of their root and the way down (`Address.Matches`), and reading goes in step. Main statement:
`parse_forgets_history`.
-/

namespace Typeahead

variable {n : Nat}

/-! ## Nodes that answer to each other -/

/-- The same way down, from roots at the same position of two lists. -/
structure Address.Matches (roots roots' : List Nat) (here there : Address) : Prop where
  root : (here.root, there.root) ∈ roots.zip roots'
  steps : here.steps = there.steps

theorem Address.Matches.down {roots roots' : List Nat} {here there : Address}
    (h : Matches roots roots' here there) (step : Step) :
    Matches roots roots' (here.down step) (there.down step) :=
  ⟨h.root, congrArg (step :: ·) h.steps⟩

/-- Where all roots differ, a node answers to one node only. -/
theorem Address.biUnique_matches {roots roots' : List Nat} (hlength : roots.length = roots'.length)
    (hroots : roots.Nodup) (hroots' : roots'.Nodup) : Relator.BiUnique (Address.Matches roots roots') := by
  have hfirst : ((roots.zip roots').map Prod.fst).Nodup := by
    rwa [List.map_fst_zip (Nat.le_of_eq hlength)]
  have hsecond : ((roots.zip roots').map Prod.snd).Nodup := by
    rwa [List.map_snd_zip (Nat.le_of_eq hlength.symm)]
  constructor
  · intro here there other h h'
    have hroot := List.inj_on_of_nodup_map hsecond h.root h'.root rfl
    have hsteps := h.steps.trans h'.steps.symm
    cases here; cases there; cases hroot; cases hsteps
    rfl
  · intro here there other h h'
    have hroot := List.inj_on_of_nodup_map hfirst h.root h'.root rfl
    have hsteps := h.steps.symm.trans h'.steps
    cases there; cases other; cases hroot; cases hsteps
    rfl

/-! ## Events that answer to each other -/

section

variable {place : Address → Address → Prop} {events events' : List Event}

/-- Counts do not tell places apart. -/
theorem Metrics.ofEvents_alike (h : List.Forall₂ (Event.Alike place) events events') :
    ofEvents events = ofEvents events' := by
  refine List.rel_foldl (fun metrics metrics' hmetrics e e' he => ?_) rfl h
  cases hmetrics
  cases he <;> rfl

theorem visits_alike (h : List.Forall₂ (Event.Alike place) events events') :
    List.Forall₂ place (visits events) (visits events') := by
  refine List.rel_filterMap (fun e e' he => ?_) h
  cases he with
  | visit hplace => exact .some hplace
  | _ => exact .none

/-- Lists whose members answer to each other, and to no others, have as many different members. -/
theorem length_dedup_eq {α β : Type} [DecidableEq α] [DecidableEq β] {rel : α → β → Prop}
    (hrel : Relator.BiUnique rel) {items : List α} {items' : List β} (h : List.Forall₂ rel items items') :
    items.dedup.length = items'.dedup.length := by
  induction h with
  | nil => rfl
  | @cons a b later later' hab hlater ih =>
    have hmem : a ∈ later ↔ b ∈ later' := List.rel_mem hrel hab hlater
    by_cases ha : a ∈ later
    · rw [List.dedup_cons_of_mem ha, List.dedup_cons_of_mem (hmem.1 ha), ih]
    · rw [List.dedup_cons_of_notMem ha, List.dedup_cons_of_notMem (mt hmem.2 ha), List.length_cons,
        List.length_cons, ih]

end

/-! ## Sessions with the same configuration -/

/-- Members at the same position of two lists, if something is the same of them there. -/
theorem forall₂_zip_of_map_eq {α β γ : Type} {f : α → γ} {g : β → γ} {items : List α} {items' : List β}
    (h : items.map f = items'.map g) :
    List.Forall₂ (fun a b => f a = g b ∧ (a, b) ∈ items.zip items') items items' := by
  have hmap : List.Forall₂ (fun a b => f a = g b) items items' := by
    rw [← List.forall₂_eq_eq_eq] at h
    simpa only [List.forall₂_map_left_iff, List.forall₂_map_right_iff] using h
  exact List.forall₂_iff_zip.2 ⟨hmap.length_eq, fun hmem => ⟨List.forall₂_zip hmap hmem, hmem⟩⟩

theorem Pass.inStep_handOut {place : Address → Address → Prop} (out : Output) :
    Run.InStep (Event.Alike place) Eq (handOut out) (handOut out) := by
  unfold handOut
  split
  · exact .event .emit (Run.inStep_pure rfl)
  · exact .done

namespace Session

/-- Sessions whose extensions are of the same phrases read alike. -/
theorem similar_of_extensions {place : Address → Address → Prop}
    (hdown : ∀ {here there} (step), place here there → place (here.down step) (there.down step))
    {session session' : Session n} (hphrases : session.phrases = session'.phrases)
    (hleniency : session.settings.leniency = session'.settings.leniency)
    (hextensions : List.Forall₂ (fun extension extension' => extension.phrase = extension'.phrase ∧
      place ⟨extension.root, []⟩ ⟨extension'.root, []⟩) session.extensions session'.extensions) :
    Similar { place } session.pass.context session'.pass.context := by
  have hplaced : List.Forall₂ (fun placed placed' => placed.Alike { place } placed' ∧
        placed.supplements session.phrases = placed'.supplements session'.phrases ∧
        placed.overrides session.phrases = placed'.overrides session'.phrases)
      (session.extensions.map (·.placed)) (session'.extensions.map (·.placed)) := by
    rw [List.forall₂_map_left_iff, List.forall₂_map_right_iff]
    refine hextensions.imp fun extension extension' ⟨hphrase, hplace⟩ => ?_
    rw [Extension.placed, Extension.placed, hphrase, hphrases]
    exact ⟨⟨hplace, Node.alike_self (fun _ => rfl) (fun _ => rfl) (fun _ => rfl) _⟩, rfl, rfl⟩
  have hlists := Registry.lists_alike hplaced
  exact .of_registry hdown hphrases hleniency (fun identity => (hlists identity).2) fun identity => (hlists identity).1

/-- Sound sessions over one book that have been told the same. -/
structure Twins (session session' : Session n) : Prop where
  sound : session.Sound
  sound' : session'.Sound
  phrases : session.phrases = session'.phrases
  configuration : session.configuration = session'.configuration

/-- The nodes of two sessions answer to each other by the positions of their roots. -/
abbrev likeness (session session' : Session n) : Likeness n :=
  { place := Address.Matches session.roots session'.roots }

theorem alike_node {session session' : Session n} (node : Node n) :
    node.Alike (session.likeness session') node :=
  Node.alike_self (fun _ => rfl) (fun _ => rfl) (fun _ => rfl) node

theorem length_roots (session : Session n) : session.roots.length =
    session.configuration.sentences.length + session.configuration.extensions.length := by
  simp [roots, configuration]

theorem extensionIdentities_eq_map (session : Session n) : session.extensionIdentities =
    session.configuration.extensions.map fun phrase => (session.phrases phrase).identity := by
  simp [extensionIdentities, configuration]

namespace Twins

variable {session session' : Session n}

/-- The roots at one position are those of sentences, or of extensions, at one position. -/
theorem zip_roots (h : session.Twins session') :
    session.roots.zip session'.roots =
      (session.sentences.zip session'.sentences).map (Prod.map (·.address.root) (·.address.root)) ++
        (session.extensions.zip session'.extensions).map (Prod.map (·.root) (·.root)) := by
  have hlength : (session.sentences.map (·.address.root)).length =
      (session'.sentences.map (·.address.root)).length := by
    have hsentences := congrArg (·.sentences.length) h.configuration
    simpa only [Session.configuration, List.length_map] using hsentences
  rw [roots, roots, List.zip_append hlength, List.zip_map, List.zip_map]

theorem biUnique (h : session.Twins session') :
    Relator.BiUnique (Address.Matches session.roots session'.roots) := by
  refine Address.biUnique_matches ?_ h.sound.nodup_roots h.sound'.nodup_roots
  rw [length_roots, length_roots, h.configuration]

theorem alike_sentences (h : session.Twins session') :
    List.Forall₂ (Placed.Alike (session.likeness session')) session.sentences session'.sentences := by
  have hnodes := congrArg Configuration.sentences h.configuration
  refine (forall₂_zip_of_map_eq hnodes).imp fun sentence sentence' ⟨hnode, hzip⟩ => ⟨⟨?_, ?_⟩, ?_⟩
  · rw [h.zip_roots]
    exact List.mem_append_left _ (List.mem_map_of_mem hzip)
  · obtain ⟨hmem, hmem'⟩ := List.of_mem_zip hzip
    rw [h.sound.at_root _ hmem, h.sound'.at_root _ hmem']
  · rw [hnode]
    exact alike_node _

theorem similar (h : session.Twins session') :
    Similar (session.likeness session') session.pass.context session'.pass.context := by
  have hextensions := congrArg Configuration.extensions h.configuration
  refine similar_of_extensions (fun step hplace => hplace.down step) h.phrases
    (congrArg (·.settings.leniency) h.configuration)
    ((forall₂_zip_of_map_eq hextensions).imp fun extension extension' ⟨hphrase, hzip⟩ => ⟨hphrase, ?_, rfl⟩)
  rw [h.zip_roots]
  exact List.mem_append_right _ (List.mem_map_of_mem hzip)

theorem inStep_stream (h : session.Twins session') (input : Text) :
    (session.likeness session').InStep (session.pass.stream input) (session'.pass.stream input) := by
  have hsentences := h.alike_sentences.imp fun sentence sentence' halike =>
    h.similar.resolveTraced halike [] input
  have hunlimited : (session.likeness session').InStep (session.pass.unlimited input)
      (session'.pass.unlimited input) :=
    (Run.inStep_ofList hsentences).bind fun out _ heq => heq ▸ Pass.inStep_handOut out
  have hlimit : session.pass.limit = session'.pass.limit := congrArg (·.settings.limit) h.configuration
  unfold Pass.stream
  rw [hlimit]
  split
  · exact hunlimited.take _
  · exact hunlimited

/-- **Twins find the same,** and visit as many nodes. -/
theorem parse_alike (h : session.Twins session') (input : Text) :
    (session.parse input).1 = (session'.parse input).1 ∧
      (session.parse input).2.freshness.visitedCount = (session'.parse input).2.freshness.visitedCount := by
  have hstep := h.inStep_stream input
  have hevents := hstep.views.1
  have hbegun := h.sound.begun_pass
  have hbegun' := h.sound'.begun_pass
  constructor
  · have hmetrics : ((session.pass.stream input).drain session.pass.progress).2.metrics =
        ((session'.pass.stream input).drain session'.pass.progress).2.metrics := by
      rw [Run.drain, Run.drain, Run.drainOnto_progress, Run.drainOnto_progress, (hbegun.foldl _).1,
        (hbegun'.foldl _).1, Metrics.ofEvents_alike hevents]
    have hidentities : session.extensionIdentities = session'.extensionIdentities := by
      rw [extensionIdentities_eq_map, extensionIdentities_eq_map, h.configuration, h.phrases]
    simp only [parse, hmetrics, hidentities, hstep.drain_eq session.pass.progress session'.pass.progress]
  · simp only [parse, absorb, Run.drain, Run.drainOnto_progress]
    rw [hbegun.visitedCount_foldl h.sound.freshness.beginPass,
      hbegun'.visitedCount_foldl h.sound'.freshness.beginPass]
    exact length_dedup_eq h.biUnique (visits_alike hevents)

end Twins

end Session

/-! ## Rebuilding -/

def Configuration.build (book : Phrasebook n) (configuration : Configuration n) : Except Defect (Session n) :=
  let session : Session n := { phrases := book, settings := configuration.settings }
  (session.setSentences configuration.sentences).bind (·.setExtensions configuration.extensions)

/-- A sound session can be built anew. -/
theorem Session.Sound.exists_twin {session : Session n} (h : session.Sound) :
    ∃ rebuilt, session.configuration.build session.phrases = .ok rebuilt ∧ session.Twins rebuilt := by
  have hnew := Session.sound_new session.phrases session.settings
  obtain ⟨told, htold, hphrases, hconfiguration⟩ :=
    exists_setSentences_eq { phrases := session.phrases, settings := session.settings } h.sentences
  have hextensions := h.extensions
  rw [← hphrases] at hextensions
  obtain ⟨rebuilt, hrebuilt, hphrases', hconfiguration'⟩ := told.exists_setExtensions_eq hextensions
  have hsound := (hnew.setSentences htold).setExtensions hrebuilt
  refine ⟨rebuilt, ?_, h, hsound, (hphrases'.trans hphrases).symm, ?_⟩
  · simp only [Configuration.build, configuration] at htold ⊢
    rw [htold]
    exact hrebuilt
  · rw [hconfiguration', hconfiguration]
    rfl

/-- **A session has no memory besides its configuration.** Whatever is asked of a session, with whatever
success, it is configured as the requests say, and a new session can be built with that configuration. On every
input the next pass of the one finds what the first pass of the other finds: the same readings in the same order
with the same counts, or the same fault, and as many fresh nodes. -/
theorem parse_forgets_history (book : Phrasebook n) (settings : Settings) (requests : List (Request n)) :
    let session := ((Desk.ofSettings book settings).handleAll requests).session
    let configuration := requests.foldl (Configuration.after book) ⟨settings, [], []⟩
    session.configuration = configuration ∧
    ∃ rebuilt, configuration.build book = .ok rebuilt ∧ ∀ input,
      (session.parse input).1 = (rebuilt.parse input).1 ∧
      (session.parse input).2.freshness.visitedCount = (rebuilt.parse input).2.freshness.visitedCount := by
  intro session configuration
  have hnew : (Desk.ofSettings book settings).session.Sound := Session.sound_new book settings
  have hsound : session.Sound := Desk.sound_handleAll hnew requests
  obtain ⟨hphrases, hconfiguration⟩ := Desk.configuration_handleAll hnew requests
  obtain ⟨rebuilt, hbuild, htwins⟩ := hsound.exists_twin
  rw [hphrases, hconfiguration] at hbuild
  exact ⟨hconfiguration, rebuilt, hbuild, htwins.parse_alike⟩

end Typeahead
