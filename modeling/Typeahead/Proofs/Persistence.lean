import Typeahead.Proofs.Growth

/-!
# What stands stays

Whatever is done with a session and its open passes, the trees that stay keep what stands of them: descriptions
are added, and none is taken away. What one act can do is said once (`Desk.Advances`), with all that has to hold
for this at every time (`Desk.Tended`); for open passes this is that their streams are in order after what has
happened so far (`Desk.Attends`). Main statement: `Desk.tended_performAll`.
-/

namespace Typeahead

variable {n : Nat}

/-! ## Trees that stay -/

namespace Session

variable {session session' : Session n}

theorem roots_eq (session : Session n) : session.roots = session.trees.map (·.address.root) := by
  rw [roots, trees, List.map_append, List.map_map]
  rfl

theorem mem_roots {root : Nat} : root ∈ session.roots ↔ ∃ tree ∈ session.trees, tree.address.root = root := by
  rw [roots_eq, List.mem_map]

/-- The root of what stands has a number that was given out. -/
theorem Sound.root_lt (h : session.Sound) {built : List Address} {placed : Placed n}
    (hstanding : Standing session.phrases session.trees built placed) :
    placed.address.root < session.nextRoot := by
  obtain ⟨root, hroot, haddress, -⟩ := hstanding.exists_root
  exact h.lt_nextRoot _ (mem_roots.2 ⟨root, hroot, haddress⟩)

/-- A node stands in one of the trees of the session. -/
def Stands (session : Session n) (placed : Placed n) : Prop :=
  Standing session.phrases session.trees session.described placed

/-- What becomes of a session: trees may go and new ones come, with new numbers, and built descriptions stay. -/
structure Keeps (before after : Session n) : Prop where
  phrases : after.phrases = before.phrases
  nextRoot : before.nextRoot ≤ after.nextRoot
  trees : ∀ tree ∈ after.trees, tree.address.root < before.nextRoot → tree ∈ before.trees
  described : before.described <:+ after.described

namespace Keeps

theorem refl (session : Session n) : session.Keeps session :=
  ⟨rfl, Nat.le_refl _, fun _ htree _ => htree, List.suffix_refl _⟩

theorem trans {first second third : Session n} (h : first.Keeps second) (h' : second.Keeps third) :
    first.Keeps third where
  phrases := h'.phrases.trans h.phrases
  nextRoot := h.nextRoot.trans h'.nextRoot
  trees tree htree hlt := h.trees tree (h'.trees tree htree (Nat.lt_of_lt_of_le hlt h.nextRoot)) hlt
  described := h.described.trans h'.described

/-- **What stands in a tree that stays** stands afterwards. -/
theorem standing (h : session.Keeps session') (hsound : session.Sound) {built : List Address} {placed : Placed n}
    (hstanding : Standing session.phrases session.trees built placed)
    (hroot : placed.address.root ∈ session'.roots) : Standing session'.phrases session'.trees built placed := by
  obtain ⟨tree, htree, haddress⟩ := mem_roots.1 hroot
  have hlt := hsound.root_lt hstanding
  rw [← haddress] at hlt
  rw [h.phrases]
  exact hstanding.transplant hsound.rooted (h.trees tree htree hlt) htree haddress

end Keeps

theorem keeps_setSentences {nodes : List (Node n)} (h : session.setSentences nodes = .ok session') :
    session.Keeps session' ∧ session'.described = session.described := by
  unfold Session.setSentences at h
  split at h
  · cases h
  · cases h
    refine ⟨⟨rfl, Nat.le_add_right _ _, fun tree htree hlt => ?_, List.suffix_refl _⟩, rfl⟩
    rcases List.mem_append.1 htree with hsentence | hextension
    -- the numbers of new sentences were not given out before
    · have hroot := List.mem_map_of_mem (f := (·.address.root)) hsentence
      rw [roots_placeFrom, List.mem_range'_1] at hroot
      omega
    · exact List.mem_append_right _ hextension

theorem keeps_setExtensions {phrases : List (Fin n)} (h : session.setExtensions phrases = .ok session') :
    session.Keeps session' ∧ session'.described = session.described := by
  unfold Session.setExtensions at h
  split at h
  · cases h
  · cases h
    obtain ⟨left, created, hperm, hcreated, hnext⟩ := perm_renew session.extensions session.nextRoot phrases
    refine ⟨⟨rfl, by simp [hnext], fun tree htree hlt => ?_, List.suffix_refl _⟩, rfl⟩
    rcases List.mem_append.1 htree with hsentence | hextension
    · exact List.mem_append_left _ hsentence
    -- an extension is from the pool, or its number was not given out before
    · obtain ⟨extension, hrenewed, rfl⟩ := List.mem_map.1 hextension
      rcases List.mem_append.1 (hperm.mem_iff.1 (List.mem_append_left left hrenewed)) with hpool | hnew
      · exact placed_mem_trees hpool
      · have hroot := List.mem_map_of_mem (f := (·.root)) hnew
        rw [hcreated, List.mem_range'_1] at hroot
        exact absurd hlt (Nat.not_lt.2 hroot.1)

end Session

/-! ## What holds at every time -/

namespace Desk

variable {desk after : Desk n} {past : List Event} {roots : List (Placed n)}

/-- The streams of all open passes read nodes that stand, and are in order after what has happened; the
descriptions called for until then are built. -/
structure Attends (desk : Desk n) (past : List Event) (roots : List (Placed n)) : Prop where
  sentences : desk.session.sentences ⊆ roots
  standing : ∀ root ∈ roots, desk.session.Stands root
  built : ∀ here, .describe here ∈ past → here ∈ desk.session.described
  inOrder : ∀ streams ∈ desk.passes, streams.InOrder (desk.session.pass.Allows roots) past

theorem attends_of_no_passes (h : desk.passes = []) : desk.Attends [] desk.session.sentences where
  sentences := List.Subset.refl _
  standing _ hroot := .root (List.mem_append_left _ hroot)
  built := nofun
  inOrder := by simp [h]

/-- Open passes do not mind what is marked or built. -/
theorem Attends.of_suffix (h : desk.Attends past roots) (freshness : Freshness) {built : List Address}
    (hbuilt : desk.session.described <:+ built) :
    Attends ⟨{ desk.session with freshness, described := built }, desk.passes⟩ past roots where
  sentences := h.sentences
  standing root hroot := (h.standing root hroot).mono hbuilt.subset
  built here hhere := hbuilt.subset (h.built here hhere)
  inOrder := h.inOrder

/-- What holds of a session and its open passes at every time. -/
structure Tended (desk : Desk n) : Prop where
  sound : desk.session.Sound
  nodup : desk.session.described.Nodup
  lt_nextRoot : ∀ here ∈ desk.session.described, here.root < desk.session.nextRoot
  describable : ∀ here ∈ desk.session.described, here.root ∈ desk.session.roots →
    Describable desk.session.phrases desk.session.trees desk.session.described here
  attends : ∃ past roots, desk.Attends past roots

theorem tended_ofSettings (book : Phrasebook n) (settings : Settings) : (ofSettings book settings).Tended where
  sound := Session.sound_new book settings
  nodup := List.nodup_nil
  lt_nextRoot := nofun
  describable := nofun
  attends := ⟨_, _, attends_of_no_passes rfl⟩

/-- What one act can do: the trees that were there grow, some of them may be replaced, and open passes go on or
end. -/
structure Advances (desk after : Desk n) : Prop extends desk.session.Keeps after.session where
  sound : after.session.Sound
  grows : Grows desk.session.phrases desk.session.trees desk.session.described after.session.described
  attends : ∃ past roots, after.Attends past roots

/-- **One act keeps what holds at every time.** -/
theorem Tended.advance (h : desk.Tended) (hadvances : desk.Advances after) : after.Tended where
  sound := hadvances.sound
  nodup := hadvances.grows.nodup h.nodup
  lt_nextRoot here hhere := by
    refine Nat.lt_of_lt_of_le ?_ hadvances.nextRoot
    by_cases hbefore : here ∈ desk.session.described
    · exact h.lt_nextRoot here hbefore
    · obtain ⟨_, _, _, hstanding, -⟩ := hadvances.grows.describable here hhere hbefore
      exact h.sound.root_lt hstanding
  describable here hhere hroot := by
    have hthere : Describable desk.session.phrases desk.session.trees after.session.described here := by
      by_cases hbefore : here ∈ desk.session.described
      · obtain ⟨tree, htree, haddress⟩ := Session.mem_roots.1 hroot
        have hlt := h.lt_nextRoot here hbefore
        rw [← haddress] at hlt
        have hstays := Session.mem_roots.2 ⟨tree, hadvances.trees tree htree hlt, haddress⟩
        exact (h.describable here hbefore hstays).mono hadvances.described.subset
      · exact hadvances.grows.describable here hhere hbefore
    obtain ⟨label, e, description, hstanding, hdescribe⟩ := hthere
    refine ⟨label, e, description, hadvances.toKeeps.standing h.sound hstanding hroot, ?_⟩
    rw [hadvances.phrases]
    exact hdescribe
  attends := hadvances.attends

/-! ## What each act does -/

/-- An act that leaves the trees and goes on with the passes. -/
theorem advances_of_grows (h : desk.Tended) {freshness : Freshness} (hfreshness : freshness.Sound)
    {built : List Address} (hgrows : Grows desk.session.phrases desk.session.trees desk.session.described built)
    {passes : List Streams}
    (hattends : Attends ⟨{ desk.session with freshness, described := built }, passes⟩ past roots) :
    desk.Advances ⟨{ desk.session with freshness, described := built }, passes⟩ where
  toKeeps := ⟨rfl, Nat.le_refl _, fun _ htree _ => htree, hgrows.suffix⟩
  sound := ⟨hfreshness, h.sound.nodup_roots, h.sound.lt_nextRoot, h.sound.at_root, h.sound.sentences,
    h.sound.extensions⟩
  grows := hgrows
  attends := ⟨past, roots, hattends⟩

/-- An act that marks or builds something, and does nothing to the passes. -/
theorem advances_of_quiet (h : desk.Tended) {freshness : Freshness} (hfreshness : freshness.Sound)
    {built : List Address} (hgrows : Grows desk.session.phrases desk.session.trees desk.session.described built) :
    desk.Advances ⟨{ desk.session with freshness, described := built }, desk.passes⟩ := by
  obtain ⟨past, roots, hattends⟩ := h.attends
  exact advances_of_grows h hfreshness hgrows (hattends.of_suffix freshness hgrows.suffix)

/-- An act that replaces a part of the session. -/
theorem advances_replace (h : desk.Tended) {result : Except Defect (Session n)}
    (hsound : ∀ session, result = .ok session → session.Sound)
    (hkeeps : ∀ session, result = .ok session →
      desk.session.Keeps session ∧ session.described = desk.session.described) :
    desk.Advances (desk.replace result) := by
  cases result with
  | error defect => exact ⟨.refl _, h.sound, .refl _, _, _, attends_of_no_passes rfl⟩
  | ok session =>
    obtain ⟨hkept, hdescribed⟩ := hkeeps session rfl
    refine ⟨hkept, hsound session rfl, ?_, _, _, attends_of_no_passes rfl⟩
    simp only [replace, hdescribed]
    exact .refl _

theorem advances_parse (h : desk.Tended) (input : Text) : desk.Advances (desk.handle (.parse input)) := by
  have hrun : (desk.session.pass.stream input).InOrder (desk.session.pass.Allows desk.session.sentences) [] :=
    Pass.inOrder_stream (List.Subset.refl _) input []
  refine advances_of_quiet h (Run.sound_drain _ h.sound.freshness.beginPass) ?_
  exact Session.grows_drain hrun desk.session.pass.progress fun root hroot => .root (List.mem_append_left _ hroot)

theorem advances_openPass (h : desk.Tended) (inputs : List Text) : desk.Advances (desk.openPass inputs) := by
  obtain ⟨past, roots, hattends⟩ := h.attends
  have hstays := hattends.of_suffix desk.session.freshness.beginPass (List.suffix_refl _)
  refine advances_of_grows h h.sound.freshness.beginPass (.refl _)
    ⟨hstays.sentences, hstays.standing, hstays.built, fun streams hstreams => ?_⟩
  rcases List.mem_append.1 hstreams with hold | hnew
  · exact hstays.inOrder streams hold
  · cases List.mem_singleton.1 hnew
    intro run hrun later _
    obtain ⟨input, -, rfl⟩ := List.mem_map.1 hrun
    exact Pass.inOrder_stream hattends.sentences input later

theorem advances_locate (h : desk.Tended) (anchor : Anchor) (steps : List Step) :
    desk.Advances (desk.handle (.locate anchor steps)) := by
  obtain ⟨built, hlocated, hgrows, -⟩ := desk.session.exists_locate_grows anchor steps
  rw [handle, hlocated]
  exact advances_of_quiet h h.sound.freshness hgrows

theorem advances_resolveAt (h : desk.Tended) (anchor : Anchor) (steps : List Step) (input : Text)
    (count : Option Nat) : desk.Advances (desk.handle (.resolveAt anchor steps input count)) := by
  obtain ⟨built, hlocated, hgrows, hfound⟩ :=
    (desk.session.absorb desk.session.pass.progress).exists_locate_grows anchor steps
  simp only [handle, Session.resolveAt]
  split
  · rw [hlocated]
    exact advances_of_quiet h h.sound.freshness.beginPass hgrows
  · rw [hlocated]
    exact advances_of_quiet h h.sound.freshness.beginPass hgrows
  · next placed hplaced =>
    rw [hlocated]
    have hrun : (desk.session.pass.context.resolve placed input).InOrder (desk.session.pass.Allows [placed]) [] :=
      Pass.inOrder_resolve (List.mem_singleton_self placed) input []
    have hstanding : ∀ root ∈ [placed], Standing desk.session.phrases desk.session.trees built root := by
      intro root hroot
      cases List.mem_singleton.1 hroot
      exact hfound placed hplaced
    refine advances_of_quiet h (Run.sound_drain _ h.sound.freshness.beginPass) (hgrows.trans ?_)
    let progress : Progress := { desk.session.pass.progress with described := built }
    cases count with
    | none => exact Session.grows_drain hrun progress hstanding
    | some count => exact Session.grows_drain (hrun.take count) progress hstanding

/-- The progress of an open pass, with the marks and descriptions as they are now. -/
def progressOf (desk : Desk n) (streams : Streams) : Progress :=
  ⟨desk.session.freshness, desk.session.described, streams.progress.metrics⟩

theorem pull_eq {pass place : Nat} {streams : Streams} (h : desk.passes[pass]? = some streams) :
    desk.pull pass place =
      ⟨desk.session.absorb ((streams.runAt place).eventsToNext.foldl Progress.record (desk.progressOf streams)),
        desk.passes.set pass (Streams.pull { streams with progress := desk.progressOf streams } place).2⟩ := by
  have hprogress := Streams.progress_pull { streams with progress := desk.progressOf streams } place
  simp only [pull, h]
  exact congrArg (fun progress => Desk.mk (desk.session.absorb progress) _) hprogress

theorem advances_pull (h : desk.Tended) (pass place : Nat) : desk.Advances (desk.pull pass place) := by
  cases hstreams : desk.passes[pass]? with
  | none =>
    simp only [pull, hstreams]
    exact advances_of_quiet h h.sound.freshness (.refl _)
  | some streams =>
    rw [pull_eq hstreams]
    obtain ⟨past, roots, hattends⟩ := h.attends
    let resumed : Streams := { streams with progress := desk.progressOf streams }
    have hresumed : resumed.InOrder (desk.session.pass.Allows roots) past :=
      hattends.inOrder streams (List.mem_of_getElem? hstreams)
    obtain ⟨hevents, hafter⟩ := hresumed.pull place
    have hgrows : Grows desk.session.phrases desk.session.trees (desk.progressOf streams).described _ :=
      Session.grows_foldl hevents hattends.standing hattends.built
    have hstays := hattends.of_suffix
      ((streams.runAt place).eventsToNext.foldl Progress.record (desk.progressOf streams)).freshness hgrows.suffix
    have hbuilt : ∀ here, .describe here ∈ (streams.runAt place).eventsToNext.reverse ++ past → here ∈
        ((streams.runAt place).eventsToNext.foldl Progress.record (desk.progressOf streams)).described := by
      intro here hhere
      rcases List.mem_append.1 hhere with hnow | hbefore
      · exact (Progress.mem_described_foldl _ _ here).2 (.inl (List.mem_reverse.1 hnow))
      · exact hstays.built here hbefore
    refine advances_of_grows h (Progress.sound_foldl h.sound.freshness _) hgrows
      ⟨hstays.sentences, hstays.standing, hbuilt, fun other hother => ?_⟩
    rcases List.mem_or_eq_of_mem_set hother with hold | rfl
    · exact (hstays.inOrder other hold).after (List.suffix_append _ past)
    · exact hafter

theorem advances_read (h : desk.Tended) (pass : Nat) (anchor : Anchor) (steps : List Step) (input : Text) :
    desk.Advances (desk.read pass anchor steps input) := by
  obtain ⟨built, hlocated, hgrows, hfound⟩ := desk.session.exists_locate_grows anchor steps
  simp only [read]
  split
  · next placed streams hplaced hstreams =>
    obtain ⟨past, roots, hattends⟩ := h.attends
    have hstays := hattends.of_suffix desk.session.freshness hgrows.suffix
    have hmore (other : Streams) (hother : other ∈ desk.passes) :
        other.InOrder (desk.session.pass.Allows (placed :: roots)) past :=
      (hstays.inOrder other hother).imp fun _ _ hallows => hallows.of_roots_subset (List.subset_cons_self _ _)
    rw [hlocated]
    refine advances_of_grows h h.sound.freshness hgrows
      ⟨fun root hroot => List.mem_cons_of_mem placed (hstays.sentences hroot),
        List.forall_mem_cons.2 ⟨hfound placed hplaced, hstays.standing⟩, hstays.built, fun other hother => ?_⟩
    rcases List.mem_or_eq_of_mem_set hother with hold | rfl
    · exact hmore other hold
    · intro run hrun later hlater
      rcases List.mem_append.1 hrun with hold | hnew
      · exact hmore streams (List.mem_of_getElem? hstreams) run hold later hlater
      · cases List.mem_singleton.1 hnew
        exact Pass.inOrder_resolve List.mem_cons_self input later
  · rw [hlocated]
    exact advances_of_quiet h h.sound.freshness hgrows

/-- **Whatever is done**, what holds at every time allows no more than this. -/
theorem advances_perform (h : desk.Tended) (act : Act n) : desk.Advances (desk.perform act) := by
  cases act with
  | read pass anchor steps input => exact advances_read h pass anchor steps input
  | request request =>
    cases request with
    | setSentences nodes =>
      exact advances_replace h (fun session => h.sound.setSentences) fun session => Session.keeps_setSentences
    | setExtensions phrases =>
      exact advances_replace h (fun session => h.sound.setExtensions) fun session => Session.keeps_setExtensions
    | setSettings settings =>
      refine ⟨⟨rfl, Nat.le_refl _, fun _ htree _ => htree, List.suffix_refl _⟩, ?_, .refl _, _, _,
        attends_of_no_passes rfl⟩
      exact sound_handle h.sound (.setSettings settings)
    | parse input => exact advances_parse h input
    | openPass inputs => exact advances_openPass h inputs
    | pull pass place => exact advances_pull h pass place
    | resolveAt anchor steps input count => exact advances_resolveAt h anchor steps input count
    | locate anchor steps => exact advances_locate h anchor steps
    | mark address => exact advances_of_quiet h (h.sound.freshness.mark address) (.refl _)
    | clearFreshness => exact advances_of_quiet h Freshness.Sound.clear (.refl _)
    | beginEpoch => exact advances_of_quiet h h.sound.freshness.beginPass (.refl _)

/-- **After any acts** holds what holds at every time, and the trees that stay have kept what was built. -/
theorem tended_performAll (h : desk.Tended) (acts : List (Act n)) :
    (desk.performAll acts).Tended ∧ desk.session.Keeps (desk.performAll acts).session := by
  induction acts generalizing desk with
  | nil => exact ⟨h, .refl _⟩
  | cons act later ih =>
    have hadvances := advances_perform h act
    obtain ⟨htended, hkeeps⟩ := ih (h.advance hadvances)
    exact ⟨htended, hadvances.toKeeps.trans hkeeps⟩

end Desk

end Typeahead
