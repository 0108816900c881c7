import Typeahead.Numbered.Desk
import Typeahead.Proofs.History
import Typeahead.Proofs.Inquiries

/-!
# Descriptions are made once and kept

Whatever is done with a session of numbered trees and its open passes, and however the describe functions answer
their calls: all nodes there are have different numbers, what is kept for an element is never replaced, and no
call is made for it again. At every time the store is in order, and all streams of open passes ask only for what
there is (`Desk.Tended`); one act keeps this, and all that was kept before (`Desk.advances_perform`). Main statement:
`descriptions_are_kept`.
-/

namespace Typeahead.Numbered

variable {n : Nat}

/-! ## Trees that stay -/

namespace Session

variable {session : Session n}

def trees (session : Session n) : List (NumberedTree n) := session.sentences ++ session.extensions.map (·.placed.tree)

/-- All nodes there are: those of the trees and those of all descriptions made so far. -/
def parts (session : Session n) : List (NumberedTree n) := session.store.parts session.trees

def uids (session : Session n) : List Nat := session.parts.map NumberedTree.uid

/-- The store is in order. -/
structure Sound (session : Session n) : Prop where
  distinct : session.store.Distinct session.trees
  logged : session.store.Logged session.describer

/-- What becomes of a session: trees may go and new ones come, with new numbers; what is kept stays kept, and is not
called for again. -/
structure Keeps (before after : Session n) : Prop where
  describer : after.describer = before.describer
  next_le : before.store.next ≤ after.store.next
  trees : ∀ tree ∈ after.trees, tree.uid < before.store.next → tree ∈ before.trees
  cells : before.store.cells <:+ after.store.cells
  calls : ∃ more, after.store.calls = before.store.calls ++ more ∧ ∀ call ∈ more, call.uid ∉ before.store.described

namespace Keeps

theorem refl (session : Session n) : session.Keeps session :=
  ⟨rfl, Nat.le_refl _, fun _ htree _ => htree, List.suffix_refl _, [], (List.append_nil _).symm, nofun⟩

theorem trans {first second third : Session n} (h : first.Keeps second) (h' : second.Keeps third) :
    first.Keeps third where
  describer := h'.describer.trans h.describer
  next_le := h.next_le.trans h'.next_le
  trees tree htree hlt := h.trees tree (h'.trees tree htree (Nat.lt_of_lt_of_le hlt h.next_le)) hlt
  cells := h.cells.trans h'.cells
  calls := by
    obtain ⟨more, hmore, hnot⟩ := h.calls
    obtain ⟨later, hlater, hnot'⟩ := h'.calls
    refine ⟨more ++ later, by rw [hlater, hmore, List.append_assoc], fun call hcall => ?_⟩
    rcases List.mem_append.1 hcall with hfirst | hsecond
    · exact hnot call hfirst
    · exact fun hmem => hnot' call hsecond (List.map_subset _ h.cells.subset hmem)

/-- A session whose store was asked for descriptions. -/
theorem of_reaches {more : List (Call n)} {store : Store n}
    (h : session.store.Reaches session.describer session.trees more store) (freshness : Freshness) :
    session.Keeps { session with freshness, store } :=
  ⟨rfl, h.next_le, fun _ htree _ => htree, h.cells, more, h.calls, h.undescribed⟩

/-- A session with other trees, after numbers were used up. -/
theorem of_skip {after : Session n} (hdescriber : after.describer = session.describer)
    (hstore : after.store = { session.store with next := after.store.next })
    (hle : session.store.next ≤ after.store.next)
    (htrees : ∀ tree ∈ after.trees, tree.uid < session.store.next → tree ∈ session.trees) : session.Keeps after where
  describer := hdescriber
  next_le := hle
  trees := htrees
  cells := by rw [hstore]
  calls := ⟨[], by rw [hstore, List.append_nil], nofun⟩

end Keeps

/-! ## What reading and finding nodes ask for -/

theorem tree_mem_trees {extension : Extension n} (h : extension ∈ session.extensions) :
    extension.placed.tree ∈ session.trees :=
  List.mem_append_right _ (List.mem_map_of_mem (f := (·.placed.tree)) h)

theorem mem_trees_of_root? {anchor : Anchor} {root : NumberedTree n} (h : session.root? anchor = some root) :
    root ∈ session.trees := by
  cases anchor with
  | sentence index => exact List.mem_append_left _ (List.mem_of_getElem? h)
  | extension index =>
    obtain ⟨extension, hextension, rfl⟩ := Option.map_eq_some_iff.1 h
    exact tree_mem_trees (List.mem_of_getElem? hextension)

theorem extends_context (session : Session n) : session.context.Extends session.parts := by
  have hplaced {placed : Placed n} (h : placed ∈ session.extensions.map (·.placed)) :
      placed.tree ∈ session.parts := by
    obtain ⟨extension, hextension, rfl⟩ := List.mem_map.1 h
    exact Store.parts_subset_of_mem_roots (tree_mem_trees hextension) (NumberedTree.self_mem_parts _)
  exact ⟨fun _ _ h => hplaced (Registry.mem_of_mem_supplementsFor h),
    fun _ _ h => hplaced (Registry.mem_of_override?_eq_some h)⟩

/-- What is asked for is known in the session, whatever is handed out. -/
abbrev Licenses {α : Type} (session : Session n) (inquiry : Inquiry n α) : Prop :=
  inquiry.Licensed session.context (fun _ => True) session.parts

theorem licenses_inquire {tree : NumberedTree n} (h : tree.parts ⊆ session.parts) (input : Text) :
    session.Licenses (session.context.inquire tree input) :=
  (Context.licensed_inquire session.extends_context tree h input).imp fun _ _ => trivial

theorem licenses_stream (session : Session n) (input : Text) : session.Licenses (session.stream input) := by
  have hunlimited : session.Licenses ((Inquiry.ofList session.sentences fun sentence =>
      session.context.inquire sentence input).bind fun out => (Pass.handOut out).inquiry) := by
    have hsentences : session.Licenses (Inquiry.ofList session.sentences fun sentence =>
        session.context.inquire sentence input) := by
      refine .ofList fun sentence hsentence => ?_
      exact licenses_inquire (Store.parts_subset_of_mem_roots (List.mem_append_left _ hsentence)) input
    exact hsentences.bind fun out _ => Inquiry.licensed_inquiry fun _ _ => trivial
  unfold stream
  split
  · exact hunlimited.take _
  · exact hunlimited

theorem Sound.pull (h : session.Sound) {α : Type} {inquiry : Inquiry n α} (hinquiry : session.Licenses inquiry) :
    ∃ more, (inquiry.pull session.describer session.store).Orderly session.describer session.context (fun _ => True)
      session.trees session.store more :=
  hinquiry.pull h.distinct h.logged (List.Subset.refl _)

theorem Sound.drain (h : session.Sound) {α : Type} {inquiry : Inquiry n α} (hinquiry : session.Licenses inquiry) :
    ∃ more, session.store.Reaches session.describer session.trees more
      (inquiry.drain session.describer session.store).2.2 := by
  obtain ⟨more, horderly⟩ := h.pull (hinquiry.gather [])
  refine ⟨more, ?_⟩
  unfold Inquiry.drain
  dsimp only
  split <;> exact horderly.reaches

theorem Sound.locate (h : session.Sound) (anchor : Anchor) (steps : List Step) :
    ∃ more store, (session.locate anchor steps).2 = { session with store } ∧
      session.store.Reaches session.describer session.trees more store ∧
      ∀ found, (session.locate anchor steps).1 = .ok (some found) → found.parts ⊆ store.parts session.trees := by
  unfold Session.locate
  split
  · exact ⟨[], session.store, rfl, .refl h.distinct h.logged, nofun⟩
  · next root hroot =>
    obtain ⟨more, hreaches, hfound⟩ := Store.reaches_follow h.distinct h.logged
      (Store.parts_subset_of_mem_roots (mem_trees_of_root? hroot)) steps
    exact ⟨more, _, rfl, hreaches, hfound⟩

/-! ## Replacing trees -/

theorem keeps_setSentences (h : session.Sound) (nodes : List (Node n)) :
    session.Keeps (session.setSentences nodes).2 ∧ (session.setSentences nodes).2.Sound := by
  have hmade := NumberedTree.numberAll_spec nodes session.store.next
  simp only [setSentences, Store.make]
  split
  · exact ⟨.of_skip rfl rfl hmade.le fun _ htree _ => htree, h.distinct.skip hmade.le, h.logged.skip _⟩
  · refine ⟨.of_skip rfl rfl hmade.le fun tree htree hlt => ?_, ?_, h.logged.skip _⟩
    · rcases List.mem_append.1 htree with hsentence | hextension
      -- the numbers of new sentences were not given out before
      · have hnew := hmade.mem_iff (NumberedTree.parts_subset_partsAll hsentence (NumberedTree.self_mem_parts tree))
        exact absurd hlt (Nat.not_lt.2 hnew.1)
      · exact List.mem_append_right _ hextension
    · refine (h.distinct.add hmade).of_perm (?_ : (_ ++ session.sentences).Perm _)
      rw [trees, List.append_assoc]
      exact List.perm_append_comm.append_left _

theorem parts_placed (extensions : List (Extension n)) :
    NumberedTree.partsAll (extensions.map (·.placed.tree)) = extensions.map (·.placed.tree) := by
  induction extensions with
  | nil => rfl
  | cons extension rest ih =>
    rw [List.map_cons, NumberedTree.partsAll, ih]
    rfl

theorem keeps_setExtensions (h : session.Sound) (phrases : List (Fin n)) :
    session.Keeps (session.setExtensions phrases).2 ∧ (session.setExtensions phrases).2.Sound := by
  unfold setExtensions
  split
  · exact ⟨.refl session, h⟩
  · obtain ⟨left, created, hperm, hcreated, hnext⟩ :=
      Session.perm_renew session.extensions session.store.next phrases
    have hmade : NumberedTree.Made (created.map (·.placed.node)) session.store.next (created.map (·.placed.tree))
        (Session.renew session.extensions session.store.next phrases).2 := by
      refine ⟨?_, ?_, by omega⟩
      · rw [List.map_map]
        rfl
      · rw [parts_placed, List.map_map, hnext, Nat.add_sub_cancel_left, ← hcreated]
        rfl
    have htrees := hperm.map (·.placed.tree)
    rw [List.map_append, List.map_append] at htrees
    refine ⟨.of_skip rfl rfl hmade.le fun tree htree hlt => ?_, ?_, h.logged.skip _⟩
    · rcases List.mem_append.1 htree with hsentence | hextension
      · exact List.mem_append_left _ hsentence
      · rcases List.mem_append.1 (htrees.mem_iff.1 (List.mem_append_left _ hextension)) with hpool | hnew
        · exact List.mem_append_right _ hpool
        -- the numbers of new extensions were not given out before
        · have hnumber := hmade.mem_iff (NumberedTree.parts_subset_partsAll hnew (NumberedTree.self_mem_parts tree))
          exact absurd hlt (Nat.not_lt.2 hnumber.1)
    · refine (h.distinct.add hmade).of_perm (?_ : (_ ++ left.map (·.placed.tree)).Perm _)
      rw [trees, List.append_assoc]
      refine (htrees.append_left session.sentences).trans ?_
      rw [trees, ← List.append_assoc]
      exact List.perm_append_comm

end Session

/-! ## What holds at every time -/

namespace Desk

variable {desk after : Desk n}

/-- What holds of a session and its open passes at every time. -/
structure Tended (desk : Desk n) : Prop where
  sound : desk.session.Sound
  licensed : ∀ streams ∈ desk.passes, ∀ inquiry ∈ streams.inquiries, desk.session.Licenses inquiry

/-- What one act can do. -/
structure Advances (desk after : Desk n) : Prop where
  keeps : desk.session.Keeps after.session
  tended : after.Tended

theorem tended_ofSettings (book : Phrasebook n) (describer : Describer n) (settings : Settings) :
    (ofSettings book describer settings).Tended where
  sound := ⟨⟨List.nodup_nil, nofun, nofun, nofun⟩, List.nodup_nil, nofun, nofun⟩
  licensed := nofun

/-- An act that asks the store for descriptions, and goes on with the passes. -/
theorem advances_of_reaches (h : desk.Tended) {more : List (Call n)} {store : Store n}
    (hreaches : desk.session.store.Reaches desk.session.describer desk.session.trees more store)
    (freshness : Freshness) {passes : List (Streams n)}
    (hpasses : ∀ streams ∈ passes, ∀ inquiry ∈ streams.inquiries, (∃ old ∈ desk.passes, inquiry ∈ old.inquiries) ∨
      inquiry.Licensed desk.session.context (fun _ => True) (store.parts desk.session.trees)) :
    desk.Advances ⟨{ desk.session with freshness, store }, passes⟩ where
  keeps := .of_reaches hreaches freshness
  tended := by
    refine ⟨⟨hreaches.distinct, hreaches.logged⟩, fun streams hstreams inquiry hinquiry => ?_⟩
    rcases hpasses streams hstreams inquiry hinquiry with ⟨old, hold, hmem⟩ | hnew
    · exact (h.licensed old hold inquiry hmem).mono hreaches.parts_subset
    · exact hnew

/-- An act that leaves the passes alone. -/
theorem advances_of_quiet (h : desk.Tended) {more : List (Call n)} {store : Store n}
    (hreaches : desk.session.store.Reaches desk.session.describer desk.session.trees more store)
    (freshness : Freshness) : desk.Advances ⟨{ desk.session with freshness, store }, desk.passes⟩ :=
  advances_of_reaches h hreaches freshness fun streams hstreams _ hinquiry => .inl ⟨streams, hstreams, hinquiry⟩

theorem advances_of_marks (h : desk.Tended) (freshness : Freshness) :
    desk.Advances ⟨{ desk.session with freshness }, desk.passes⟩ :=
  advances_of_quiet h (.refl h.sound.distinct h.sound.logged) freshness

/-- An act that replaces a part of the session, and ends the passes. -/
theorem advances_replace {session : Session n} (h : desk.session.Keeps session ∧ session.Sound) :
    desk.Advances ⟨session, []⟩ :=
  ⟨h.1, h.2, nofun⟩

theorem advances_parse (h : desk.Tended) (input : Text) : desk.Advances (desk.handle (.parse input)) := by
  obtain ⟨more, hreaches⟩ := h.sound.drain (desk.session.licenses_stream input)
  exact advances_of_quiet h hreaches _

theorem advances_openPass (h : desk.Tended) (inputs : List Text) : desk.Advances (desk.openPass inputs) := by
  have hreaches : desk.session.store.Reaches desk.session.describer desk.session.trees [] desk.session.store :=
    .refl h.sound.distinct h.sound.logged
  refine advances_of_reaches h hreaches _ fun streams hstreams inquiry hinquiry => ?_
  rcases List.mem_append.1 hstreams with hold | hnew
  · exact .inl ⟨streams, hold, hinquiry⟩
  · cases List.mem_singleton.1 hnew
    obtain ⟨input, -, rfl⟩ := List.mem_map.1 hinquiry
    exact .inr (desk.session.licenses_stream input)

theorem pull_eq {pass place : Nat} {streams : Streams n} {inquiry : Inquiry n Output}
    (hstreams : desk.passes[pass]? = some streams) (hinquiry : streams.inquiries[place]? = some inquiry) :
    ∃ freshness metrics, (desk.pull pass place).2 =
      ⟨{ desk.session with
          freshness, store := (inquiry.pull desk.session.describer desk.session.store).store },
        desk.passes.set pass ⟨streams.inquiries.set place
          (answer (inquiry.pull desk.session.describer desk.session.store).stop).2, metrics⟩⟩ := by
  simp only [pull, hstreams, hinquiry]
  exact ⟨_, _, rfl⟩

theorem advances_pull (h : desk.Tended) (pass place : Nat) : desk.Advances (desk.pull pass place).2 := by
  cases hstreams : desk.passes[pass]? with
  | none =>
    simp only [pull, hstreams]
    exact advances_of_marks h desk.session.freshness
  | some streams =>
    cases hinquiry : streams.inquiries[place]? with
    | none =>
      simp only [pull, hstreams, hinquiry]
      exact advances_of_marks h desk.session.freshness
    | some inquiry =>
      have hmem := List.mem_of_getElem? hstreams
      obtain ⟨more, horderly⟩ := h.sound.pull (h.licensed streams hmem inquiry (List.mem_of_getElem? hinquiry))
      obtain ⟨freshness, metrics, hpull⟩ := pull_eq hstreams hinquiry
      rw [hpull]
      refine advances_of_reaches h horderly.reaches freshness fun other hother left hleft => ?_
      rcases List.mem_or_eq_of_mem_set hother with hold | rfl
      · exact .inl ⟨other, hold, hleft⟩
      rcases List.mem_or_eq_of_mem_set hleft with hold | rfl
      · exact .inl ⟨streams, hmem, hold⟩
      refine .inr ?_
      have hrest := horderly.rest
      generalize (inquiry.pull desk.session.describer desk.session.store).stop = stop at hrest
      cases stop with
      | output a rest => exact (hrest a rest rfl).2
      | _ => exact .done

theorem advances_locate (h : desk.Tended) (anchor : Anchor) (steps : List Step) :
    desk.Advances (desk.handle (.locate anchor steps)) := by
  obtain ⟨more, store, hlocated, hreaches, -⟩ := h.sound.locate anchor steps
  rw [handle, hlocated]
  exact advances_of_quiet h hreaches _

theorem advances_resolveAt (h : desk.Tended) (anchor : Anchor) (steps : List Step) (input : Text)
    (count : Option Nat) : desk.Advances (desk.handle (.resolveAt anchor steps input count)) := by
  have hbegun : desk.session.beginEpoch.Sound := ⟨h.sound.distinct, h.sound.logged⟩
  obtain ⟨more, store, hlocated, hreaches, hfound⟩ := hbegun.locate anchor steps
  simp only [handle, Session.resolveAt]
  split
  · rw [hlocated]
    exact advances_of_quiet h hreaches _
  · rw [hlocated]
    exact advances_of_quiet h hreaches _
  · next tree htree =>
    rw [hlocated]
    let session := { desk.session.beginEpoch with store }
    have hsound : session.Sound := ⟨hreaches.distinct, hreaches.logged⟩
    have hinquiry : session.Licenses (session.context.inquire tree input) :=
      Session.licenses_inquire (hfound tree htree) input
    cases count with
    | none =>
      obtain ⟨later, hlater⟩ := hsound.drain hinquiry
      exact advances_of_quiet h (hreaches.trans hlater) _
    | some count =>
      obtain ⟨later, hlater⟩ := hsound.drain (hinquiry.take count)
      exact advances_of_quiet h (hreaches.trans hlater) _

theorem advances_read (h : desk.Tended) (pass : Nat) (anchor : Anchor) (steps : List Step) (input : Text) :
    desk.Advances (desk.read pass anchor steps input) := by
  obtain ⟨more, store, hlocated, hreaches, hfound⟩ := h.sound.locate anchor steps
  simp only [read]
  split
  · next tree streams htree hstreams =>
    rw [hlocated]
    refine advances_of_reaches h hreaches _ fun other hother inquiry hinquiry => ?_
    rcases List.mem_or_eq_of_mem_set hother with hold | rfl
    · exact .inl ⟨other, hold, hinquiry⟩
    rcases List.mem_append.1 hinquiry with hold | hnew
    · exact .inl ⟨streams, List.mem_of_getElem? hstreams, hold⟩
    · cases List.mem_singleton.1 hnew
      have hparts : tree.parts ⊆ Session.parts { desk.session with store } := hfound tree htree
      exact .inr (Session.licenses_inquire hparts input)
  · rw [hlocated]
    exact advances_of_quiet h hreaches _

/-- **One act** keeps what holds at every time, and what was kept before. -/
theorem advances_perform (h : desk.Tended) (act : Act n) : desk.Advances (desk.perform act) := by
  cases act with
  | read pass anchor steps input => exact advances_read h pass anchor steps input
  | request request =>
    cases request with
    | setSentences nodes => exact advances_replace (Session.keeps_setSentences h.sound nodes)
    | setExtensions phrases => exact advances_replace (Session.keeps_setExtensions h.sound phrases)
    | setSettings settings =>
      exact advances_replace ⟨.of_skip rfl rfl (Nat.le_refl _) fun _ htree _ => htree, h.sound.distinct, h.sound.logged⟩
    | parse input => exact advances_parse h input
    | openPass inputs => exact advances_openPass h inputs
    | pull pass place => exact advances_pull h pass place
    | resolveAt anchor steps input count => exact advances_resolveAt h anchor steps input count
    | locate anchor steps => exact advances_locate h anchor steps
    | mark address => exact advances_of_marks h _
    | clearFreshness => exact advances_of_marks h _
    | beginEpoch => exact advances_of_marks h _

/-- **After any acts** holds what holds at every time, and what was kept is kept. -/
theorem advances_performAll (h : desk.Tended) (acts : List (Act n)) : desk.Advances (desk.performAll acts) := by
  induction acts generalizing desk with
  | nil => exact ⟨.refl _, h⟩
  | cons act later ih =>
    have hadvances := advances_perform h act
    obtain ⟨hkeeps, htended⟩ := ih hadvances.tended
    exact ⟨hadvances.keeps.trans hkeeps, htended⟩

end Desk

/-! ## What follows -/

/-- What is kept for an element is kept for good, as long as the log is in order. -/
theorem Session.Keeps.description? {session after : Session n} (h : session.Keeps after) (hsound : session.Sound)
    (hafter : after.Sound) {uid : Nat} {tree : NumberedTree n} (hkept : session.store.description? uid = some tree) :
    after.store.description? uid = some tree := by
  rw [Store.description?_eq_some hsound.logged.nodup] at hkept
  exact (Store.description?_eq_some hafter.logged.nodup).2 (h.cells.subset hkept)

/-- **A pull** calls for descriptions only of elements that it visits and enters, and what is new is theirs. -/
theorem Desk.Tended.pull {desk : Desk n} (h : desk.Tended) {pass place : Nat} {streams : Streams n}
    {inquiry : Inquiry n Output} (hstreams : desk.passes[pass]? = some streams)
    (hinquiry : streams.inquiries[place]? = some inquiry) :
    let course := inquiry.pull desk.session.describer desk.session.store
    let after := (desk.pull pass place).2.session
    after.store = course.store ∧ after.trees = desk.session.trees ∧
      ∃ more, course.store.calls = desk.session.store.calls ++ more ∧
        (∀ uid, after.store.description? uid ≠ none → desk.session.store.description? uid = none →
          ∃ call ∈ more, call.uid = uid) ∧
        ∀ call ∈ more, desk.session.context.Entered after.parts course.events call := by
  intro course after
  obtain ⟨more, horderly⟩ := h.sound.pull (h.licensed streams (List.mem_of_getElem? hstreams) inquiry
    (List.mem_of_getElem? hinquiry))
  obtain ⟨freshness, metrics, hpull⟩ := pull_eq hstreams hinquiry
  have hafter : after = { desk.session with freshness, store := course.store } := congrArg Desk.session hpull
  rw [hafter]
  refine ⟨rfl, rfl, more, horderly.reaches.calls, fun uid hsome hnone => ?_, horderly.entered⟩
  obtain ⟨tree, htree⟩ := Option.ne_none_iff_exists'.1 hsome
  exact horderly.reaches.exists_call h.sound.logged
    ((Store.description?_eq_some horderly.reaches.logged.nodup).1 htree) (Store.description?_eq_none.1 hnone)

/-- **Descriptions are made once and kept.** Let describe functions answer each call as they like, with a tree or
with a fault, and take a session after any acts: sentences, extensions and settings were replaced, input was read,
passes were opened, streams were added to them and pulled in any order, nodes and their descriptions were looked
up, and phrase functions may have given up at any time.

- The numbers of all nodes of sentences, extensions and descriptions made so far differ, and lie below the next one.
- What is kept for an element is what a call for it answered. A call that had an answer was the last one for the
  element, and its answer is kept; an element has no description just as long as all calls for it have failed. And
  whoever has the number that a call was made for is the element it was made for.
- Whatever is done next, what is kept for an element stays, with all its numbers, and later calls are only for
  elements that had nothing. Trees with numbers given out so far are those there were, as they were.
- A pull on a stream changes nothing but the store. What it calls for belongs to elements that there are, and that it
  has just visited and entered, on a path that lets it and where nothing stands in for the phrase; and what is new
  in the store was called for by it. -/
theorem descriptions_are_kept (book : Phrasebook n) (describer : Describer n) (settings : Settings)
    (acts : List (Act n)) :
    let desk := (Desk.ofSettings book describer settings).performAll acts
    let session := desk.session
    let store := session.store
    (session.uids.Nodup ∧ ∀ uid ∈ session.uids, uid < store.next) ∧
    ((∀ uid tree, store.description? uid = some tree → ∃ index e, store.calls[index]? = some ⟨uid, e⟩ ∧
        (describer index e.phrase e.props).tree = .ok tree.node) ∧
      (∀ index uid e node, store.calls[index]? = some ⟨uid, e⟩ →
        (describer index e.phrase e.props).tree = .ok node →
        (∃ tree, store.description? uid = some tree ∧ tree.node = node) ∧
        ∀ later call, store.calls[later]? = some call → call.uid = uid → later ≤ index) ∧
      (∀ uid, store.description? uid = none ↔ ∀ index e, store.calls[index]? = some ⟨uid, e⟩ →
        ∃ f, (describer index e.phrase e.props).tree = .error f) ∧
      ∀ call ∈ store.calls, ∀ part ∈ session.parts, part.uid = call.uid →
        ∃ label, part = .element call.uid label call.element) ∧
    (∀ later, let after := (desk.performAll later).session
      (∀ uid tree, store.description? uid = some tree → after.store.description? uid = some tree) ∧
      (∃ more, after.store.calls = store.calls ++ more ∧ ∀ call ∈ more, store.description? call.uid = none) ∧
      ∀ tree ∈ after.trees, tree.uid < store.next → tree ∈ session.trees) ∧
    ∀ pass place streams inquiry, desk.passes[pass]? = some streams → streams.inquiries[place]? = some inquiry →
      let course := inquiry.pull describer store
      let after := (desk.pull pass place).2.session
      after.store = course.store ∧ after.trees = session.trees ∧ ∃ more, course.store.calls = store.calls ++ more ∧
        (∀ uid, after.store.description? uid ≠ none → store.description? uid = none →
          ∃ call ∈ more, call.uid = uid) ∧
        ∀ call ∈ more, session.context.Entered after.parts course.events call := by
  intro desk session store
  obtain ⟨hkeeps, htended⟩ := Desk.advances_performAll (Desk.tended_ofSettings book describer settings) acts
  have hdescriber : session.describer = describer := hkeeps.describer
  have hdistinct : store.Distinct session.trees := htended.sound.distinct
  have hlogged : store.Logged describer := hdescriber ▸ htended.sound.logged
  refine ⟨⟨hdistinct.nodup, fun uid huid => ?_⟩, ⟨fun uid tree hkept => ?_, fun index uid e node hcall hanswer => ?_,
    fun uid => hlogged.description?_eq_none_iff, hdistinct.element⟩, fun later => ?_,
    fun pass place streams inquiry hstreams hinquiry => ?_⟩
  · obtain ⟨part, hpart, rfl⟩ := List.mem_map.1 huid
    exact hdistinct.lt_next part hpart
  · exact hlogged.answered uid tree ((Store.description?_eq_some hlogged.nodup).1 hkept)
  · obtain ⟨⟨tree, hkept, hnode⟩, hlast⟩ := hlogged.last index uid e node hcall hanswer
    exact ⟨⟨tree, (Store.description?_eq_some hlogged.nodup).2 hkept, hnode⟩, hlast⟩
  · obtain ⟨hlater, htended'⟩ := Desk.advances_performAll htended later
    obtain ⟨more, hmore, hnot⟩ := hlater.calls
    exact ⟨fun uid tree => hlater.description? htended.sound htended'.sound,
      ⟨more, hmore, fun call hcall => Store.description?_eq_none.2 (hnot call hcall)⟩, hlater.trees⟩
  · have hpull := htended.pull hstreams hinquiry
    rw [show desk.session.describer = describer from hdescriber] at hpull
    exact hpull

/-- A phrase whose first description is missing. -/
def moodyDescriber : Describer 1 := fun call _ _ =>
  if call = 0 then ⟨2, .error ⟨"not yet"⟩⟩ else ⟨0, .ok (.text (if call = 1 then "c" else "bc"))⟩

/-- Two ways to read what comes before ask for one description. The first call gives up, the second one is
answered, and no third call is made. -/
example :
    let book : Phrasebook 1 := fun _ => ⟨"Mood", fun _ => .ok (.text "?"), none, fun _ _ => .ok true, [], []⟩
    let before : Node 1 := .choice none [.text "a", .text "ab"]
    let acts : List (Act 1) := [.request (.setSentences [.sequence none [before, .element none ⟨0, []⟩]]),
      .request (.parse "abc".toList), .request (.parse "abc".toList), .request (.parse "abc".toList)]
    let session := ((Desk.ofSettings book moodyDescriber {}).performAll acts).session
    session.store.calls.map (·.uid) = [3, 3] ∧
      session.store.cells.map (fun cell => (cell.1, cell.2.uids)) = [(3, [7])] ∧
      session.uids = [7, 0, 1, 2, 3, 4] := by
  decide +kernel

end Typeahead.Numbered
