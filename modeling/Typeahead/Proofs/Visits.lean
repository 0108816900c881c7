import Typeahead.Proofs.Interleaving
import Typeahead.Proofs.Overrides

/-!
# The nodes a pass visits

A pass may be asked to read inputs as its sentences or as any other nodes, and the streams for this may be
pulled in any order and left at any point. Whatever is pulled, the events come in an order in which every node
is visited on account of a node visited before (`Streams.InOrder.eventsOf`). So the marks of the pass are on
nodes that descend from what was asked by way of marked nodes (`Session.Descends`), and on all other nodes are
the marks of earlier passes. Main statement: `fresh_nodes_of_pass`.
-/

namespace Typeahead

variable {n : Nat}

/-! ## Pulls in order -/

namespace Streams

variable {ok : List Event → Event → Prop} {past : List Event}

/-- **One pull** does what comes up to the next output of its stream, and leaves there what comes after it,
or nothing. -/
theorem exists_pull_eq (streams : Streams) (place : Nat) :
    ∃ rest, (streams.pull place).2 = ⟨streams.runs.set place rest,
        (streams.runAt place).eventsToNext.foldl Progress.record streams.progress⟩ ∧
      (rest = .done ∨ ∃ out, ((streams.runAt place).pull streams.progress).1 = .output out rest) := by
  rw [← Run.pull_progress]
  cases hrun : streams.runs[place]? with
  | none =>
    have hover := List.set_eq_of_length_le (a := .done) (List.getElem?_eq_none_iff.1 hrun)
    simp [Streams.pull, runAt, hrun, Run.pull, hover]
  | some run =>
    have hat : streams.runAt place = run := by simp [runAt, List.getD_eq_getElem?_getD, hrun]
    rw [hat]
    unfold Streams.pull
    rw [hrun]
    dsimp only
    split
    · next out rest progress hpull => exact ⟨rest, by rw [hpull], .inr ⟨out, by rw [hpull]⟩⟩
    · next progress hpull => exact ⟨.done, by rw [hpull], .inl rfl⟩
    · next f progress hpull => exact ⟨.done, by rw [hpull], .inl rfl⟩

theorem progress_pull (streams : Streams) (place : Nat) :
    (streams.pull place).2.progress =
      (streams.runAt place).eventsToNext.foldl Progress.record streams.progress := by
  obtain ⟨rest, hpull, -⟩ := streams.exists_pull_eq place
  rw [hpull]

/-- What happens in pulls in the order of a list of places. -/
def eventsOf (streams : Streams) : List Nat → List Event
  | [] => []
  | place :: later => (streams.runAt place).eventsToNext ++ (streams.pull place).2.eventsOf later

theorem progress_pullAll (streams : Streams) (schedule : List Nat) :
    (streams.pullAll schedule).2.progress =
      (streams.eventsOf schedule).foldl Progress.record streams.progress := by
  induction schedule generalizing streams with
  | nil => rfl
  | cons place later ih =>
    rw [eventsOf, List.foldl_append, ← progress_pull]
    exact ih (streams.pull place).2

/-- All streams are in order, whatever happens before they are pulled. -/
def InOrder (ok : List Event → Event → Prop) (past : List Event) (streams : Streams) : Prop :=
  ∀ run ∈ streams.runs, ∀ later, past <:+ later → run.InOrder ok later

theorem InOrder.after {streams : Streams} (h : streams.InOrder ok past) {later : List Event}
    (hlater : past <:+ later) : streams.InOrder ok later :=
  fun run hrun last hlast => h run hrun last (hlater.trans hlast)

theorem InOrder.imp {ok' : List Event → Event → Prop} {streams : Streams} (h : streams.InOrder ok past)
    (himp : ∀ past e, ok past e → ok' past e) : streams.InOrder ok' past :=
  fun run hrun later hlater => (h run hrun later hlater).imp himp

theorem InOrder.runAt {streams : Streams} (h : streams.InOrder ok past) (place : Nat) :
    (streams.runAt place).InOrder ok past := by
  rw [Streams.runAt, List.getD_eq_getElem?_getD]
  cases hrun : streams.runs[place]? with
  | none => trivial
  | some run => exact h run (List.mem_of_getElem? hrun) past (List.suffix_refl past)

/-- **A pull on streams in order** does what is in order, and leaves streams in order. -/
theorem InOrder.pull {streams : Streams} (h : streams.InOrder ok past) (place : Nat) :
    Ordered ok past (streams.runAt place).eventsToNext ∧
      (streams.pull place).2.InOrder ok ((streams.runAt place).eventsToNext.reverse ++ past) := by
  obtain ⟨hevents, hafter⟩ := (h.runAt place).pull streams.progress
  obtain ⟨rest, hpull, hrest⟩ := streams.exists_pull_eq place
  refine ⟨hevents, ?_⟩
  rw [hpull]
  intro run hrun later hlater
  rcases List.mem_or_eq_of_mem_set hrun with hother | rfl
  · exact h run hother later ((List.suffix_append _ past).trans hlater)
  · rcases hrest with rfl | ⟨out, hout⟩
    · trivial
    · exact hafter out run hout later hlater

/-- **All that happens in pulls** on streams in order is in order, however the pulls are mixed. -/
theorem InOrder.eventsOf {streams : Streams} (h : streams.InOrder ok past) (schedule : List Nat) :
    Ordered ok past (streams.eventsOf schedule) := by
  induction schedule generalizing streams past with
  | nil => trivial
  | cons place later ih =>
    obtain ⟨hevents, hafter⟩ := h.pull place
    exact ordered_append.2 ⟨hevents, ih hafter⟩

end Streams

/-! ## What a pass may be asked -/

/-- Something asked of a pass: to read input as its sentences, or as a node. -/
inductive Ask (n : Nat) where
  | parse (input : Text)
  | resolve (root : Placed n) (input : Text)

namespace Pass

variable {pass : Pass n} {roots : List (Placed n)}

def rootsOf (pass : Pass n) : Ask n → List (Placed n)
  | .parse _ => pass.sentences
  | .resolve root _ => [root]

/-- The stream for what is asked. -/
def answer (pass : Pass n) : Ask n → Run Output
  | .parse input => pass.stream input
  | .resolve root input => pass.context.resolve root input

/-- What may happen while a pass reads some roots: what arises while they are read, and that a reading is
handed out. -/
def Allows (pass : Pass n) (roots : List (Placed n)) (past : List Event) (e : Event) : Prop :=
  e = .emit ∨ pass.context.Arises [] roots past e

theorem Allows.of_roots_subset {roots' : List (Placed n)} {past : List Event} {e : Event}
    (h : pass.Allows roots past e) (hroots : roots ⊆ roots') : pass.Allows roots' past e := by
  rcases h with hemit | ⟨path, placed, hreached, hhappens⟩
  · exact .inl hemit
  · exact .inr ⟨path, placed, hreached.of_roots_subset hroots, hhappens⟩

theorem inOrder_resolve {root : Placed n} (h : root ∈ roots) (input : Text) (past : List Event) :
    (pass.context.resolve root input).InOrder (pass.Allows roots) past :=
  (pass.context.inOrder_resolveTraced [] h input past).imp fun _ _ => .inr

theorem inOrder_stream (h : pass.sentences ⊆ roots) (input : Text) (past : List Event) :
    (pass.stream input).InOrder (pass.Allows roots) past := by
  have hunlimited : (pass.unlimited input).InOrder (pass.Allows roots) past := by
    refine Run.InOrder.bind (Run.inOrder_ofList fun sentence hsentence later _ => ?_) fun out later _ => ?_
    · exact inOrder_resolve (h hsentence) input later
    · unfold handOut
      split
      · exact ⟨.inl rfl, Run.inOrder_pure out⟩
      · trivial
  unfold Pass.stream
  split
  · exact hunlimited.take _
  · exact hunlimited

theorem inOrder_answer {ask : Ask n} (h : pass.rootsOf ask ⊆ roots) (past : List Event) :
    (pass.answer ask).InOrder (pass.Allows roots) past := by
  cases ask with
  | parse input => exact inOrder_stream h input past
  | resolve root input => exact inOrder_resolve (h (List.mem_singleton_self root)) input past

end Pass

/-- A stream for each thing asked; nothing is read yet. -/
def Streams.ofAsks (pass : Pass n) (asks : List (Ask n)) : Streams := ⟨asks.map pass.answer, pass.progress⟩

theorem Streams.inOrder_ofAsks (pass : Pass n) (asks : List (Ask n)) (past : List Event) :
    (ofAsks pass asks).InOrder (pass.Allows (asks.flatMap pass.rootsOf)) past := by
  intro run hrun later _
  obtain ⟨ask, hask, rfl⟩ := List.mem_map.1 hrun
  exact Pass.inOrder_answer (fun root hroot => List.mem_flatMap.2 ⟨ask, hask, hroot⟩) later

/-! ## Where visited nodes come from -/

namespace Session

variable {session : Session n}

def trees (session : Session n) : List (Placed n) := session.sentences ++ session.extensions.map (·.placed)

/-- What a pass comes to from what it is asked, by way of nodes it has seen: what is asked itself; from a
sequence or choice a child; from an element that nothing stands in for its description; and from any element an
extension that adds to its phrase or stands in for it. -/
inductive Descends (session : Session n) (asked : List (Placed n)) (seen : Address → Prop) : Placed n → Prop
  | asked {placed : Placed n} : placed ∈ asked → Descends session asked seen placed
  | child {placed : Placed n} {index : Nat} {child : Node n} : Descends session asked seen placed →
      seen placed.address → placed.node.children[index]? = some child →
      Descends session asked seen ⟨placed.address.child index, child⟩
  | description {here : Address} {label : Option String} {e : Element n} {description : Node n} :
      Descends session asked seen ⟨here, .element label e⟩ → seen here →
      session.registry.override? (session.phrases e.phrase).identity = none →
      (session.phrases e.phrase).describe e.props = .ok description →
      Descends session asked seen ⟨here.description, description⟩
  | extension {here : Address} {label : Option String} {e : Element n} {extension : Extension n} :
      Descends session asked seen ⟨here, .element label e⟩ → seen here → extension ∈ session.extensions →
      (session.phrases e.phrase).identity ∈
        (session.phrases extension.phrase).supplements ++ (session.phrases extension.phrase).overrides →
      Descends session asked seen extension.placed

variable {asked trees : List (Placed n)} {seen : Address → Prop}

/-- What is added to a phrase of the session is the element of an extension that names its identity. -/
theorem exists_extension_of_supplement {identity : String} {placed : Placed n}
    (h : placed ∈ session.registry.supplementsFor identity) :
    ∃ extension ∈ session.extensions, placed = extension.placed ∧
      identity ∈ (session.phrases extension.phrase).supplements := by
  obtain ⟨hmem, hnames⟩ := Registry.mem_supplementsFor.1 h
  obtain ⟨extension, hextension, rfl⟩ := List.mem_map.1 hmem
  exact ⟨extension, hextension, rfl, hnames⟩

/-- What stands in for a phrase of the session is the element of an extension that names its identity. -/
theorem exists_extension_of_override {identity : String} {placed : Placed n}
    (h : session.registry.override? identity = some placed) :
    ∃ extension ∈ session.extensions, placed = extension.placed ∧
      identity ∈ (session.phrases extension.phrase).overrides := by
  obtain ⟨hmem, hnames⟩ := Registry.names_of_override?_eq_some h
  obtain ⟨extension, hextension, rfl⟩ := List.mem_map.1 hmem
  exact ⟨extension, hextension, rfl, hnames⟩

/-- What reading has come to descends from the roots by way of what was visited. -/
theorem descends_of_reached {past : List Event} (hseen : ∀ address, .visit address ∈ past → seen address)
    {path : Trace} {placed : Placed n} (h : session.pass.context.Reached [] asked past path placed) :
    session.Descends asked seen placed := by
  induction h with
  | root hroot => exact .asked hroot
  | lead _ hvisit hleads ih =>
    have hparent := hseen _ hvisit
    cases hleads with
    | child hchild => exact .child ih hparent hchild
    | override _ hoverride =>
      obtain ⟨extension, hextension, rfl, hnames⟩ := exists_extension_of_override hoverride
      exact .extension ih hparent hextension (List.mem_append_right _ hnames)
    | description _ hnone hdescribe _ => exact .description ih hparent hnone hdescribe
    | supplement _ _ hmem =>
      obtain ⟨extension, hextension, rfl, hnames⟩ := exists_extension_of_supplement hmem
      exact .extension ih hparent hextension (List.mem_append_left _ hnames)

/-- What descends from nodes of the trees is in the trees. -/
theorem Descends.within (hasked : ∀ root ∈ asked, Within session.phrases trees root)
    (hextensions : ∀ extension ∈ session.extensions, extension.placed ∈ trees) {placed : Placed n}
    (h : session.Descends asked seen placed) : Within session.phrases trees placed := by
  induction h with
  | asked hroot => exact hasked _ hroot
  | child _ _ hchild ih => exact .child ih hchild
  | description _ _ _ hdescribe ih => exact .description ih hdescribe
  | extension _ _ hextension _ _ => exact .root (hextensions _ hextension)

/-- **Every visited node** descends from what was asked by way of visited nodes. -/
theorem exists_descends_of_visit {events : List Event} (h : Ordered (session.pass.Allows asked) [] events)
    {address : Address} (hvisit : .visit address ∈ events) :
    ∃ placed, placed.address = address ∧ session.Descends asked (.visit · ∈ events) placed := by
  obtain ⟨before, later, rfl⟩ := List.append_of_mem hvisit
  rcases h.at with hemit | ⟨path, placed, hreached, hhappens⟩
  · cases hemit
  · refine ⟨placed, hhappens.address_of_visit, descends_of_reached (fun other hother => ?_) hreached⟩
    rw [List.append_nil, List.mem_reverse] at hother
    exact List.mem_append_left _ hother

/-! ## Marks and counts of a pass -/

/-- **The counts of a pass**: of all visits, and of the nodes visited. -/
theorem Sound.counts_pass (h : session.Sound) (events : List Event) :
    let after := events.foldl Progress.record session.pass.progress
    after.freshness.visitedCount = (visits events).dedup.length ∧
      after.metrics.nodes = (visits events).length ∧ after.freshness.visitedCount ≤ after.metrics.nodes := by
  intro after
  have hcount : after.freshness.visitedCount = (visits events).dedup.length :=
    h.begun_pass.visitedCount_foldl h.freshness.beginPass events
  have hnodes : after.metrics.nodes = (visits events).length := by
    rw [(h.begun_pass.foldl events).1, Metrics.nodes_ofEvents]
  refine ⟨hcount, hnodes, ?_⟩
  rw [hcount, hnodes]
  exact (List.dedup_sublist _).length_le

/-- **A node that is not visited in a pass** keeps its mark, which is of an earlier epoch. -/
theorem Sound.lastVisited?_pass (h : session.Sound) {events : List Event} {address : Address}
    (hnot : .visit address ∉ events) :
    let after := events.foldl Progress.record session.pass.progress
    after.freshness.lastVisited? address = session.freshness.lastVisited? address ∧
      ∀ epoch, after.freshness.lastVisited? address = some epoch → epoch < after.freshness.epoch := by
  intro after
  have hkept : after.freshness.lastVisited? address = session.freshness.lastVisited? address := by
    rw [Progress.lastVisited?_foldl, if_neg hnot]
    rfl
  refine ⟨hkept, fun epoch hepoch => ?_⟩
  rw [hkept, h.freshness.lastVisited?_eq_some] at hepoch
  rw [Progress.epoch_foldl]
  exact Nat.lt_succ_of_le (h.freshness.le_epoch _ hepoch)

end Session

/-- **The fresh nodes of a pass.** Take a session with any history, a new pass, and any pulls on streams of this
pass, in any order, for inputs read as the sentences or as other nodes. These may be anywhere in the trees of
the session, or in further trees with root numbers of their own. Creating a stream does nothing, so it makes no
difference when that is done. Phrase functions may give up.

- The fresh nodes are exactly those visited in these pulls.
- Their number is the visited count, and is at most the count of all visits.
- Every fresh node is one of the trees, and descends from what was asked by way of fresh nodes.
- Every other node keeps the mark it had before the pass, if any; its epoch is below the current one. -/
theorem fresh_nodes_of_pass (book : Phrasebook n) (settings : Settings) (requests : List (Request n))
    (asks : List (Ask n)) (schedule : List Nat) (further : List (Placed n)) :
    let session := ((Desk.ofSettings book settings).handleAll requests).session
    let pass := session.pass
    let trees := session.trees ++ further
    let asked := asks.flatMap pass.rootsOf
    let streams := Streams.ofAsks pass asks
    let events := streams.eventsOf schedule
    let after := (streams.pullAll schedule).2.progress
    Rooted trees → (∀ root ∈ asked, Within book trees root) →
    (∀ address, after.freshness.isFresh address = true ↔ .visit address ∈ events) ∧
    (after.freshness.visitedCount = (visits events).dedup.length ∧
      after.metrics.nodes = (visits events).length ∧ after.freshness.visitedCount ≤ after.metrics.nodes) ∧
    ((∀ address, after.freshness.isFresh address = true →
        ∃ placed, placed.address = address ∧ Within book trees placed) ∧
      ∀ placed, Within book trees placed → after.freshness.isFresh placed.address = true →
        session.Descends asked (after.freshness.isFresh · = true) placed) ∧
    ∀ address, after.freshness.isFresh address = false →
      after.freshness.lastVisited? address = session.freshness.lastVisited? address ∧
      ∀ epoch, after.freshness.lastVisited? address = some epoch → epoch < after.freshness.epoch := by
  intro session pass trees asked streams events after hrooted hasked
  have hnew : (Desk.ofSettings book settings).session.Sound := Session.sound_new book settings
  have hsound : session.Sound := Desk.sound_handleAll hnew requests
  have hbook : session.phrases = book := (Desk.configuration_handleAll hnew requests).1
  have hafter : after = events.foldl Progress.record session.pass.progress := streams.progress_pullAll schedule
  have hfresh : ∀ address, after.freshness.isFresh address = true ↔ .visit address ∈ events := by
    rw [hafter]
    exact (hsound.begun_pass.foldl events).2
  -- every visit is on account of an earlier one
  have hdescends (address : Address) (haddress : after.freshness.isFresh address = true) :
      ∃ placed, placed.address = address ∧
        session.Descends asked (after.freshness.isFresh · = true) placed ∧ Within book trees placed := by
    have hordered := (Streams.inOrder_ofAsks pass asks []).eventsOf schedule
    obtain ⟨placed, hplaced, hdescends⟩ := Session.exists_descends_of_visit hordered ((hfresh address).1 haddress)
    refine ⟨placed, hplaced, ?_, ?_⟩
    · simpa only [hfresh] using hdescends
    · rw [← hbook] at hasked ⊢
      refine hdescends.within hasked fun extension hextension => ?_
      exact List.mem_append_left _ (List.mem_append_right _ (List.mem_map_of_mem hextension))
  refine ⟨hfresh, ?_, ⟨fun address haddress => ?_, fun placed hplaced hisFresh => ?_⟩, fun address hstale => ?_⟩
  · rw [hafter]
    exact hsound.counts_pass events
  · obtain ⟨placed, hplaced, -, hwithin⟩ := hdescends address haddress
    exact ⟨placed, hplaced, hwithin⟩
  · obtain ⟨other, hother, hdescends, hwithin⟩ := hdescends placed.address hisFresh
    cases hwithin.unique hrooted hplaced hother
    exact hdescends
  · have hnot : .visit address ∉ events := by simp [← hfresh, hstale]
    rw [hafter]
    exact hsound.lastVisited?_pass hnot

/-- "paint" and a colour, and a second sentence that was marked in an earlier epoch. A stream for the word
"paint" and one for both sentences are pulled once each: dye is visited as it stands in for colours, "paint" is
visited twice, and the second sentence keeps the mark of the first epoch. -/
theorem dye_pass_marks :
    let requests : List (Request 3) :=
      [.setSentences [(dyeRoot []).node, .text "print"], .setExtensions [1, 2], .beginEpoch, .mark ⟨1, []⟩]
    let session := ((Desk.ofSettings (dyeBook false) {}).handleAll requests).session
    let asks : List (Ask 3) :=
      [.parse "paint r".toList, .resolve ⟨⟨0, [.child 0]⟩, .text "paint "⟩ "pa".toList]
    let after := ((Streams.ofAsks session.pass asks).pullAll [1, 0]).2.progress
    after.freshness.visitedCount = 9 ∧ after.metrics.nodes = 10 ∧
    session.Descends (asks.flatMap session.pass.rootsOf) (after.freshness.isFresh · = true)
      ⟨⟨3, []⟩, .element none ⟨2, []⟩⟩ ∧
    after.freshness.lastVisited? ⟨1, []⟩ = some 1 ∧ 1 < after.freshness.epoch := by
  intro requests session asks after
  have hsentences : session.sentences = [dyeRoot [], ⟨⟨1, []⟩, .text "print"⟩] := rfl
  have hextensions : session.extensions = [⟨2, 1⟩, ⟨3, 2⟩] := rfl
  have hrooted : Rooted (session.trees ++ []) := by
    rw [Session.trees, hsentences, hextensions]
    exact ⟨by decide, by simp [dyeRoot, Extension.placed]⟩
  have hpaint : Within (dyeBook false) (session.trees ++ []) (dyeRoot []) := .root List.mem_cons_self
  have hasked : ∀ root ∈ asks.flatMap session.pass.rootsOf, Within (dyeBook false) (session.trees ++ []) root := by
    have hroots : asks.flatMap session.pass.rootsOf =
        [dyeRoot [], ⟨⟨1, []⟩, .text "print"⟩, ⟨⟨0, [.child 0]⟩, .text "paint "⟩] := rfl
    rw [hroots]
    simp only [List.forall_mem_cons]
    refine ⟨hpaint, ?_, ?_, nofun⟩
    · exact .root (List.mem_cons_of_mem _ List.mem_cons_self)
    · exact .child hpaint rfl
  have hdye : Within (dyeBook false) (session.trees ++ []) ⟨⟨3, []⟩, .element none ⟨2, []⟩⟩ :=
    .root (List.mem_cons_of_mem _ (List.mem_cons_of_mem _ (List.mem_cons_of_mem _ List.mem_cons_self)))
  obtain ⟨-, ⟨hcount, hnodes, -⟩, ⟨-, hdescends⟩, hstale⟩ :=
    fresh_nodes_of_pass (dyeBook false) {} requests asks [1, 0] [] hrooted hasked
  have hprint := hstale ⟨1, []⟩ (by decide +kernel)
  have hmark := hprint.1.trans (by decide +kernel : _ = some 1)
  -- spelled out, the goal is about the same terms as the facts
  dsimp only [after, session]
  refine ⟨hcount.trans (by decide +kernel), hnodes.trans (by decide +kernel), ?_, hmark, hprint.2 1 hmark⟩
  exact hdescends _ hdye (by decide +kernel)

end Typeahead
