import Typeahead.Proofs.Reading

/-!
# The course of a reading

What happens while a node is read, said once for all uses. From a node, reading goes on to its children, to
what stands in for an element, to the description of an element once that was called for, and to what is added
to it (`Leads`); it does so only after the node was visited, so the nodes that reading can come to depend on
what has happened (`Reached`). At such a node only a few things can happen, and most of them right after
others (`Happens`). Main statement: every event of a reading arises so, whatever happened before
(`inOrder_resolveTraced`). What is to hold of every event of a reading is then read off these two relations.
-/

namespace Typeahead

variable {n : Nat}

/-! ## Events in order -/

/-- Events in order, one after the other, given what happened before them. -/
def Ordered (ok : List Event → Event → Prop) : List Event → List Event → Prop
  | _, [] => True
  | past, e :: later => ok past e ∧ Ordered ok (e :: past) later

theorem ordered_append {ok : List Event → Event → Prop} {past first second : List Event} :
    Ordered ok past (first ++ second) ↔
      Ordered ok past first ∧ Ordered ok (first.reverse ++ past) second := by
  induction first generalizing past with
  | nil => simp [Ordered]
  | cons e first ih => simp [Ordered, ih, and_assoc]

/-- An event in order, with all that happened before it. -/
theorem Ordered.at {ok : List Event → Event → Prop} {past before later : List Event} {e : Event}
    (h : Ordered ok past (before ++ e :: later)) : ok (before.reverse ++ past) e :=
  (ordered_append.1 h).2.1

namespace Run

variable {α β : Type} {ok : List Event → Event → Prop} {past : List Event}

/-- Every event of a run is in order, given what happened before it, latest first. After an output, anything
may happen before the run goes on. -/
def InOrder (ok : List Event → Event → Prop) : List Event → Run α → Prop
  | _, .done => True
  | _, .fault _ => True
  | past, .event e rest => ok past e ∧ InOrder ok (e :: past) (rest ())
  | past, .output _ rest => ∀ later, past <:+ later → InOrder ok later (rest ())

theorem inOrder_pure (a : α) : (pure a).InOrder ok past := fun _ _ => trivial

theorem inOrder_ofOption (option : Option α) : (ofOption option).InOrder ok past := by
  cases option with
  | none => trivial
  | some a => exact inOrder_pure a

namespace InOrder

variable {run : Run α}

theorem append (h : run.InOrder ok past) {next : Unit → Run α}
    (hnext : ∀ later, past <:+ later → (next ()).InOrder ok later) : (run.append next).InOrder ok past := by
  induction run generalizing past with
  | done => exact hnext past (List.suffix_refl past)
  | fault f => trivial
  | event e rest ih =>
    refine ⟨h.1, ih () h.2 fun later hlater => ?_⟩
    exact hnext later ((List.suffix_cons e past).trans hlater)
  | output a rest ih =>
    intro later hlater
    exact ih () (h later hlater) fun last hlast => hnext last (hlater.trans hlast)

theorem bind (h : run.InOrder ok past) {k : α → Run β}
    (hk : ∀ a later, past <:+ later → (k a).InOrder ok later) : (run.bind k).InOrder ok past := by
  induction run generalizing past with
  | done => trivial
  | fault f => trivial
  | event e rest ih =>
    refine ⟨h.1, ih () h.2 fun a later hlater => ?_⟩
    exact hk a later ((List.suffix_cons e past).trans hlater)
  -- what is done with an output comes between it and the rest of the run
  | output a rest ih =>
    refine (hk a past (List.suffix_refl past)).append fun later hlater => ?_
    exact ih () (h later hlater) fun b last hlast => hk b last (hlater.trans hlast)

theorem map (h : run.InOrder ok past) (f : α → β) : (run.map f).InOrder ok past := by
  induction run generalizing past with
  | done => trivial
  | fault f => trivial
  | event e rest ih => exact ⟨h.1, ih () h.2⟩
  | output a rest ih =>
    intro later hlater
    exact ih () (h later hlater)

theorem take (h : run.InOrder ok past) (count : Nat) : (run.take count).InOrder ok past := by
  induction run generalizing past count with
  | done => cases count <;> trivial
  | fault f => cases count <;> trivial
  | event e rest ih =>
    cases count with
    | zero => trivial
    | succ count => exact ⟨h.1, ih () h.2 (count + 1)⟩
  | output a rest ih =>
    cases count with
    | zero => trivial
    | succ count =>
      intro later hlater
      exact ih () (h later hlater) count

theorem imp {ok' : List Event → Event → Prop} (h : run.InOrder ok past) (himp : ∀ past e, ok past e → ok' past e) :
    run.InOrder ok' past := by
  induction run generalizing past with
  | done => trivial
  | fault f => trivial
  | event e rest ih => exact ⟨himp past e h.1, ih () h.2⟩
  | output a rest ih =>
    intro later hlater
    exact ih () (h later hlater)

/-- What follows of an event wherever it is in order holds throughout the run. -/
theorem always {event : Event → Prop} (h : run.InOrder ok past) (himp : ∀ past e, ok past e → event e) :
    run.Always event (fun _ => True) fun _ => True := by
  induction run generalizing past with
  | done => trivial
  | fault f => trivial
  | event e rest ih => exact ⟨himp past e h.1, ih () h.2⟩
  | output a rest ih => exact ⟨trivial, ih () (h past (List.suffix_refl past))⟩

/-- All events of a run in order are in order, if nothing happens in between. -/
theorem events (h : run.InOrder ok past) : Ordered ok past run.events := by
  induction run generalizing past with
  | done => trivial
  | fault f => trivial
  | event e rest ih => exact ⟨h.1, ih () h.2⟩
  | output a rest ih => exact ih () (h past (List.suffix_refl past))

end InOrder

theorem inOrder_ofList {items : List β} {run : β → Run α}
    (h : ∀ item ∈ items, ∀ later, past <:+ later → (run item).InOrder ok later) :
    (ofList items run).InOrder ok past := by
  induction items generalizing past with
  | nil => trivial
  | cons item rest ih =>
    rw [List.forall_mem_cons] at h
    refine (h.1 past (List.suffix_refl past)).append fun later hlater => ih fun other hother last hlast => ?_
    exact h.2 other hother last (hlater.trans hlast)

end Run

/-! ## Pulling on a run in order -/

namespace Run

variable {α : Type} {ok : List Event → Event → Prop} {past : List Event}

/-- What happens in one pull: all events up to the next output, or to the end. -/
def eventsToNext : Run α → List Event
  | .done => []
  | .fault _ => []
  | .event e rest => e :: (rest ()).eventsToNext
  | .output _ _ => []

theorem pull_progress (run : Run α) (progress : Progress) :
    (run.pull progress).2 = run.eventsToNext.foldl Progress.record progress := by
  induction run generalizing progress with
  | done => rfl
  | fault f => rfl
  | event e rest ih => exact ih () (progress.record e)
  | output a rest ih => rfl

/-- **A pull on a run in order** does what is in order, and leaves a run that is in order whatever happens
before the next pull. -/
theorem InOrder.pull {run : Run α} (h : run.InOrder ok past) (progress : Progress) :
    Ordered ok past run.eventsToNext ∧
      ∀ a rest, (run.pull progress).1 = .output a rest →
        ∀ later, run.eventsToNext.reverse ++ past <:+ later → rest.InOrder ok later := by
  induction run generalizing past progress with
  | done => exact ⟨trivial, nofun⟩
  | fault f => exact ⟨trivial, nofun⟩
  | event e rest ih =>
    obtain ⟨hevents, hrest⟩ := ih () h.2 (progress.record e)
    refine ⟨⟨h.1, hevents⟩, fun a last hpull later hlater => hrest a last hpull later ?_⟩
    simpa [eventsToNext] using hlater
  | output a rest ih =>
    refine ⟨trivial, fun b last hpull later hlater => ?_⟩
    cases hpull
    exact h later hlater

end Run

/-! ## Where reading goes, and what happens there -/

namespace Context

variable (ctx : Context n)

/-- Where reading goes on from a node, on a path: to a child; or, if the path lets an element be entered, to
what stands in for it, or else to its description, which was called for, and to what is added to it. -/
inductive Leads (past : List Event) : Trace → Placed n → Trace → Placed n → Prop
  | child {path : Trace} {placed : Placed n} {index : Nat} {child : Node n} :
      placed.node.children[index]? = some child →
      Leads past path placed path ⟨placed.address.child index, child⟩
  | override {path : Trace} {here : Address} {label : Option String} {e : Element n} {input : Text}
      {replacement : Placed n} : path.admits (ctx.frame e.phrase input) = true →
      ctx.registry.override? (ctx.phrases e.phrase).identity = some replacement →
      Leads past path ⟨here, .element label e⟩ (ctx.frame e.phrase input :: path) replacement
  | description {path : Trace} {here : Address} {label : Option String} {e : Element n} {input : Text}
      {description : Node n} : path.admits (ctx.frame e.phrase input) = true →
      ctx.registry.override? (ctx.phrases e.phrase).identity = none →
      (ctx.phrases e.phrase).describe e.props = .ok description → .describe here ∈ past →
      Leads past path ⟨here, .element label e⟩ (ctx.frame e.phrase input :: path) ⟨here.description, description⟩
  | supplement {path : Trace} {here : Address} {label : Option String} {e : Element n} {input : Text}
      {supplement : Placed n} : path.admits (ctx.frame e.phrase input) = true →
      ctx.registry.override? (ctx.phrases e.phrase).identity = none →
      supplement ∈ ctx.registry.supplementsFor (ctx.phrases e.phrase).identity →
      Leads past path ⟨here, .element label e⟩ (ctx.frame e.phrase input :: path) supplement

/-- The nodes that reading can have come to, with the paths on which it did: a root, on the path where reading
starts, and whatever a visited node leads to. -/
inductive Reached (start : Trace) (roots : List (Placed n)) (past : List Event) : Trace → Placed n → Prop
  | root {placed : Placed n} : placed ∈ roots → Reached start roots past start placed
  | lead {path path' : Trace} {placed placed' : Placed n} : Reached start roots past path placed →
      .visit placed.address ∈ past → ctx.Leads past path placed path' placed' →
      Reached start roots past path' placed'

/-- What can happen at a node, on a path, right after what happened before. -/
inductive Happens : Trace → Placed n → List Event → Event → Prop
  | visit (path : Trace) (placed : Placed n) (past : List Event) :
      Happens path placed past (.visit placed.address)
  | attempt (path : Trace) (placed : Placed n) (past : List Event) : Happens path placed past .attempt
  | prune {path : Trace} {here : Address} {label : Option String} {e : Element n} {input : Text}
      (past : List Event) : path.admits (ctx.frame e.phrase input) = false →
      Happens path ⟨here, .element label e⟩ past .prune
  | enter {path : Trace} {here : Address} {label : Option String} {e : Element n} {input : Text}
      (past : List Event) : path.admits (ctx.frame e.phrase input) = true →
      Happens path ⟨here, .element label e⟩ (.visit here :: past) (.enter (ctx.frame e.phrase input :: path))
  | describe {path : Trace} {here : Address} {label : Option String} {e : Element n} {input : Text}
      {description : Node n} (past : List Event) : path.admits (ctx.frame e.phrase input) = true →
      ctx.registry.override? (ctx.phrases e.phrase).identity = none →
      (ctx.phrases e.phrase).describe e.props = .ok description →
      Happens path ⟨here, .element label e⟩
        (.enter (ctx.frame e.phrase input :: path) :: .visit here :: past) (.describe here)
  | reject (path : Trace) (placed : Placed n) (past : List Event) : Happens path placed past .reject

/-- An event that can happen at a node that reading can have come to. -/
def Arises (start : Trace) (roots : List (Placed n)) (past : List Event) (e : Event) : Prop :=
  ∃ path placed, ctx.Reached start roots past path placed ∧ ctx.Happens path placed past e

variable {ctx} {start : Trace} {roots : List (Placed n)}

theorem Leads.later {past later : List Event} {path path' : Trace} {placed placed' : Placed n}
    (h : ctx.Leads past path placed path' placed') (hlater : past ⊆ later) :
    ctx.Leads later path placed path' placed' := by
  cases h with
  | child hchild => exact .child hchild
  | override hadmits hoverride => exact .override hadmits hoverride
  | description hadmits hnone hdescribe hpast => exact .description hadmits hnone hdescribe (hlater hpast)
  | supplement hadmits hnone hmem => exact .supplement hadmits hnone hmem

/-- What reading can have come to, it can have come to later on. -/
theorem Reached.later {past later : List Event} {path : Trace} {placed : Placed n}
    (h : ctx.Reached start roots past path placed) (hlater : past ⊆ later) :
    ctx.Reached start roots later path placed := by
  induction h with
  | root hroot => exact .root hroot
  | lead _ hvisit hleads ih => exact .lead ih (hlater hvisit) (hleads.later hlater)

theorem Reached.after {past later : List Event} {path : Trace} {placed : Placed n}
    (h : ctx.Reached start roots past path placed) (hlater : past <:+ later) :
    ctx.Reached start roots later path placed :=
  h.later hlater.subset

/-- What reading can have come to from some roots, it can have come to from more of them. -/
theorem Reached.of_roots_subset {roots' : List (Placed n)} {past : List Event} {path : Trace} {placed : Placed n}
    (h : ctx.Reached start roots past path placed) (hroots : roots ⊆ roots') :
    ctx.Reached start roots' past path placed := by
  induction h with
  | root hroot => exact .root (hroots hroot)
  | lead _ hvisit hleads ih => exact .lead ih hvisit hleads

theorem Happens.address_of_visit {past : List Event} {path : Trace} {placed : Placed n} {address : Address}
    (h : ctx.Happens path placed past (.visit address)) : placed.address = address := by
  cases h
  rfl

/-- A description is called for at an element that was just visited and entered, and that nothing stands in
for. -/
theorem Happens.of_describe {past : List Event} {path : Trace} {placed : Placed n} {here : Address}
    (h : ctx.Happens path placed past (.describe here)) :
    ∃ label e input description before, placed = ⟨here, .element label e⟩ ∧
      past = .enter (ctx.frame e.phrase input :: path) :: .visit here :: before ∧
      path.admits (ctx.frame e.phrase input) = true ∧
      ctx.registry.override? (ctx.phrases e.phrase).identity = none ∧
      (ctx.phrases e.phrase).describe e.props = .ok description := by
  cases h with
  | describe before hadmits hnone hdescribe => exact ⟨_, _, _, _, before, rfl, rfl, hadmits, hnone, hdescribe⟩

/-- A node that reading has come to is visited next. -/
theorem Reached.arises_visit {past : List Event} {path : Trace} {placed : Placed n}
    (h : ctx.Reached start roots past path placed) : ctx.Arises start roots past (.visit placed.address) :=
  ⟨path, placed, h, .visit path placed past⟩

/-- Once a node is visited, reading can come to its children at any time. -/
theorem Reached.child {past later : List Event} {path : Trace} {placed : Placed n} {index : Nat} {child : Node n}
    (h : ctx.Reached start roots past path placed) (hchild : placed.node.children[index]? = some child)
    (hlater : .visit placed.address :: past <:+ later) :
    ctx.Reached start roots later path ⟨placed.address.child index, child⟩ := by
  have hvisited : .visit placed.address ∈ later := hlater.subset (List.mem_cons_self ..)
  exact .lead (h.after ((List.suffix_cons _ past).trans hlater)) hvisited (.child hchild)

/-- **What reading can come to** has every property that the roots have and that goes over from a visited node
to what it leads to. -/
theorem Reached.invariant {past : List Event} (site : Trace → Placed n → Prop)
    (hroots : ∀ root ∈ roots, site start root)
    (hleads : ∀ {path placed path' placed'}, site path placed → ctx.Leads past path placed path' placed' →
      site path' placed')
    {path : Trace} {placed : Placed n} (h : ctx.Reached start roots past path placed) : site path placed := by
  induction h with
  | root hroot => exact hroots _ hroot
  | lead _ _ hlead ih => exact hleads ih hlead

/-! ## Every event arises so -/

theorem inOrder_putLabel {ok : List Event → Event → Prop} {past : List Event} {run : Run Output}
    (h : run.InOrder ok past) (label : Option String) : (putLabel label run).InOrder ok past := by
  cases label with
  | none => exact h
  | some name => exact h.map _

section

variable {leniency : Leniency} {expand : Expansion n} {trace : Trace} {ok : List Event → Event → Prop}
  {children : List (Node n)} {here : Address}

theorem inOrder_readSequence {past : List Event} {position : Nat}
    (hchildren : ∀ index child, children[index]? = some child → ∀ later, past <:+ later → ∀ input,
      (Node.read leniency expand child (here.child (position + index)) trace input).InOrder ok later)
    (acc : Output) : (Node.readSequence leniency expand children position here trace acc).InOrder ok past := by
  induction children generalizing past position acc with
  | nil =>
    rw [Node.readSequence]
    exact Run.inOrder_pure acc
  | cons child rest ih =>
    rw [Node.readSequence]
    refine (hchildren 0 child rfl past (List.suffix_refl past) _).bind fun out later hlater => ?_
    refine ih (fun index other hother last hlast input => ?_) _
    rw [Nat.add_assoc, Nat.add_comm 1]
    exact hchildren (index + 1) other hother last (hlater.trans hlast) input

theorem inOrder_readChoice {past : List Event} {position : Nat} {input : Text}
    (hchildren : ∀ index child, children[index]? = some child → ∀ later, past <:+ later →
      (Node.read leniency expand child (here.child (position + index)) trace input).InOrder ok later) :
    (Node.readChoice leniency expand children position here trace input).InOrder ok past := by
  induction children generalizing past position with
  | nil =>
    rw [Node.readChoice]
    trivial
  | cons child rest ih =>
    rw [Node.readChoice]
    refine (hchildren 0 child rfl past (List.suffix_refl past)).append fun later hlater => ?_
    refine ih fun index other hother last hlast => ?_
    rw [Nat.add_assoc, Nat.add_comm 1]
    exact hchildren (index + 1) other hother last (hlater.trans hlast)

end

theorem inOrder_read {expand : Expansion n} {path : Trace}
    (hexpand : ∀ past here label e input,
      ctx.Reached start roots (.visit here :: past) path ⟨here, .element label e⟩ →
      (expand here e path input).InOrder (ctx.Arises start roots) (.visit here :: past))
    (node : Node n) (here : Address) (input : Text) (past : List Event)
    (h : ctx.Reached start roots past path ⟨here, node⟩) :
    (Node.read ctx.leniency expand node here path input).InOrder (ctx.Arises start roots) past := by
  induction node using Node.induction generalizing here input past with
  | literal label l =>
    rw [Node.read]
    have hvisited := h.after (List.suffix_cons (.visit here) past)
    refine ⟨h.arises_visit, ⟨path, _, hvisited, .attempt ..⟩, inOrder_putLabel ?_ label⟩
    exact Run.inOrder_ofOption _
  | sequence label children ih =>
    rw [Node.read]
    refine ⟨h.arises_visit, inOrder_putLabel ?_ label⟩
    refine inOrder_readSequence (fun index child hchild later hlater input => ?_) _
    rw [Nat.zero_add]
    exact ih child (List.mem_of_getElem? hchild) _ input later (h.child hchild hlater)
  | choice label children ih =>
    rw [Node.read]
    refine ⟨h.arises_visit, inOrder_putLabel ?_ label⟩
    refine inOrder_readChoice fun index child hchild later hlater => ?_
    rw [Nat.zero_add]
    exact ih child (List.mem_of_getElem? hchild) _ input later (h.child hchild hlater)
  | element label e =>
    rw [Node.read]
    have hvisited := h.after (List.suffix_cons (.visit here) past)
    exact ⟨h.arises_visit, inOrder_putLabel (hexpand past here label e input hvisited) label⟩
  | nothing label =>
    rw [Node.read]
    exact ⟨h.arises_visit, trivial⟩

theorem inOrder_screen {past : List Event} {path : Trace} {placed : Placed n}
    (h : ctx.Reached start roots past path placed) (phrase : Phrase n) (props : Props) (out : Output) :
    (phrase.screen props out).InOrder (ctx.Arises start roots) past := by
  unfold Phrase.screen
  split
  · exact Run.inOrder_pure out
  · exact ⟨⟨path, placed, h, .reject ..⟩, trivial⟩
  · trivial

theorem inOrder_revalue {ok : List Event → Event → Prop} {past : List Event} (phrase : Phrase n) (props : Props)
    (out : Output) : (phrase.revalue props out).InOrder ok past := by
  unfold Phrase.revalue
  split
  · exact Run.inOrder_pure out
  · split
    · exact Run.inOrder_pure _
    · trivial

theorem inOrder_expandOnce {expand : Expansion n}
    (hexpand : ∀ past here label e path input,
      ctx.Reached start roots (.visit here :: past) path ⟨here, .element label e⟩ →
      (expand here e path input).InOrder (ctx.Arises start roots) (.visit here :: past))
    {past : List Event} {here : Address} {label : Option String} {e : Element n} {path : Trace} (input : Text)
    (h : ctx.Reached start roots (.visit here :: past) path ⟨here, .element label e⟩) :
    (ctx.expandOnce expand here e path input).InOrder (ctx.Arises start roots) (.visit here :: past) := by
  have hvisit : .visit here ∈ .visit here :: past := List.mem_cons_self ..
  unfold Context.expandOnce
  split
  · next hadmits =>
    have hread (placed : Placed n) (later : List Event) (hlater : .visit here :: past <:+ later)
        (hlead : ctx.Leads later path ⟨here, .element label e⟩ (ctx.frame e.phrase input :: path) placed) :
        (Node.read ctx.leniency expand placed.node placed.address (ctx.frame e.phrase input :: path)
          input).InOrder (ctx.Arises start roots) later :=
      inOrder_read (fun past here label e => hexpand past here label e _) _ _ _ _
        (.lead (h.after hlater) (hlater.subset hvisit) hlead)
    have hentered := List.suffix_cons (.enter (ctx.frame e.phrase input :: path)) (.visit here :: past)
    refine ⟨⟨path, _, h, .enter past hadmits⟩, ?_⟩
    split
    · next replacement hoverride => exact hread replacement _ hentered (.override hadmits hoverride)
    · next hnone =>
      split
      · trivial
      · next description hdescribe =>
        -- from here on the description has been called for
        have hdescribed (later : List Event)
            (hlater : .describe here :: .enter (ctx.frame e.phrase input :: path) :: .visit here :: past <:+ later) :
            .describe here ∈ later ∧ .visit here :: past <:+ later :=
          ⟨hlater.subset (List.mem_cons_self ..), hentered.trans ((List.suffix_cons _ _).trans hlater)⟩
        refine ⟨⟨path, _, h.after hentered, .describe past hadmits hnone hdescribe⟩, .append ?_ ?_⟩
        · obtain ⟨hmem, hlater⟩ := hdescribed _ (List.suffix_refl _)
          have hdescription := hread ⟨here.description, description⟩ _ hlater
            (.description hadmits hnone hdescribe hmem)
          refine (hdescription.bind fun out later hlater' => ?_).bind fun out later _ => inOrder_revalue ..
          exact inOrder_screen (h.after (hlater.trans hlater')) _ _ _
        · intro later hlater
          obtain ⟨-, hlater⟩ := hdescribed later hlater
          refine Run.InOrder.bind (Run.inOrder_ofList fun supplement hmem last hlast => ?_) fun out last hlast => ?_
          · exact hread supplement last (hlater.trans hlast) (.supplement hadmits hnone hmem)
          · exact inOrder_screen (h.after (hlater.trans hlast)) _ _ _
  · next hadmits => exact ⟨⟨path, _, h, .prune _ (by simpa using hadmits)⟩, trivial⟩

theorem inOrder_expandWithin (bound : Nat) (past : List Event) (here : Address) (label : Option String)
    (e : Element n) (path : Trace) (input : Text)
    (h : ctx.Reached start roots (.visit here :: past) path ⟨here, .element label e⟩) :
    (ctx.expandWithin bound here e path input).InOrder (ctx.Arises start roots) (.visit here :: past) := by
  induction bound generalizing past here label e path input with
  | zero => trivial
  | succ bound ih => exact inOrder_expandOnce ih input h

/-- **Every event of a reading arises** at a node that reading has come to, whatever happened before. -/
theorem inOrder_resolveTraced (ctx : Context n) (start : Trace) {root : Placed n} (h : root ∈ roots)
    (input : Text) (past : List Event) :
    (ctx.resolveTraced root start input).InOrder (ctx.Arises start roots) past :=
  inOrder_read (fun past here label e => inOrder_expandWithin _ past here label e start) _ _ _ _ (.root h)

end Context

end Typeahead
