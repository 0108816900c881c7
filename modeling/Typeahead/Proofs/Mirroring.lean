import Typeahead.Proofs.Cells
import Typeahead.Proofs.Simulation

/-!
# Numbers steer nothing

Where describe functions depend on nothing but the props, a session of numbered trees with its store is used like
one whose nodes go by addresses and whose descriptions are worked out wherever they are needed. A run is mirrored
by an inquiry (`Inquiry.Mirrors`) if both take the same course as long as what the inquiry is given is what the
describe function says; and this it is, since what is kept for an element is what a call for it answered
(`Store.describe_faithful`). Reading a tree mirrors reading its node (`NumberedTree.mirrors_read`), and after any
acts the two sessions say the same (`Numbered.numbers_steer_nothing`).
-/

namespace Typeahead

variable {n : Nat}

/-- The same happens, wherever it does. -/
abbrev Event.AlikeAnywhere (e e' : Event) : Prop := e.Alike (fun _ _ => True) e'

theorem Event.alikeAnywhere_self (e : Event) : e.AlikeAnywhere e := by
  cases e with
  | visit address => exact .visit trivial
  | describe address => exact .describe trivial
  | enter path => exact .enter path
  | attempt => exact .attempt
  | prune => exact .prune
  | reject => exact .reject
  | emit => exact .emit

theorem Event.AlikeAnywhere.record_eq {e e' : Event} (h : e.AlikeAnywhere e') (metrics : Metrics) :
    metrics.record e = metrics.record e' := by
  cases h <;> rfl

/-- All outputs of a run at once, when there are no more. -/
def Run.gather {α : Type} (acc : List α) : Run α → Run (List α)
  | .done => .output acc.reverse fun _ => .done
  | .fault f => .fault f
  | .event e rest => .event e fun _ => (rest ()).gather acc
  | .output a rest => (rest ()).gather (a :: acc)

theorem Run.pull_gather {α : Type} (run : Run α) (acc : List α) (progress : Progress) :
    (run.gather acc).pull progress =
      match run.drainOnto acc progress with
      | (.ok outputs, progress) => (.output outputs .done, progress)
      | (.error f, progress) => (.fault f, progress) := by
  induction run generalizing acc progress with
  | done => rfl
  | fault f => rfl
  | event e rest ih => exact ih () acc _
  | output a rest ih => exact ih () _ progress

/-! ## Runs and inquiries -/

namespace Inquiry

/-- An inquiry that takes the course of a run, if it is given what the describe functions say. -/
inductive Mirrors {α : Type} (book : Phrasebook n) : Run α → Inquiry n α → Prop
  | done : Mirrors book .done .done
  | fault (f : Fault) : Mirrors book (.fault f) (.fault f)
  | event {e e' rest rest'} : e.AlikeAnywhere e' → Mirrors book (rest ()) (rest' ()) →
      Mirrors book (.event e rest) (.event e' rest')
  | output {a : α} {rest rest'} : Mirrors book (rest ()) (rest' ()) → Mirrors book (.output a rest) (.output a rest')
  | ask {run uid e rest} : (∀ f, (book e.phrase).describe e.props = .error f → run = .fault f) →
      (∀ tree : NumberedTree n, (book e.phrase).describe e.props = .ok tree.node → Mirrors book run (rest tree)) →
      Mirrors book run (.ask uid e rest)

section

variable {α β : Type} {book : Phrasebook n} {run : Run α} {inquiry : Inquiry n α}

theorem mirrors_inquiry (book : Phrasebook n) (run : Run α) : Mirrors book run run.inquiry := by
  induction run with
  | done => exact .done
  | fault f => exact .fault f
  | event e rest ih => exact .event e.alikeAnywhere_self (ih ())
  | output a rest ih => exact .output (ih ())

namespace Mirrors

theorem append (h : Mirrors book run inquiry) {next : Unit → Run α} {next' : Unit → Inquiry n α}
    (hnext : Mirrors book (next ()) (next' ())) : Mirrors book (run.append next) (inquiry.append next') := by
  induction h with
  | done => exact hnext
  | fault f => exact .fault f
  | event he _ ih => exact .event he ih
  | output _ ih => exact .output ih
  | ask hfault _ ih => exact .ask (fun f hf => by rw [hfault f hf, Run.append]) ih

theorem bind (h : Mirrors book run inquiry) {k : α → Run β} {k' : α → Inquiry n β}
    (hk : ∀ a, Mirrors book (k a) (k' a)) : Mirrors book (run.bind k) (inquiry.bind k') := by
  induction h with
  | done => exact .done
  | fault f => exact .fault f
  | event he _ ih => exact .event he ih
  | output _ ih => exact (hk _).append ih
  | ask hfault _ ih => exact .ask (fun f hf => by rw [hfault f hf, Run.bind]) ih

theorem map (h : Mirrors book run inquiry) (f : α → β) : Mirrors book (run.map f) (inquiry.map f) := by
  rw [Run.map_eq_bind]
  exact h.bind fun a => mirrors_inquiry book _

theorem take (h : Mirrors book run inquiry) (count : Nat) : Mirrors book (run.take count) (inquiry.take count) := by
  induction h generalizing count with
  | done => cases count <;> exact .done
  | fault f =>
    cases count with
    | zero => exact .done
    | succ count => exact .fault f
  | event he _ ih =>
    cases count with
    | zero => exact .done
    | succ count => exact .event he (ih _)
  | output _ ih =>
    cases count with
    | zero => exact .done
    | succ count => exact .output (ih _)
  | ask hfault _ ih =>
    cases count with
    | zero =>
      rw [Run.take_zero]
      exact .done
    | succ count => exact .ask (fun f hf => by rw [hfault f hf, Run.take]) fun tree htree => ih tree htree _

theorem gather (h : Mirrors book run inquiry) (acc : List α) :
    Mirrors book (run.gather acc) (inquiry.gather acc) := by
  induction h generalizing acc with
  | done => exact .output .done
  | fault f => exact .fault f
  | event he _ ih => exact .event he (ih acc)
  | output _ ih => exact ih _
  | ask hfault _ ih => exact .ask (fun f hf => by rw [hfault f hf, Run.gather]) fun tree htree => ih tree htree acc

end Mirrors

theorem mirrors_ofList {items : List α} {items' : List β} {γ : Type} {run : α → Run γ} {inquiry : β → Inquiry n γ}
    (h : List.Forall₂ (fun item item' => Mirrors book (run item) (inquiry item')) items items') :
    Mirrors book (Run.ofList items run) (ofList items' inquiry) := by
  induction h with
  | nil => exact .done
  | cons hitem _ ih => exact hitem.append ih

end

end Inquiry

/-! ## Reading -/

namespace NumberedTree

theorem nodes_children (tree : NumberedTree n) : tree.node.children = tree.children.map node := by
  cases tree with
  | sequence uid label children | choice uid label children => exact nodes_eq_map children
  | _ => rfl

variable {book : Phrasebook n} {leniency : Leniency} {expand : Typeahead.Expansion n}
  {expand' : NumberedTree.Expansion n}

theorem mirrors_putLabel {run : Run Output} {inquiry : Inquiry n Output} (h : inquiry.Mirrors book run)
    (label : Option String) : (inquiry.putLabel label).Mirrors book (putLabel label run) := by
  cases label with
  | none => exact h
  | some name => exact h.map _

theorem mirrors_readSequence {children : List (NumberedTree n)} {trace : Trace}
    (hread : ∀ child ∈ children, ∀ here input, (child.read leniency expand' trace input).Mirrors book
      (Node.read leniency expand child.node here trace input))
    (position : Nat) (here : Address) (acc : Output) :
    (readSequence leniency expand' children position trace acc).Mirrors book
      (Node.readSequence leniency expand (nodes children) position here trace acc) := by
  induction children generalizing position acc with
  | nil =>
    rw [nodes, readSequence, Node.readSequence]
    exact Inquiry.mirrors_inquiry book _
  | cons child rest ih =>
    rw [List.forall_mem_cons] at hread
    rw [nodes, readSequence, Node.readSequence]
    exact (hread.1 _ _).bind fun out => ih hread.2 _ _

theorem mirrors_readChoice {children : List (NumberedTree n)} {trace : Trace} {input : Text}
    (hread : ∀ child ∈ children, ∀ here, (child.read leniency expand' trace input).Mirrors book
      (Node.read leniency expand child.node here trace input))
    (position : Nat) (here : Address) :
    (readChoice leniency expand' children trace input).Mirrors book
      (Node.readChoice leniency expand (nodes children) position here trace input) := by
  induction children generalizing position with
  | nil =>
    rw [nodes, readChoice, Node.readChoice]
    exact .done
  | cons child rest ih =>
    rw [List.forall_mem_cons] at hread
    rw [nodes, readChoice, Node.readChoice]
    exact (hread.1 _).append (ih hread.2 _)

/-- **Reading a tree** mirrors reading its node, wherever that stands, if expanding elements does. -/
theorem mirrors_read (hexpand : ∀ here uid e trace input, (expand' uid e trace input).Mirrors book
      (expand here e trace input)) (tree : NumberedTree n) (here : Address) (trace : Trace) (input : Text) :
    (tree.read leniency expand' trace input).Mirrors book (Node.read leniency expand tree.node here trace input) := by
  induction tree using NumberedTree.induction generalizing here trace input with
  | literal uid label l =>
    rw [node, read, Node.read]
    refine .event (.visit trivial) (.event .attempt (mirrors_putLabel ?_ label))
    exact Inquiry.mirrors_inquiry book _
  | sequence uid label children ih =>
    rw [node, read, Node.read]
    refine .event (.visit trivial) (mirrors_putLabel ?_ label)
    exact mirrors_readSequence (fun child hchild there rest => ih child hchild there trace rest) 0 here _
  | choice uid label children ih =>
    rw [node, read, Node.read]
    refine .event (.visit trivial) (mirrors_putLabel ?_ label)
    exact mirrors_readChoice (fun child hchild there => ih child hchild there trace input) 0 here
  | element uid label e =>
    rw [node, read, Node.read]
    exact .event (.visit trivial) (mirrors_putLabel (hexpand here uid e trace input) label)
  | nothing uid label =>
    rw [node, read, Node.read]
    exact .event (.visit trivial) .done

end NumberedTree

/-- What a numbered context is to one with addresses: all is the same but where extensions stand. -/
structure Context.Renumbers (book : Phrasebook n) (numbered ctx : Context n) : Prop where
  phrases : ctx.phrases = book
  numbered_phrases : numbered.phrases = book
  leniency : numbered.leniency = ctx.leniency
  supplements : ∀ identity, List.Forall₂ (fun placed other => other.tree.node = placed.node)
    (ctx.registry.supplementsFor identity) (numbered.registry.supplementsFor identity)
  override : ∀ identity, Option.Rel (fun placed other => other.tree.node = placed.node)
    (ctx.registry.override? identity) (numbered.registry.override? identity)

namespace Context.Renumbers

variable {book : Phrasebook n} {ctx numbered : Context n} {expand : Typeahead.Expansion n}
  {expand' : NumberedTree.Expansion n}

theorem mirrors_description (h : numbered.Renumbers book ctx)
    (hexpand : ∀ here uid e trace input, (expand' uid e trace input).Mirrors book (expand here e trace input))
    (here : Address) (e : Element n) (tree : NumberedTree n) (inner : Trace) (input : Text) :
    (numbered.inquireDescription expand' e tree inner input).Mirrors book
      (ctx.readDescription expand here e tree.node inner input) := by
  rw [inquireDescription, readDescription, h.phrases, h.numbered_phrases, h.leniency]
  refine ((NumberedTree.mirrors_read hexpand tree here.description inner input).bind fun out => ?_).bind fun out => ?_
  · exact Inquiry.mirrors_inquiry _ _
  · exact Inquiry.mirrors_inquiry _ _

theorem mirrors_supplements (h : numbered.Renumbers book ctx)
    (hexpand : ∀ here uid e trace input, (expand' uid e trace input).Mirrors book (expand here e trace input))
    (e : Element n) (inner : Trace) (input : Text) :
    (numbered.inquireSupplements expand' e inner input).Mirrors book
      (ctx.readSupplements expand e inner input) := by
  rw [inquireSupplements, readSupplements, h.phrases, h.numbered_phrases, h.leniency]
  refine (Inquiry.mirrors_ofList ((h.supplements _).imp fun placed other hnode => ?_)).bind fun out => ?_
  · rw [← hnode]
    exact NumberedTree.mirrors_read hexpand other.tree _ inner input
  · exact Inquiry.mirrors_inquiry _ _

/-- **Expanding once** mirrors expanding once, if expansion inside does. -/
theorem mirrors_expandOnce (h : numbered.Renumbers book ctx)
    (hexpand : ∀ here uid e trace input, (expand' uid e trace input).Mirrors book (expand here e trace input))
    (here : Address) (uid : Nat) (e : Element n) (trace : Trace) (input : Text) :
    (numbered.inquireOnce expand' uid e trace input).Mirrors book
      (ctx.expandOnce expand here e trace input) := by
  have hframe : numbered.frame e.phrase input = ctx.frame e.phrase input := by
    rw [frame, frame, h.phrases, h.numbered_phrases]
  simp only [inquireOnce, expandOnce, hframe, h.phrases, h.numbered_phrases, h.leniency]
  split
  · refine .event (.enter _) ?_
    have hoverride := h.override (book e.phrase).identity
    generalize ctx.registry.override? (book e.phrase).identity = replacement at hoverride ⊢
    generalize numbered.registry.override? (book e.phrase).identity = replacement' at hoverride ⊢
    cases hoverride with
    | some hnode =>
      dsimp only
      rw [← hnode]
      exact NumberedTree.mirrors_read hexpand _ _ _ input
    | none =>
      refine .ask (fun f hf => by simp only [hf]) fun tree htree => ?_
      simp only [htree]
      refine .event (.describe trivial) ?_
      exact (h.mirrors_description hexpand here e tree _ input).append (h.mirrors_supplements hexpand e _ input)
  · exact .event .prune .done

theorem mirrors_expandWithin (h : numbered.Renumbers book ctx) (bound : Nat) (here : Address) (uid : Nat)
    (e : Element n) (trace : Trace) (input : Text) :
    (numbered.inquireWithin bound uid e trace input).Mirrors book
      (ctx.expandWithin bound here e trace input) := by
  induction bound generalizing here uid e trace input with
  | zero => exact .done
  | succ bound ih => exact h.mirrors_expandOnce ih here uid e trace input

/-- **An inquiry** into a tree mirrors resolving its node. -/
theorem mirrors_resolve (h : numbered.Renumbers book ctx) {placed : Placed n} {tree : NumberedTree n}
    (hnode : tree.node = placed.node) (input : Text) :
    (numbered.inquire tree input).Mirrors book (ctx.resolve placed input) := by
  rw [inquire, resolve, resolveTraced, h.leniency, ← hnode]
  exact NumberedTree.mirrors_read (h.mirrors_expandWithin _) tree _ [] input

end Context.Renumbers

/-! ## Pulling -/

namespace Store

variable {book : Phrasebook n} {roots : List (NumberedTree n)} {store : Store n} {uid : Nat} {e : Element n}

/-- **What an element is described as** is what its phrase says, whether it is there already or is made now. -/
theorem describe_faithful (hdistinct : store.Distinct roots) (hlogged : store.Logged book.describer)
    {label : Option String} (hstands : .element uid label e ∈ store.parts roots) :
    (store.describe book.describer uid e).1.map NumberedTree.node = (book e.phrase).describe e.props := by
  rcases store.describe_cases book.describer uid e with
    ⟨tree, htree, heq⟩ | ⟨-, f, hf, heq⟩ | ⟨-, node, hnode, tree, after, hkeep, heq⟩
  · obtain ⟨index, e', hcall, hanswer⟩ := hlogged.answered uid tree ((description?_eq_some hlogged.nodup).1 htree)
    -- the number belongs to the element that asks, so it was called for by an element like it
    obtain ⟨label', heq'⟩ := hdistinct.element _ (List.mem_of_getElem? hcall) _ hstands rfl
    cases heq'
    rw [heq]
    exact hanswer.symm
  · rw [heq]
    exact hf.symm
  · rw [heq, Except.map, (keep_spec hkeep).1]
    exact hnode.symm

end Store

namespace Inquiry

/-- A run and an inquiry stop at the same, and what is left is mirrored. -/
inductive SameStop {α : Type} (book : Phrasebook n) : Pulled α → Stop n α → Prop
  | output {a : α} {rest : Run α} {rest' : Inquiry n α} : rest'.Mirrors book rest →
      SameStop book (.output a rest) (.output a rest')
  | exhausted : SameStop book .exhausted .exhausted
  | fault (f : Fault) : SameStop book (.fault f) (.fault f)

/-- A pull on a run and one on an inquiry: they stop at the same, and count the same. -/
structure SameCourse {α : Type} (book : Phrasebook n) (metrics : Metrics) (pulled : Pulled α × Progress)
    (course : Course n α) : Prop where
  stop : SameStop book pulled.1 course.stop
  metrics : pulled.2.metrics = course.events.foldl Metrics.record metrics

variable {α : Type} {book : Phrasebook n} {ctx : Context n} {good : α → Prop} {known roots : List (NumberedTree n)}
  {run : Run α} {inquiry : Inquiry n α} {store : Store n}

theorem SameCourse.event {e e' : Event} {progress : Progress} {course : Course n α} (he : e.AlikeAnywhere e')
    (h : SameCourse book (progress.record e).metrics (run.pull (progress.record e)) course) :
    SameCourse book progress.metrics (Run.pull (.event e fun _ => run) progress)
      { course with events := e' :: course.events } where
  stop := h.stop
  metrics := h.metrics.trans (congrArg (course.events.foldl Metrics.record) (he.record_eq progress.metrics))

theorem Mirrors.exists_event {e' : Event} {rest' : Unit → Inquiry n α} (h : Mirrors book run (.event e' rest')) :
    ∃ e rest, run = .event e (fun _ => rest) ∧ e.AlikeAnywhere e' ∧ (rest' ()).Mirrors book rest := by
  cases h with
  | @event e _ rest _ he hrest => exact ⟨e, rest (), rfl, he, hrest⟩

/-- **Pulls take the same course.** -/
theorem Mirrors.pull (h : inquiry.Mirrors book run) (hlicensed : inquiry.Licensed ctx good known)
    (hdistinct : store.Distinct roots) (hlogged : store.Logged book.describer) (hknown : known ⊆ store.parts roots)
    (progress : Progress) :
    SameCourse book progress.metrics (run.pull progress) (inquiry.pull book.describer store) := by
  induction hlicensed generalizing run store progress with
  | done =>
    cases h with
    | done => exact ⟨.exhausted, rfl⟩
  | fault f =>
    cases h with
    | fault => exact ⟨.fault f, rfl⟩
  | event e' _ ih =>
    obtain ⟨e, rest, rfl, he, hrest⟩ := h.exists_event
    exact .event he (ih hrest hdistinct hlogged hknown _)
  | output _ _ _ =>
    cases h with
    | output hrest => exact ⟨.output hrest, rfl⟩
  | @ask known uid label e path input rest hmem hadmits hnone _ ih =>
    have hstands := hknown hmem
    obtain ⟨more, hreaches, -, hkept⟩ := Store.reaches_describe hdistinct hlogged hstands
    have hfaithful := Store.describe_faithful hdistinct hlogged hstands
    obtain ⟨_, _, rfl, hvisit, h⟩ := h.exists_event
    obtain ⟨_, _, rfl, henter, h⟩ := h.exists_event
    cases h with
    | ask hfault hrest =>
      refine .event hvisit (.event henter ?_)
      rw [Inquiry.pull]
      generalize store.describe book.describer uid e = described at hreaches hkept hfaithful
      obtain ⟨answer, middle⟩ := described
      cases answer with
      | error f =>
        rw [hfault f hfaithful.symm]
        exact ⟨.fault f, rfl⟩
      | ok tree =>
        refine ih tree (hrest tree hfaithful.symm) hreaches.distinct hreaches.logged ?_ _
        exact List.append_subset.2
          ⟨Store.parts_subset_of_mem_cells (hkept tree rfl), List.Subset.trans hknown hreaches.parts_subset⟩

/-- **Draining** gives the same outcome and counts the same. -/
theorem Mirrors.drain (h : inquiry.Mirrors book run) (hlicensed : inquiry.Licensed ctx good known)
    (hdistinct : store.Distinct roots) (hlogged : store.Logged book.describer) (hknown : known ⊆ store.parts roots)
    (progress : Progress) :
    (inquiry.drain book.describer store).1 = (run.drain progress).1 ∧
      (run.drain progress).2.metrics =
        (inquiry.drain book.describer store).2.1.foldl Metrics.record progress.metrics := by
  obtain ⟨hstop, hmetrics⟩ := (h.gather []).pull (hlicensed.gather []) hdistinct hlogged hknown progress
  rw [Run.pull_gather] at hstop hmetrics
  unfold Inquiry.drain Run.drain
  generalize run.drainOnto [] progress = drained at hstop hmetrics ⊢
  generalize (inquiry.gather []).pull book.describer store = course at hstop hmetrics ⊢
  obtain ⟨outcome, after⟩ := drained
  obtain ⟨stop, events, store'⟩ := course
  cases outcome with
  | ok outputs =>
    cases hstop
    exact ⟨rfl, hmetrics⟩
  | error f =>
    cases hstop
    exact ⟨rfl, hmetrics⟩

end Inquiry

/-! ## Sessions -/

theorem rel_getElem? {α β : Type} {rel : α → β → Prop} {items : List α} {items' : List β}
    (h : List.Forall₂ rel items items') (place : Nat) : Option.Rel rel items[place]? items'[place]? := by
  induction h generalizing place with
  | nil => exact .none
  | cons hitem _ ih =>
    cases place with
    | zero => exact .some hitem
    | succ place => exact ih place

theorem forall₂_set {α β : Type} {rel : α → β → Prop} {items : List α} {items' : List β}
    (h : List.Forall₂ rel items items') {a : α} {b : β} (hnew : rel a b) (place : Nat) :
    List.Forall₂ rel (items.set place a) (items'.set place b) := by
  induction h generalizing place with
  | nil => exact .nil
  | cons hitem hrest ih =>
    cases place with
    | zero => exact .cons hnew hrest
    | succ place => exact .cons hitem (ih place)

theorem forall₂_of_map_eq {α β γ : Type} {f : α → γ} {g : β → γ} {items : List α} {items' : List β}
    (h : items.map f = items'.map g) : List.Forall₂ (fun item item' => g item' = f item) items items' := by
  have heq : List.Forall₂ Eq (items.map f) (items'.map g) := List.forall₂_eq_eq_eq ▸ h
  rw [List.forall₂_map_left_iff, List.forall₂_map_right_iff] at heq
  exact heq.imp fun _ _ => Eq.symm

/-- **Following steps down** from a node mirrors following them from its place. -/
theorem Store.follow_faithful {book : Phrasebook n} {roots : List (NumberedTree n)} {store : Store n}
    (hdistinct : store.Distinct roots) (hlogged : store.Logged book.describer) {placed : Placed n}
    {tree : NumberedTree n} (hnode : tree.node = placed.node) (hstands : tree.parts ⊆ store.parts roots)
    (described : List Address) (steps : List Step) :
    SameOutcome (Option.Rel fun placed tree => tree.node = placed.node) (placed.follow book described steps).1
      (store.follow book.describer tree steps).1 := by
  induction steps generalizing store placed tree described with
  | nil => exact .ok (.some hnode)
  | cons step rest ih =>
    cases step with
    | child index =>
      rw [Placed.follow, follow, ← hnode, NumberedTree.nodes_children, List.getElem?_map]
      cases hchild : tree.children[index]? with
      | none => exact .ok .none
      | some child =>
        have hparts := NumberedTree.parts_subset_of_child (List.mem_of_getElem? hchild)
        exact ih hdistinct hlogged rfl (List.Subset.trans hparts hstands) described
    | description =>
      rw [Placed.follow, ← hnode]
      cases tree with
      | element uid label e =>
        have hpart := hstands (NumberedTree.self_mem_parts _)
        obtain ⟨more, hreaches, -, hkept⟩ := reaches_describe hdistinct hlogged hpart
        have hfaithful := describe_faithful hdistinct hlogged hpart
        simp only [follow, NumberedTree.node, Node.element?, ← hfaithful]
        generalize store.describe book.describer uid e = answered at hreaches hkept
        obtain ⟨answer, middle⟩ := answered
        cases answer with
        | error f => exact .error f
        | ok tree =>
          exact ih hreaches.distinct hreaches.logged rfl (parts_subset_of_mem_cells (hkept tree rfl)) _
      | _ => exact .ok .none

namespace Numbered

/-- What a session of numbered trees is to one whose nodes go by addresses. -/
structure Session.Renumbers (book : Phrasebook n) (numbered : Session n) (session : Typeahead.Session n) : Prop where
  phrases : session.phrases = book
  numbered_phrases : numbered.phrases = book
  describer : numbered.describer = book.describer
  settings : numbered.settings = session.settings
  sentences : List.Forall₂ (fun placed tree => tree.node = placed.node) session.sentences numbered.sentences
  extensions : List.Forall₂ (fun old new => new.phrase = old.phrase) session.extensions numbered.extensions

theorem Session.settle_metrics (session : Session n) (metrics : Metrics) (events : List Event) (store : Store n) :
    (session.settle metrics events store).1 = events.foldl Metrics.record metrics := by
  rw [settle, Progress.metrics_foldl, Metrics.foldl_record]

namespace Session.Renumbers

variable {book : Phrasebook n} {numbered : Session n} {session : Typeahead.Session n}

/-- Neither marks nor descriptions matter. -/
theorem later (h : numbered.Renumbers book session) (freshness freshness' : Freshness) (described : List Address)
    (store : Store n) :
    Renumbers book { numbered with freshness, store } { session with freshness := freshness', described } :=
  ⟨h.phrases, h.numbered_phrases, h.describer, h.settings, h.sentences, h.extensions⟩

theorem context (h : numbered.Renumbers book session) : numbered.context.Renumbers book session.pass.context := by
  have hplaced : List.Forall₂ (fun placed other : Placed n => other.tree.node = placed.node ∧
      placed.supplements book = other.supplements book ∧ placed.overrides book = other.overrides book)
      (session.extensions.map (·.placed)) (numbered.extensions.map (·.placed)) := by
    rw [List.forall₂_map_left_iff, List.forall₂_map_right_iff]
    refine h.extensions.imp fun old new hphrase => ?_
    simp only [Extension.placed, Placed.tree, NumberedTree.node, Placed.supplements, Placed.overrides, Node.element?,
      hphrase, and_self]
  have hregistry : numbered.context.registry =
      Registry.ofExtensions book (numbered.extensions.map (·.placed)) := by rw [Session.context, h.numbered_phrases]
  have hregistry' : session.pass.context.registry =
      Registry.ofExtensions book (session.extensions.map (·.placed)) := by
    rw [← h.phrases]
    rfl
  refine ⟨h.phrases, h.numbered_phrases, congrArg Settings.leniency h.settings, fun identity => ?_, fun identity => ?_⟩
  · rw [hregistry, hregistry']
    exact (Registry.lists_alike hplaced identity).1
  · rw [hregistry, hregistry']
    exact (Registry.lists_alike hplaced identity).2

/-- **Streams mirror streams.** -/
theorem mirrors_stream (h : numbered.Renumbers book session) (input : Text) :
    (numbered.stream input).Mirrors book (session.pass.stream input) := by
  have hunlimited : ((Inquiry.ofList numbered.sentences fun sentence => numbered.context.inquire sentence input).bind
      fun out => (Pass.handOut out).inquiry).Mirrors book (session.pass.unlimited input) := by
    refine (Inquiry.mirrors_ofList (h.sentences.imp fun placed tree hnode => ?_)).bind fun out => ?_
    · exact h.context.mirrors_resolve hnode input
    · exact Inquiry.mirrors_inquiry _ _
  rw [stream, h.settings, Pass.stream, show session.pass.limit = session.settings.limit from rfl]
  cases session.settings.limit with
  | none => exact hunlimited
  | some limit => exact hunlimited.take limit

theorem extensionIdentities_eq (h : numbered.Renumbers book session) :
    numbered.extensionIdentities = session.extensionIdentities := by
  rw [extensionIdentities, Typeahead.Session.extensionIdentities, h.phrases, h.numbered_phrases]
  have hextensions := h.extensions
  generalize session.extensions = old at hextensions ⊢
  generalize numbered.extensions = new at hextensions ⊢
  induction hextensions with
  | nil => rfl
  | cons hphrase _ ih => rw [List.map_cons, List.map_cons, hphrase, ih]

/-- **Reading input** finds the same. -/
theorem parse_eq (h : numbered.Renumbers book session) (hsound : numbered.Sound) (input : Text) :
    (numbered.parse input).1 = (session.parse input).1 := by
  have hlogged := hsound.logged
  rw [h.describer] at hlogged
  obtain ⟨houtcome, hmetrics⟩ := (h.mirrors_stream input).drain (numbered.licenses_stream input) hsound.distinct
    hlogged (List.Subset.refl _) session.pass.progress
  simp only [parse, Typeahead.Session.parse, Session.settle_metrics, h.describer, h.extensionIdentities_eq, houtcome,
    hmetrics]
  rfl

theorem root?_mirrors (h : numbered.Renumbers book session) (anchor : Anchor) :
    Option.Rel (fun placed tree => tree.node = placed.node) (session.root? anchor) (numbered.root? anchor) := by
  cases anchor with
  | sentence index => exact rel_getElem? h.sentences index
  | extension index =>
    have hextension := rel_getElem? h.extensions index
    rw [Typeahead.Session.root?, root?]
    generalize session.extensions[index]? = old at hextension ⊢
    generalize numbered.extensions[index]? = new at hextension ⊢
    cases hextension with
    | none => exact .none
    | some hphrase => exact .some (congrArg (fun phrase => Node.element none ⟨phrase, []⟩) hphrase)

/-- **Finding a node** comes to the same node. -/
theorem locate_mirrors (h : numbered.Renumbers book session) (hsound : numbered.Sound) (anchor : Anchor)
    (steps : List Step) :
    SameOutcome (Option.Rel fun placed tree => tree.node = placed.node) (session.locate anchor steps).1
        (numbered.locate anchor steps).1 ∧
      (numbered.locate anchor steps).2.Renumbers book (session.locate anchor steps).2 := by
  have hroot := h.root?_mirrors anchor
  rw [locate, Typeahead.Session.locate]
  generalize hother : numbered.root? anchor = other at hroot ⊢
  generalize session.root? anchor = placed at hroot ⊢
  cases hroot with
  | none => exact ⟨.ok .none, h⟩
  | @some _ tree hnode =>
    have hlogged := hsound.logged
    rw [h.describer] at hlogged
    have hstands : tree.parts ⊆ numbered.parts := Store.parts_subset_of_mem_roots (mem_trees_of_root? hother)
    have hfound := Store.follow_faithful hsound.distinct hlogged hnode hstands session.described steps
    rw [← h.describer, ← h.phrases] at hfound
    exact ⟨hfound, h.later _ _ _ _⟩

/-- **Reading input as a node** finds the same. -/
theorem resolveAt_mirrors (h : numbered.Renumbers book session) (hsound : numbered.Sound) (anchor : Anchor)
    (steps : List Step) (input : Text) (count : Option Nat) :
    (numbered.resolveAt anchor steps input count).1 = (session.resolveAt anchor steps input count).1 ∧
      (numbered.resolveAt anchor steps input count).2.Renumbers book
        (session.resolveAt anchor steps input count).2 := by
  have hbegun : numbered.beginEpoch.Renumbers book (session.absorb session.pass.progress) := h.later _ _ _ _
  have hsound' : numbered.beginEpoch.Sound := ⟨hsound.distinct, hsound.logged⟩
  obtain ⟨hfound, hlocated⟩ := hbegun.locate_mirrors hsound' anchor steps
  obtain ⟨more, store, hstore, hreaches, hparts⟩ := hsound'.locate anchor steps
  simp only [resolveAt, Typeahead.Session.resolveAt]
  generalize (session.absorb session.pass.progress).locate anchor steps = located at hfound hlocated ⊢
  generalize numbered.beginEpoch.locate anchor steps = located' at hfound hlocated hstore hparts ⊢
  obtain ⟨found, after⟩ := located
  obtain ⟨found', after'⟩ := located'
  cases hstore
  cases hfound with
  | error f => exact ⟨rfl, hlocated⟩
  | ok hplaced =>
    cases hplaced with
    | none => exact ⟨rfl, hlocated⟩
    | @some placed tree hnode =>
      have hlogged := hreaches.logged
      rw [show numbered.beginEpoch.describer = book.describer from h.describer] at hlogged
      let progress : Progress := { session.pass.progress with described := after.described }
      have hdrained {run : Run Output} {inquiry : Inquiry n Output} (hmirrors : inquiry.Mirrors book run)
          (hlicensed : Session.Licenses { numbered.beginEpoch with store } inquiry) :
          ((inquiry.drain numbered.describer store).1.map fun outputs => some (outputs,
              (inquiry.drain numbered.describer store).2.1.foldl Metrics.record {})) =
            (run.drain progress).1.map fun outputs => some (outputs, (run.drain progress).2.metrics) := by
        obtain ⟨houtcome, hmetrics⟩ :=
          hmirrors.drain hlicensed hreaches.distinct hlogged (List.Subset.refl _) progress
        rw [← h.describer] at houtcome hmetrics
        rw [houtcome, hmetrics]
        rfl
      have hmirrors := h.context.mirrors_resolve hnode input
      have hlicensed : Session.Licenses { numbered.beginEpoch with store } (numbered.context.inquire tree input) :=
        licenses_inquire (hparts tree rfl) input
      refine ⟨?_, hlocated.later _ _ _ _⟩
      simp only [Session.settle_metrics]
      cases count with
      | none => exact hdrained hmirrors hlicensed
      | some count => exact hdrained (hmirrors.take count) (hlicensed.take count)

end Session.Renumbers

/-! ## Desks -/

/-- What a pass over numbered trees is to one over nodes that go by addresses. -/
structure Streams.Renumbers (book : Phrasebook n) (streams : Typeahead.Streams) (numbered : Streams n) : Prop where
  mirrors : List.Forall₂ (Inquiry.Mirrors book) streams.runs numbered.inquiries
  metrics : numbered.metrics = streams.progress.metrics

theorem Streams.Renumbers.pull {book : Phrasebook n} {streams : Typeahead.Streams} {streams' : Streams n}
    (h : Streams.Renumbers book streams streams') {run : Run Output} {course : Inquiry.Course n Output} {place : Nat}
    (hrun : streams.runs[place]? = some run)
    (hcourse : Inquiry.SameCourse book streams.progress.metrics (run.pull streams.progress) course) :
    (answer course.stop).1 = (streams.pull place).1 ∧
      Streams.Renumbers book (streams.pull place).2 ⟨streams'.inquiries.set place (answer course.stop).2,
        course.events.foldl Metrics.record streams'.metrics⟩ := by
  obtain ⟨hstop, hmetrics⟩ := hcourse
  rw [Typeahead.Streams.pull, hrun, h.metrics]
  dsimp only
  generalize run.pull streams.progress = pulled at hstop hmetrics ⊢
  obtain ⟨pulled, progress⟩ := pulled
  obtain ⟨stop, events, store⟩ := course
  cases hstop with
  | output hrest => exact ⟨rfl, forall₂_set h.mirrors hrest place, hmetrics.symm⟩
  | exhausted => exact ⟨rfl, forall₂_set h.mirrors .done place, hmetrics.symm⟩
  | fault f => exact ⟨rfl, forall₂_set h.mirrors .done place, hmetrics.symm⟩

namespace Desk

/-- What a desk with numbered trees is to one whose nodes go by addresses. -/
structure Renumbers (book : Phrasebook n) (numbered : Desk n) (desk : Typeahead.Desk n) : Prop where
  session : numbered.session.Renumbers book desk.session
  passes : List.Forall₂ (Streams.Renumbers book) desk.passes numbered.passes

variable {book : Phrasebook n} {numbered : Desk n} {desk : Typeahead.Desk n}

theorem renumbers_ofSettings (book : Phrasebook n) (settings : Settings) :
    (ofSettings book book.describer settings).Renumbers book (Typeahead.Desk.ofSettings book settings) :=
  ⟨⟨rfl, rfl, rfl, rfl, .nil, .nil⟩, .nil⟩

/-- A pass goes on as its mirror image does. -/
theorem Renumbers.proceed (h : numbered.Renumbers book desk) {streams : Typeahead.Streams} {streams' : Streams n}
    (hstreams : Streams.Renumbers book streams streams') (pass : Nat) (freshness freshness' : Freshness)
    (described : List Address) (store : Store n) :
    Renumbers book ⟨{ numbered.session with freshness, store }, numbered.passes.set pass streams'⟩
      ⟨{ desk.session with freshness := freshness', described }, desk.passes.set pass streams⟩ :=
  ⟨h.session.later _ _ _ _, forall₂_set h.passes hstreams pass⟩

/-- **Pulling** says the same. -/
theorem pull_mirrors (h : numbered.Renumbers book desk) (htended : numbered.Tended) (pass place : Nat) :
    (numbered.pull pass place).2.Renumbers book (desk.pull pass place) ∧
      ∀ streams, desk.passes[pass]? = some streams → (numbered.pull pass place).1 = (streams.pull place).1 := by
  have hpass := rel_getElem? h.passes pass
  simp only [pull, Typeahead.Desk.pull]
  generalize hdesk : desk.passes[pass]? = found at hpass ⊢
  generalize hnumbered : numbered.passes[pass]? = found' at hpass ⊢
  cases hpass with
  | none => exact ⟨h, by simp⟩
  | @some streams streams' hstreams =>
    let progress : Progress := ⟨desk.session.freshness, desk.session.described, streams.progress.metrics⟩
    have hmoved : Streams.Renumbers book { streams with progress } streams' :=
      ⟨hstreams.mirrors, hstreams.metrics⟩
    have hplace := rel_getElem? hstreams.mirrors place
    generalize hrun : streams.runs[place]? = run at hplace
    generalize hinquiry : streams'.inquiries[place]? = inquiry at hplace
    simp only [hinquiry]
    cases hplace with
    | none =>
      refine ⟨?_, fun other hother => ?_⟩
      · obtain ⟨hlt, hsame⟩ := List.getElem?_eq_some_iff.1 hnumbered
        have hon := h.proceed hmoved pass numbered.session.freshness desk.session.freshness desk.session.described
          numbered.session.store
        rw [← hsame, List.set_getElem_self hlt] at hon
        rw [Typeahead.Streams.pull, hrun]
        exact hon
      · cases hother
        rw [Typeahead.Streams.pull, hrun]
    | @some run inquiry hmirrors =>
      have hmem := List.mem_of_getElem? hinquiry
      have hlicensed := htended.licensed streams' (List.mem_of_getElem? hnumbered) inquiry hmem
      have hlogged := htended.sound.logged
      rw [h.session.describer] at hlogged
      have hcourse := hmirrors.pull hlicensed htended.sound.distinct hlogged (List.Subset.refl _)
      rw [← h.session.describer] at hcourse
      simp only [Session.settle_metrics]
      refine ⟨?_, fun other hother => ?_⟩
      · have hstep := hmoved.pull hrun (hcourse progress)
        exact h.proceed hstep.2 pass _ _ _ _
      · cases hother
        exact (hstreams.pull hrun (hcourse streams.progress)).1

/-- **Replacing sentences** is refused for the same defect, or gives the same sentences. -/
theorem setSentences_mirrors (h : numbered.Renumbers book desk) (nodes : List (Node n)) :
    (numbered.session.setSentences nodes).1 = (desk.session.setSentences nodes).map (fun _ => ()) ∧
      (numbered.handle (.setSentences nodes)).Renumbers book (desk.handle (.setSentences nodes)) := by
  have hnodes := (NumberedTree.numberAll_spec nodes numbered.session.store.next).nodes
  simp only [handle, Typeahead.Desk.handle, Session.setSentences, Typeahead.Session.setSentences, Store.make,
    h.session.phrases, h.session.numbered_phrases]
  generalize Node.numberAll nodes numbered.session.store.next = made at hnodes ⊢
  cases Node.checkAll book nodes with
  | error defect =>
    exact ⟨rfl, ⟨h.session.phrases, rfl, h.session.describer, h.session.settings, h.session.sentences,
      h.session.extensions⟩, .nil⟩
  | ok done =>
    cases done
    refine ⟨rfl, ⟨rfl, rfl, h.session.describer, h.session.settings, ?_, h.session.extensions⟩, .nil⟩
    exact forall₂_of_map_eq ((Typeahead.Session.nodes_placeFrom _ nodes).trans hnodes.symm)

/-- **Replacing extensions** is refused for the same defect, or gives extensions of the same phrases. -/
theorem setExtensions_mirrors (h : numbered.Renumbers book desk) (phrases : List (Fin n)) :
    (numbered.session.setExtensions phrases).1 = (desk.session.setExtensions phrases).map (fun _ => ()) ∧
      (numbered.handle (.setExtensions phrases)).Renumbers book (desk.handle (.setExtensions phrases)) := by
  simp only [handle, Typeahead.Desk.handle, Session.setExtensions, Typeahead.Session.setExtensions,
    h.session.phrases, h.session.numbered_phrases]
  cases Typeahead.Session.checkExtensions book phrases with
  | error defect => exact ⟨rfl, h.session, .nil⟩
  | ok done =>
    cases done
    refine ⟨rfl, ⟨rfl, rfl, h.session.describer, h.session.settings, h.session.sentences, ?_⟩, .nil⟩
    exact forall₂_of_map_eq ((Typeahead.Session.phrases_renew _ _ phrases).trans
      (Typeahead.Session.phrases_renew _ _ phrases).symm)

/-- **Adding a stream** that reads input as a node. -/
theorem read_mirrors (h : numbered.Renumbers book desk) (htended : numbered.Tended) (pass : Nat) (anchor : Anchor)
    (steps : List Step) (input : Text) :
    (numbered.read pass anchor steps input).Renumbers book (desk.read pass anchor steps input) := by
  obtain ⟨hfound, hlocated⟩ := h.session.locate_mirrors htended.sound anchor steps
  have hpass := rel_getElem? h.passes pass
  simp only [read, Typeahead.Desk.read]
  generalize desk.session.locate anchor steps = located at hfound hlocated ⊢
  generalize numbered.session.locate anchor steps = located' at hfound hlocated ⊢
  generalize desk.passes[pass]? = streams at hpass ⊢
  generalize numbered.passes[pass]? = streams' at hpass ⊢
  obtain ⟨found, session⟩ := located
  obtain ⟨found', session'⟩ := located'
  cases hfound with
  | error f => exact ⟨hlocated, h.passes⟩
  | ok hplaced =>
    cases hplaced with
    | none => exact ⟨hlocated, h.passes⟩
    | some hnode =>
      cases hpass with
      | none => exact ⟨hlocated, h.passes⟩
      | @some streams streams' hstreams =>
        have hmirrors := hlocated.context.mirrors_resolve hnode input
        have hmore : Streams.Renumbers book { streams with runs := streams.runs ++ [_] }
            { streams' with inquiries := streams'.inquiries ++ [_] } :=
          ⟨List.rel_append hstreams.mirrors (.cons hmirrors .nil), hstreams.metrics⟩
        exact ⟨hlocated, forall₂_set h.passes hmore pass⟩

/-- **One act** keeps the two in step. -/
theorem perform_mirrors (h : numbered.Renumbers book desk) (htended : numbered.Tended) (act : Act n) :
    (numbered.perform act).Renumbers book (desk.perform act) := by
  cases act with
  | read pass anchor steps input => exact read_mirrors h htended pass anchor steps input
  | request request =>
    cases request with
    | setSentences nodes => exact (setSentences_mirrors h nodes).2
    | setExtensions phrases => exact (setExtensions_mirrors h phrases).2
    | setSettings settings =>
      obtain ⟨hphrases, hphrases', hdescriber, -, hsentences, hextensions⟩ := h.session
      exact ⟨⟨hphrases, hphrases', hdescriber, rfl, hsentences, hextensions⟩, .nil⟩
    | parse input => exact ⟨h.session.later _ _ _ _, h.passes⟩
    | openPass inputs =>
      refine ⟨h.session.later _ _ _ _, List.rel_append h.passes (.cons ⟨?_, rfl⟩ .nil)⟩
      simp only [Typeahead.Streams.ofInputs, List.forall₂_map_left_iff, List.forall₂_map_right_iff, List.forall₂_same]
      exact fun input _ => h.session.mirrors_stream input
    | pull pass place => exact (pull_mirrors h htended pass place).1
    | resolveAt anchor steps input count =>
      exact ⟨(h.session.resolveAt_mirrors htended.sound anchor steps input count).2, h.passes⟩
    | locate anchor steps => exact ⟨(h.session.locate_mirrors htended.sound anchor steps).2, h.passes⟩
    | mark address => exact ⟨h.session.later _ _ _ _, h.passes⟩
    | clearFreshness => exact ⟨h.session.later _ _ _ _, h.passes⟩
    | beginEpoch => exact ⟨h.session.later _ _ _ _, h.passes⟩

theorem performAll_mirrors (h : numbered.Renumbers book desk) (htended : numbered.Tended) (acts : List (Act n)) :
    (numbered.performAll acts).Renumbers book (desk.performAll acts) ∧ (numbered.performAll acts).Tended := by
  induction acts generalizing numbered desk with
  | nil => exact ⟨h, htended⟩
  | cons act later ih => exact ih (perform_mirrors h htended act) (advances_perform htended act).tended

end Desk

/-- **Numbers steer nothing.** Let describe functions depend on nothing but the props, and do the same with a session
of numbered trees, which keeps descriptions in a store, and with one whose nodes go by addresses, which works
descriptions out again wherever they are needed. Then both refuse the same sentences and extensions, for the same
defects; they find the same when they read input, with the same counts, or give up for the same fault; and a pull on
a stream of a pass that is open on them says the same. -/
theorem numbers_steer_nothing (book : Phrasebook n) (settings : Settings) (acts : List (Act n)) :
    let desk := (Typeahead.Desk.ofSettings book settings).performAll acts
    let numbered := (Desk.ofSettings book book.describer settings).performAll acts
    (∀ nodes, (numbered.session.setSentences nodes).1 = (desk.session.setSentences nodes).map fun _ => ()) ∧
    (∀ phrases, (numbered.session.setExtensions phrases).1 = (desk.session.setExtensions phrases).map fun _ => ()) ∧
    (∀ input, (numbered.session.parse input).1 = (desk.session.parse input).1) ∧
    (∀ anchor steps input count, (numbered.session.resolveAt anchor steps input count).1 =
      (desk.session.resolveAt anchor steps input count).1) ∧
    (∀ pass place streams, desk.passes[pass]? = some streams →
      (numbered.pull pass place).1 = (streams.pull place).1) ∧
    numbered.passes.map (·.metrics) = desk.passes.map (·.progress.metrics) := by
  intro desk numbered
  obtain ⟨h, htended⟩ := Desk.performAll_mirrors (Desk.renumbers_ofSettings book settings)
    (Desk.tended_ofSettings book book.describer settings) acts
  refine ⟨fun nodes => (Desk.setSentences_mirrors h nodes).1, fun phrases => (Desk.setExtensions_mirrors h phrases).1,
    fun input => h.session.parse_eq htended.sound input, fun anchor steps input count => ?_,
    fun pass place => (Desk.pull_mirrors h htended pass place).2, ?_⟩
  · exact (h.session.resolveAt_mirrors htended.sound anchor steps input count).1
  · rw [← List.forall₂_eq_eq_eq, List.forall₂_map_left_iff, List.forall₂_map_right_iff]
    exact (h.passes.imp fun streams streams' hstreams => hstreams.metrics).flip

end Numbered

end Typeahead
