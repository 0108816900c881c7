import Typeahead.Proofs.Enumeration
import Typeahead.Proofs.Pass

/-!
# Eager exploration

Reading as a plain depth-first search. `Node.explore` goes through a tree, notes in a journal what happens, and
hands each reading on as soon as it has one: to the rest of a sequence, to the filter of a phrase, and in the
end to whoever asked. Nothing is put off, and there are no runs. Main statement: a run, followed to its end,
goes through the same journal (`Context.weave_resolve`, `Pass.log_unlimited`).
-/

namespace Typeahead

variable {n : Nat}

/-- An entry of a journal: something that happened, or a reading that was handed out. -/
inductive Entry where
  | event (event : Event)
  | found (out : Output)

/-- What a search has done, in order. -/
abbrev Journal := List Entry

def Journal.events (journal : Journal) : List Event :=
  journal.filterMap fun
    | .event event => some event
    | .found _ => none

def Journal.outputs (journal : Journal) : List Output :=
  journal.filterMap fun
    | .event _ => none
    | .found out => some out

/-- How a phrase element is explored, and each reading of it handed on. -/
abbrev Explorer (n : Nat) := Address → Element n → Trace → Text → (Output → Journal) → Journal

mutual

/-- Explore input as a node, and hand each reading on. -/
def Node.explore (leniency : Leniency) (expand : Explorer n) :
    Node n → Address → Trace → Text → (Output → Journal) → Journal
  | .literal label l, here, _, input, next =>
    .event (.visit here) :: .event .attempt ::
      match l.read? leniency input with
      | some out => next (out.labelIf label)
      | none => []
  | .sequence label children, here, trace, input, next =>
    .event (.visit here) ::
      Node.exploreSequence leniency expand children 0 here trace (Output.seed input) fun out =>
        next (out.labelIf label)
  | .choice label children, here, trace, input, next =>
    .event (.visit here) ::
      Node.exploreChoice leniency expand children 0 here trace input fun out => next (out.labelIf label)
  | .element label e, here, trace, input, next =>
    .event (.visit here) :: expand here e trace input fun out => next (out.labelIf label)
  | .nothing _, here, _, _, _ => [.event (.visit here)]

/-- Explore the children from a position on; each reading of one is taken to the next at once. -/
def Node.exploreSequence (leniency : Leniency) (expand : Explorer n) :
    List (Node n) → Nat → Address → Trace → Output → (Output → Journal) → Journal
  | [], _, _, _, acc, next => next acc
  | child :: rest, position, here, trace, acc, next =>
    Node.explore leniency expand child (here.child position) trace acc.remaining fun out =>
      Node.exploreSequence leniency expand rest (position + 1) here trace (acc.merge position out) next

def Node.exploreChoice (leniency : Leniency) (expand : Explorer n) :
    List (Node n) → Nat → Address → Trace → Text → (Output → Journal) → Journal
  | [], _, _, _, _, _ => []
  | child :: rest, position, here, trace, input, next =>
    Node.explore leniency expand child (here.child position) trace input next ++
      Node.exploreChoice leniency expand rest (position + 1) here trace input next

end

/-- Hand a reading on if the phrase accepts its result. -/
def Phrase.filterOn (phrase : Phrase n) (props : Props) (next : Output → Journal) (out : Output) : Journal :=
  match phrase.accepts props out.result with
  | .ok true => next out
  | .ok false => [.event .reject]
  | .error _ => []

/-- Hand a reading on with the value that the phrase gives it. -/
def Phrase.valueOn (phrase : Phrase n) (props : Props) (next : Output → Journal) (out : Output) : Journal :=
  match phrase.valueOf props out.result with
  | .ok value => next { out with result := value }
  | .error _ => []

namespace Context

/-- Explore an element, given how the elements inside it are explored. -/
def exploreOnce (ctx : Context n) (expand : Explorer n) : Explorer n := fun here e trace input next =>
  let phrase := ctx.phrases e.phrase
  let inner := ctx.frame e.phrase input :: trace
  if trace.admits (ctx.frame e.phrase input) then
    .event (.enter inner) ::
      match ctx.registry.override? phrase.identity with
      | some replacement =>
        Node.explore ctx.leniency expand replacement.node replacement.address inner input next
      | none =>
        match phrase.describe e.props with
        | .error _ => []
        | .ok description =>
          .event (.describe here) ::
            (Node.explore ctx.leniency expand description here.description inner input
                (phrase.filterOn e.props (phrase.valueOn e.props next)) ++
              (ctx.registry.supplementsFor phrase.identity).flatMap fun supplement =>
                Node.explore ctx.leniency expand supplement.node supplement.address inner input
                  (phrase.filterOn e.props next))
  else [.event .prune]

def exploreWithin (ctx : Context n) : Nat → Explorer n
  | 0, _, _, _, _, _ => []
  | bound + 1, here, e, trace, input, next =>
    ctx.exploreOnce (ctx.exploreWithin bound) here e trace input next

/-- Explore input as a root, and hand each reading on. -/
def explore (ctx : Context n) (root : Placed n) (input : Text) (next : Output → Journal) : Journal :=
  Node.explore ctx.leniency (ctx.exploreWithin (depthBound n input)) root.node root.address [] input next

end Context

/-- Explore input as each sentence in turn, and hand out the readings that leave nothing of it. -/
def Pass.explore (pass : Pass n) (input : Text) : Journal :=
  pass.sentences.flatMap fun sentence =>
    pass.context.explore sentence input fun out =>
      if out.isComplete then [.event .emit, .found out] else []

/-! ## Following a run to its end -/

namespace Run

variable {α β : Type}

/-- The journal of a run that is followed to its end, each output being handed on. -/
def weave (next : α → Journal) : Run α → Journal
  | .done => []
  | .fault _ => []
  | .event e rest => .event e :: (rest ()).weave next
  | .output a rest => next a ++ (rest ()).weave next

variable {next next' : β → Journal}

theorem weave_append {run : Run β} {later : Unit → Run β} (h : run.fault? = none) :
    (run.append later).weave next = run.weave next ++ (later ()).weave next := by
  induction run with
  | done => rfl
  | fault f => simp [fault?] at h
  | event e rest ih => rw [append, weave, weave, ih () h, List.cons_append]
  | output a rest ih => rw [append, weave, weave, ih () h, List.append_assoc]

theorem weave_map (f : α → β) (run : Run α) :
    (run.map f).weave next = run.weave fun a => next (f a) := by
  induction run with
  | done => rfl
  | fault f => rfl
  | event e rest ih => rw [map, weave, weave, ih ()]
  | output a rest ih => rw [map, weave, weave, ih ()]

theorem weave_bind {run : Run α} {k : α → Run β} (h : (run.bind k).fault? = none) :
    (run.bind k).weave next = run.weave fun a => (k a).weave next := by
  induction run with
  | done => rfl
  | fault f => simp [bind, fault?] at h
  | event e rest ih => rw [bind, weave, weave, ih () h]
  | output a rest ih =>
    obtain ⟨hfirst, hrest⟩ := fault?_append_eq_none.1 h
    rw [bind, weave, weave_append hfirst, ih () hrest]

theorem weave_ofList {items : List α} {run : α → Run β} (h : (ofList items run).fault? = none) :
    (ofList items run).weave next = items.flatMap fun item => (run item).weave next := by
  induction items with
  | nil => rfl
  | cons item rest ih =>
    obtain ⟨hfirst, hrest⟩ := fault?_append_eq_none.1 h
    rw [ofList, weave_append hfirst, ih hrest, List.flatMap_cons]

theorem weave_ofOption (option : Option β) :
    (ofOption option).weave next =
      match option with
      | some b => next b
      | none => [] := by
  cases option with
  | none => rfl
  | some b => exact List.append_nil (next b)

/-- Only what is done with the outputs matters. -/
theorem weave_congr {run : Run β} (h : ∀ b ∈ run.outputs, next b = next' b) :
    run.weave next = run.weave next' := by
  induction run with
  | done => rfl
  | fault f => rfl
  | event e rest ih => rw [weave, weave, ih () h]
  | output b rest ih =>
    simp only [outputs, List.mem_cons, forall_eq_or_imp] at h
    rw [weave, weave, h.1, ih () h.2]

end Run

theorem weave_putLabel {label : Option String} {run : Run Output} {next : Output → Journal} :
    (putLabel label run).weave next = run.weave fun out => next (out.labelIf label) := by
  cases label with
  | none => rfl
  | some name => exact Run.weave_map _ run

/-! ## Reading explores -/

/-- A way to expand elements goes through the journal that a way to explore them gives, on some path. -/
def Expansion.Explores (expand : Expansion n) (explore : Explorer n) (trace : Trace) : Prop :=
  ∀ here e input next, (expand here e trace input).fault? = none →
    (expand here e trace input).weave next = explore here e trace input next

section

variable {leniency : Leniency} {expand : Expansion n} {explore : Explorer n} {trace : Trace}

theorem Node.weave_readSequence {children : List (Node n)}
    (hchildren : ∀ child ∈ children, ∀ here input next,
      (Node.read leniency expand child here trace input).fault? = none →
      (Node.read leniency expand child here trace input).weave next =
        Node.explore leniency explore child here trace input next)
    (position : Nat) (here : Address) (acc : Output) (next : Output → Journal)
    (h : (Node.readSequence leniency expand children position here trace acc).fault? = none) :
    (Node.readSequence leniency expand children position here trace acc).weave next =
      Node.exploreSequence leniency explore children position here trace acc next := by
  induction children generalizing position acc with
  | nil =>
    rw [Node.readSequence, Node.exploreSequence]
    exact List.append_nil (next acc)
  | cons child rest ih =>
    obtain ⟨hchild, hrest⟩ := List.forall_mem_cons.1 hchildren
    rw [Node.readSequence] at h ⊢
    rw [Node.exploreSequence, Run.weave_bind h]
    -- the rest of the sequence ends well only after readings that the child does give
    obtain ⟨hfirst, hlater⟩ := Run.fault?_bind_eq_none.1 h
    rw [Run.weave_congr fun out hout => ih hrest (position + 1) (acc.merge position out) (hlater out hout)]
    exact hchild _ _ _ hfirst

theorem Node.weave_readChoice {children : List (Node n)} {input : Text} {next : Output → Journal}
    (hchildren : ∀ child ∈ children, ∀ here,
      (Node.read leniency expand child here trace input).fault? = none →
      (Node.read leniency expand child here trace input).weave next =
        Node.explore leniency explore child here trace input next)
    (position : Nat) (here : Address)
    (h : (Node.readChoice leniency expand children position here trace input).fault? = none) :
    (Node.readChoice leniency expand children position here trace input).weave next =
      Node.exploreChoice leniency explore children position here trace input next := by
  induction children generalizing position with
  | nil => rw [Node.readChoice, Node.exploreChoice, Run.weave]
  | cons child rest ih =>
    obtain ⟨hchild, hrest⟩ := List.forall_mem_cons.1 hchildren
    rw [Node.readChoice] at h ⊢
    obtain ⟨hfirst, hlater⟩ := Run.fault?_append_eq_none.1 h
    rw [Node.exploreChoice, Run.weave_append hfirst, hchild _ hfirst, ih hrest (position + 1) hlater]

theorem Node.weave_read (hexpand : expand.Explores explore trace) (node : Node n) (here : Address)
    (input : Text) (next : Output → Journal)
    (h : (Node.read leniency expand node here trace input).fault? = none) :
    (Node.read leniency expand node here trace input).weave next =
      Node.explore leniency explore node here trace input next := by
  induction node using Node.induction generalizing here input next with
  | literal label l =>
    rw [Node.read, Node.explore, Run.weave, Run.weave, weave_putLabel, Run.weave_ofOption]
    cases l.read? leniency input <;> rfl
  | sequence label children ih =>
    rw [Node.read] at h ⊢
    rw [Run.fault?, fault?_putLabel] at h
    rw [Node.explore, Run.weave, weave_putLabel, Node.weave_readSequence ih 0 here _ _ h]
  | choice label children ih =>
    rw [Node.read] at h ⊢
    rw [Run.fault?, fault?_putLabel] at h
    rw [Node.explore, Run.weave, weave_putLabel,
      Node.weave_readChoice (fun child hc here => ih child hc here input _) 0 here h]
  | element label e =>
    rw [Node.read] at h ⊢
    rw [Run.fault?, fault?_putLabel] at h
    rw [Node.explore, Run.weave, weave_putLabel, hexpand _ _ _ _ h]
  | nothing label => rw [Node.read, Node.explore, Run.weave, Run.weave]

end

section

variable {phrase : Phrase n} {props : Props} {out : Output} {next : Output → Journal}

theorem Phrase.weave_screen : (phrase.screen props out).weave next = phrase.filterOn props next out := by
  rw [Phrase.screen, Phrase.filterOn]
  cases phrase.accepts props out.result with
  | error f => rfl
  | ok accepted =>
    cases accepted with
    | true => exact List.append_nil (next out)
    | false => rfl

theorem Phrase.weave_revalue : (phrase.revalue props out).weave next = phrase.valueOn props next out := by
  rw [Phrase.revalue, Phrase.valueOn, Phrase.valueOf]
  cases phrase.value with
  | none => exact List.append_nil (next out)
  | some value =>
    dsimp only
    cases value props out.result with
    | error f => rfl
    | ok result => exact List.append_nil _

end

namespace Context

variable (ctx : Context n)

theorem weave_readDescription {expand : Expansion n} {explore : Explorer n} {inner : Trace}
    (hexpand : expand.Explores explore inner) (here : Address) (e : Element n) (description : Node n)
    (input : Text) (next : Output → Journal)
    (h : (ctx.readDescription expand here e description inner input).fault? = none) :
    (ctx.readDescription expand here e description inner input).weave next =
      Node.explore ctx.leniency explore description here.description inner input
        ((ctx.phrases e.phrase).filterOn e.props ((ctx.phrases e.phrase).valueOn e.props next)) := by
  unfold readDescription at h ⊢
  obtain ⟨hscreened, -⟩ := Run.fault?_bind_eq_none.1 h
  obtain ⟨hread, -⟩ := Run.fault?_bind_eq_none.1 hscreened
  rw [Run.weave_bind h, Run.weave_bind hscreened]
  simp only [Phrase.weave_revalue, Phrase.weave_screen]
  exact Node.weave_read hexpand _ _ _ _ hread

theorem weave_readSupplements {expand : Expansion n} {explore : Explorer n} {inner : Trace}
    (hexpand : expand.Explores explore inner) (e : Element n) (input : Text) (next : Output → Journal)
    (h : (ctx.readSupplements expand e inner input).fault? = none) :
    (ctx.readSupplements expand e inner input).weave next =
      (ctx.registry.supplementsFor (ctx.phrases e.phrase).identity).flatMap fun supplement =>
        Node.explore ctx.leniency explore supplement.node supplement.address inner input
          ((ctx.phrases e.phrase).filterOn e.props next) := by
  unfold readSupplements at h ⊢
  obtain ⟨hall, -⟩ := Run.fault?_bind_eq_none.1 h
  rw [Run.weave_bind h, Run.weave_ofList hall]
  simp only [Phrase.weave_screen]
  refine List.flatMap_congr fun supplement hsupplement => ?_
  exact Node.weave_read hexpand _ _ _ _ (Run.fault?_ofList_eq_none.1 hall supplement hsupplement)

/-- Expanding an element goes through the journal of exploring it, if this is so for the elements inside. -/
theorem explores_expandOnce {expand : Expansion n} {explore : Explorer n}
    (hexpand : ∀ trace, expand.Explores explore trace) (trace : Trace) :
    Expansion.Explores (ctx.expandOnce expand) (ctx.exploreOnce explore) trace := by
  intro here e input next h
  unfold expandOnce at h ⊢
  unfold exploreOnce
  by_cases hadmits : trace.admits (ctx.frame e.phrase input) = true
  · simp only [hadmits, if_true, Run.fault?, Run.weave] at h ⊢
    congr 1
    cases hoverride : ctx.registry.override? (ctx.phrases e.phrase).identity with
    | some replacement =>
      simp only [hoverride] at h ⊢
      exact Node.weave_read (hexpand _) _ _ _ _ h
    | none =>
      simp only [hoverride] at h ⊢
      cases hdescribe : (ctx.phrases e.phrase).describe e.props with
      | error f => simp [hdescribe, Run.fault?] at h
      | ok description =>
        simp only [hdescribe, Run.fault?, Run.weave] at h ⊢
        obtain ⟨hdescription, hsupplements⟩ := Run.fault?_append_eq_none.1 h
        rw [Run.weave_append hdescription, ctx.weave_readDescription (hexpand _) _ _ _ _ _ hdescription,
          ctx.weave_readSupplements (hexpand _) _ _ _ hsupplements]
  · simp only [hadmits, Bool.false_eq_true, if_false, Run.weave]

theorem explores_expandWithin (bound : Nat) (trace : Trace) :
    Expansion.Explores (ctx.expandWithin bound) (ctx.exploreWithin bound) trace := by
  induction bound generalizing trace with
  | zero => intro here e input next _; rfl
  | succ bound ih => exact ctx.explores_expandOnce ih trace

/-- **Reading goes through the journal of exploring.** -/
theorem weave_resolve {root : Placed n} {input : Text} (next : Output → Journal)
    (h : (ctx.resolve root input).fault? = none) :
    (ctx.resolve root input).weave next = ctx.explore root input next :=
  Node.weave_read (ctx.explores_expandWithin _ []) _ _ _ _ h

end Context

/-- The journal of a run that hands out its outputs. -/
def Run.log (run : Run Output) : Journal := run.weave fun out => [.found out]

/-- **A stream without limit goes through the journal of exploring.** -/
theorem Pass.log_unlimited {pass : Pass n} {input : Text} (h : (pass.unlimited input).fault? = none) :
    (pass.unlimited input).log = pass.explore input := by
  have hsentences := Pass.fault?_unlimited_eq_none.1 h
  have hall := (Run.fault?_bind_eq_none.1 h).1
  have hhandOut (out : Output) : (Pass.handOut out).weave (fun out => [.found out]) =
      if out.isComplete then [.event .emit, .found out] else [] := by
    rw [Pass.handOut]
    split <;> rfl
  rw [Run.log, Pass.unlimited, Run.weave_bind h, Run.weave_ofList hall, Pass.explore]
  simp only [hhandOut]
  exact List.flatMap_congr fun sentence hsentence =>
    pass.context.weave_resolve _ (hsentences sentence hsentence)

end Typeahead
