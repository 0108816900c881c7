import Mathlib.Data.List.Forall2
import Typeahead.Proofs.Derivation
import Typeahead.Proofs.Reading
import Typeahead.Proofs.Registry

/-!
# Grammars that are read alike

Two grammars may differ in something that reading does not look at: where their nodes stand, or the props of
phrases that are never expanded. A `Likeness` says what answers to what in them. One walk through a tree serves
every way to compare the runs of two such grammars (`Likeness.Composes.read`). Here runs go in step
(`Run.InStep`): the same course, with events at places that answer to each other and with outputs that do.
`Similar` says that what is decided in reading is decided alike, and `Similar.resolveTraced` concludes that
trees that are alike are read in step.
-/

namespace Typeahead

/-! ## Runs in step -/

namespace Run

variable {α β γ δ : Type} {event : Event → Event → Prop} {output : α → β → Prop}
  {output' : γ → δ → Prop}

/-- Two runs that take the same course, with related events and related outputs. -/
inductive InStep (event : Event → Event → Prop) (output : α → β → Prop) : Run α → Run β → Prop
  | done : InStep event output .done .done
  | fault (f : Fault) : InStep event output (.fault f) (.fault f)
  | event {e e' : Event} {rest : Unit → Run α} {rest' : Unit → Run β} : event e e' →
      InStep event output (rest ()) (rest' ()) → InStep event output (.event e rest) (.event e' rest')
  | output {a : α} {b : β} {rest : Unit → Run α} {rest' : Unit → Run β} : output a b →
      InStep event output (rest ()) (rest' ()) → InStep event output (.output a rest) (.output b rest')

theorem inStep_pure {a : α} {b : β} (h : output a b) : InStep event output (pure a) (pure b) := .output h .done

namespace InStep

variable {run : Run α} {run' : Run β}

theorem append (h : InStep event output run run') {next : Unit → Run α} {next' : Unit → Run β}
    (hnext : InStep event output (next ()) (next' ())) :
    InStep event output (run.append next) (run'.append next') := by
  induction h with
  | done => exact hnext
  | fault f => exact .fault f
  | event he _ ih => exact .event he ih
  | output ho _ ih => exact .output ho ih

theorem bind (h : InStep event output run run') {k : α → Run γ} {k' : β → Run δ}
    (hk : ∀ a b, output a b → InStep event output' (k a) (k' b)) :
    InStep event output' (run.bind k) (run'.bind k') := by
  induction h with
  | done => exact .done
  | fault f => exact .fault f
  | event he _ ih => exact .event he ih
  | output ho _ ih => exact (hk _ _ ho).append ih

theorem take (h : InStep event output run run') (count : Nat) :
    InStep event output (run.take count) (run'.take count) := by
  induction h generalizing count with
  | done => cases count <;> exact .done
  | fault f =>
    cases count with
    | zero => exact .done
    | succ count => exact .fault f
  | event he _ ih =>
    cases count with
    | zero => exact .done
    | succ count => exact .event he (ih (count + 1))
  | output ho _ ih =>
    cases count with
    | zero => exact .done
    | succ count => exact .output ho (ih count)

/-- Runs in step show related events and related outputs, and end alike. -/
theorem views (h : InStep event output run run') :
    List.Forall₂ event run.events run'.events ∧ List.Forall₂ output run.outputs run'.outputs ∧
      run.fault? = run'.fault? := by
  induction h with
  | done => exact ⟨.nil, .nil, rfl⟩
  | fault f => exact ⟨.nil, .nil, rfl⟩
  | event he _ ih => exact ⟨.cons he ih.1, ih.2.1, ih.2.2⟩
  | output ho _ ih => exact ⟨ih.1, .cons ho ih.2.1, ih.2.2⟩

theorem drain_eq {run run' : Run α} (h : InStep event Eq run run') (progress progress' : Progress) :
    (run.drain progress).1 = (run'.drain progress').1 := by
  obtain ⟨-, houtputs, hfault⟩ := h.views
  rw [List.forall₂_eq_eq_eq] at houtputs
  rw [drain, drain, drainOnto_outcome, drainOnto_outcome, hfault, houtputs]

theorem eq (hevent : ∀ e e', event e e' → e = e') {run run' : Run α} (h : InStep event Eq run run') :
    run = run' := by
  induction h with
  | done => rfl
  | fault f => rfl
  | event he _ ih => exact congrArg₂ Run.event (hevent _ _ he) (funext fun _ => ih)
  | output ho _ ih => exact congrArg₂ Run.output ho (funext fun _ => ih)

end InStep

theorem inStep_ofList {items : List γ} {items' : List δ} {run : γ → Run α} {run' : δ → Run β}
    (h : List.Forall₂ (fun item item' => InStep event output (run item) (run' item')) items items') :
    InStep event output (ofList items run) (ofList items' run') := by
  induction h with
  | nil => exact .done
  | cons hitem _ ih => exact hitem.append ih

end Run

/-- The same thing happens, at places that answer to each other. -/
inductive Event.Alike (place : Address → Address → Prop) : Event → Event → Prop
  | visit {here there : Address} : place here there → Alike place (.visit here) (.visit there)
  | describe {here there : Address} : place here there → Alike place (.describe here) (.describe there)
  | enter (path : Trace) : Alike place (.enter path) (.enter path)
  | attempt : Alike place .attempt .attempt
  | prune : Alike place .prune .prune
  | reject : Alike place .reject .reject
  | emit : Alike place .emit .emit

theorem Event.Alike.eq (e e' : Event) (h : Alike Eq e e') : e = e' := by
  cases h with
  | visit h => rw [h]
  | describe h => rw [h]
  | _ => rfl

/-! ## What answers to what -/

variable {n : Nat}

/-- What answers to what in two grammars. -/
structure Likeness (n : Nat) where
  place : Address → Address → Prop := Eq
  label : Option String → Option String → Prop := Eq
  literal : Literal → Literal → Prop := Eq
  element : Element n → Element n → Prop := Eq
  output : Output → Output → Prop := Eq

/-- Trees of one shape, whose parts answer to each other. -/
inductive Node.Alike (like : Likeness n) : Node n → Node n → Prop
  | literal {label label' l l'} : like.label label label' → like.literal l l' →
      Alike like (.literal label l) (.literal label' l')
  | sequence {label label' children children'} : like.label label label' →
      List.Forall₂ (Alike like) children children' →
      Alike like (.sequence label children) (.sequence label' children')
  | choice {label label' children children'} : like.label label label' →
      List.Forall₂ (Alike like) children children' →
      Alike like (.choice label children) (.choice label' children')
  | element {label label' e e'} : like.label label label' → like.element e e' →
      Alike like (.element label e) (.element label' e')
  | nothing {label label'} : like.label label label' → Alike like (.nothing label) (.nothing label')

theorem Node.alike_self {like : Likeness n} (hlabel : ∀ label, like.label label label)
    (hliteral : ∀ l, like.literal l l) (helement : ∀ e, like.element e e) (node : Node n) :
    node.Alike like node := by
  induction node using Node.induction with
  | literal label l => exact .literal (hlabel label) (hliteral l)
  | sequence label children ih => exact .sequence (hlabel label) (List.forall₂_same.2 ih)
  | choice label children ih => exact .choice (hlabel label) (List.forall₂_same.2 ih)
  | element label e => exact .element (hlabel label) (helement e)
  | nothing label => exact .nothing (hlabel label)

/-- Trees that are alike, at places that answer to each other. -/
structure Placed.Alike (like : Likeness n) (placed placed' : Placed n) : Prop where
  address : like.place placed.address placed'.address
  node : placed.node.Alike like placed'.node

/-- As extensions, elements that answer to each other name the same identities if their phrases do. -/
theorem Placed.Alike.targets_eq {like : Likeness n} {book book' : Phrasebook n}
    (htargets : ∀ {e e'}, like.element e e' →
      (book e.phrase).supplements = (book' e'.phrase).supplements ∧
        (book e.phrase).overrides = (book' e'.phrase).overrides)
    {placed placed' : Placed n} (h : placed.Alike like placed') :
    placed.supplements book = placed'.supplements book' ∧ placed.overrides book = placed'.overrides book' := by
  obtain ⟨-, hnode⟩ := h
  rw [Placed.supplements, Placed.supplements, Placed.overrides, Placed.overrides]
  generalize placed.node = node at hnode ⊢
  generalize placed'.node = node' at hnode ⊢
  cases hnode with
  | element hlabel he => exact htargets he
  | _ => exact ⟨rfl, rfl⟩

theorem rel_self {α : Type} {rel : α → α → Prop} (h : ∀ a, rel a a) (option : Option α) :
    Option.Rel rel option option := by
  cases option with
  | none => exact .none
  | some a => exact .some (h a)

/-- The same fault, or related results. -/
inductive SameOutcome {α β : Type} (rel : α → β → Prop) : Except Fault α → Except Fault β → Prop
  | error (f : Fault) : SameOutcome rel (.error f) (.error f)
  | ok {a : α} {b : β} : rel a b → SameOutcome rel (.ok a) (.ok b)

theorem sameOutcome_self {α : Type} {rel : α → α → Prop} (h : ∀ a, rel a a) (outcome : Except Fault α) :
    SameOutcome rel outcome outcome := by
  cases outcome with
  | error f => exact .error f
  | ok a => exact .ok (h a)

/-! ## Comparing runs -/

/-- A way to compare runs that goes along with how they are put together. -/
structure Likeness.Compares (like : Likeness n) (runs : Run Output → Run Output → Prop) : Prop where
  done : runs .done .done
  pure : ∀ {out out'}, like.output out out' → runs (Run.pure out) (Run.pure out')
  event : ∀ {e e'} {rest rest' : Unit → Run Output}, Event.Alike like.place e e' → runs (rest ()) (rest' ()) →
    runs (.event e rest) (.event e' rest')
  append : ∀ {run run'} {next next' : Unit → Run Output}, runs run run' → runs (next ()) (next' ()) →
    runs (run.append next) (run'.append next')
  bind : ∀ {run run'} {k k' : Output → Run Output}, runs run run' →
    (∀ out out', like.output out out' → runs (k out) (k' out')) → runs (run.bind k) (run'.bind k')

/-- Outputs that answer to each other are made of such outputs, and leave the same to read. -/
structure Likeness.Composes (like : Likeness n) (runs : Run Output → Run Output → Prop)
    (leniency leniency' : Leniency) : Prop where
  literal : ∀ {l l'} (input), like.literal l l' →
    runs (Run.ofOption (l.read? leniency input)) (Run.ofOption (l'.read? leniency' input))
  label : ∀ {label label' out out'}, like.label label label' → like.output out out' →
    like.output (out.labelIf label) (out'.labelIf label')
  seed : ∀ input, like.output (Output.seed input) (Output.seed input)
  merge : ∀ {acc acc' out out'} (position), like.output acc acc' → like.output out out' →
    like.output (acc.merge position out) (acc'.merge position out')
  remaining : ∀ {out out'}, like.output out out' → out.remaining = out'.remaining
  down : ∀ {here there} (step), like.place here there → like.place (here.down step) (there.down step)

theorem Run.map_eq_bind {α β : Type} (f : α → β) (run : Run α) :
    run.map f = run.bind fun a => Run.pure (f a) := by
  induction run with
  | done => rfl
  | fault f => rfl
  | event e rest ih => exact congrArg (Run.event e) (funext fun _ => ih ())
  | output a rest ih => exact congrArg (Run.output (f a)) (funext fun _ => ih ())

theorem Run.bind_pure {α : Type} (run : Run α) : run.bind Run.pure = run := by
  induction run with
  | done => rfl
  | fault f => rfl
  | event e rest ih => exact congrArg (Run.event e) (funext fun _ => ih ())
  | output a rest ih => exact congrArg (Run.output a) (funext fun _ => ih ())

theorem putLabel_eq_bind (label : Option String) (run : Run Output) :
    putLabel label run = run.bind fun out => Run.pure (out.labelIf label) := by
  cases label with
  | none => exact run.bind_pure.symm
  | some name => exact Run.map_eq_bind (·.label name) run

namespace Likeness

variable {like : Likeness n} {runs : Run Output → Run Output → Prop} {leniency leniency' : Leniency}

theorem Composes.putLabel (h : like.Composes runs leniency leniency') (hruns : like.Compares runs)
    {label label' : Option String} (hlabel : like.label label label') {run run' : Run Output}
    (hrun : runs run run') : runs (putLabel label run) (putLabel label' run') := by
  rw [putLabel_eq_bind, putLabel_eq_bind]
  exact hruns.bind hrun fun _ _ hout => hruns.pure (h.label hlabel hout)

section

variable {expand expand' : Expansion n} {trace trace' : Trace}

theorem Composes.readSequence (h : like.Composes runs leniency leniency') (hruns : like.Compares runs)
    {children children' : List (Node n)} (hchildren : List.Forall₂ (Node.Alike like) children children')
    (hread : ∀ child ∈ children, ∀ {child' here there} input, child.Alike like child' →
      like.place here there → runs (Node.read leniency expand child here trace input)
        (Node.read leniency' expand' child' there trace' input))
    (position : Nat) {here there : Address} (hplace : like.place here there) {acc acc' : Output}
    (hacc : like.output acc acc') :
    runs (Node.readSequence leniency expand children position here trace acc)
      (Node.readSequence leniency' expand' children' position there trace' acc') := by
  induction hchildren generalizing position acc acc' with
  | nil =>
    rw [Node.readSequence, Node.readSequence]
    exact hruns.pure hacc
  | cons hchild _ ih =>
    rw [List.forall_mem_cons] at hread
    rw [Node.readSequence, Node.readSequence, h.remaining hacc]
    refine hruns.bind (hread.1 _ hchild (h.down _ hplace)) fun out out' hout => ?_
    exact ih hread.2 _ (h.merge position hacc hout)

theorem Composes.readChoice (h : like.Composes runs leniency leniency') (hruns : like.Compares runs)
    {children children' : List (Node n)} (hchildren : List.Forall₂ (Node.Alike like) children children')
    (hread : ∀ child ∈ children, ∀ {child' here there} input, child.Alike like child' →
      like.place here there → runs (Node.read leniency expand child here trace input)
        (Node.read leniency' expand' child' there trace' input))
    (position : Nat) {here there : Address} (hplace : like.place here there) (input : Text) :
    runs (Node.readChoice leniency expand children position here trace input)
      (Node.readChoice leniency' expand' children' position there trace' input) := by
  induction hchildren generalizing position with
  | nil =>
    rw [Node.readChoice, Node.readChoice]
    exact hruns.done
  | cons hchild _ ih =>
    rw [List.forall_mem_cons] at hread
    rw [Node.readChoice, Node.readChoice]
    exact hruns.append (hread.1 input hchild (h.down _ hplace)) (ih hread.2 _)

/-- **Trees that are alike compare,** if the elements in them do. -/
theorem Composes.read (h : like.Composes runs leniency leniency') (hruns : like.Compares runs)
    (hexpand : ∀ {here there e e'} input, like.place here there → like.element e e' →
      runs (expand here e trace input) (expand' there e' trace' input))
    {node node' : Node n} {here there : Address} (input : Text) (hnode : node.Alike like node')
    (hplace : like.place here there) :
    runs (Node.read leniency expand node here trace input)
      (Node.read leniency' expand' node' there trace' input) := by
  induction node using Node.induction generalizing node' here there input with
  | literal label l =>
    cases hnode with
    | literal hlabel hl =>
      rw [Node.read, Node.read]
      refine hruns.event (.visit hplace) (hruns.event .attempt ?_)
      exact h.putLabel hruns hlabel (h.literal input hl)
  | sequence label children ih =>
    cases hnode with
    | sequence hlabel hchildren =>
      rw [Node.read, Node.read]
      refine hruns.event (.visit hplace) (h.putLabel hruns hlabel ?_)
      exact h.readSequence hruns hchildren ih 0 hplace (h.seed input)
  | choice label children ih =>
    cases hnode with
    | choice hlabel hchildren =>
      rw [Node.read, Node.read]
      refine hruns.event (.visit hplace) (h.putLabel hruns hlabel ?_)
      exact h.readChoice hruns hchildren ih 0 hplace input
  | element label e =>
    cases hnode with
    | element hlabel he =>
      rw [Node.read, Node.read]
      exact hruns.event (.visit hplace) (h.putLabel hruns hlabel (hexpand input hplace he))
  | nothing label =>
    cases hnode with
    | nothing hlabel =>
      rw [Node.read, Node.read]
      exact hruns.event (.visit hplace) hruns.done

end

abbrev InStep (like : Likeness n) (run run' : Run Output) : Prop :=
  Run.InStep (Event.Alike like.place) like.output run run'

theorem compares_inStep (like : Likeness n) : like.Compares like.InStep where
  done := .done
  pure := Run.inStep_pure
  event := .event
  append h hnext := h.append hnext
  bind h hk := h.bind hk

end Likeness

/-! ## Reading in step -/

/-- What answers to each other is treated alike. Of phrases that something stands in for, only the identity
matters. -/
structure Similar (like : Likeness n) (ctx ctx' : Context n) : Prop
    extends like.Composes like.InStep ctx.leniency ctx'.leniency where
  identity : ∀ {e e'}, like.element e e' → (ctx.phrases e.phrase).identity = (ctx'.phrases e'.phrase).identity
  override : ∀ {e e'}, like.element e e' →
    Option.Rel (Placed.Alike like) (ctx.registry.override? (ctx.phrases e.phrase).identity)
      (ctx'.registry.override? (ctx'.phrases e'.phrase).identity)
  describe : ∀ {e e'}, like.element e e' → ctx.registry.override? (ctx.phrases e.phrase).identity = none →
    SameOutcome (Node.Alike like) ((ctx.phrases e.phrase).describe e.props)
      ((ctx'.phrases e'.phrase).describe e'.props)
  screen : ∀ {e e' out out'}, like.element e e' →
    ctx.registry.override? (ctx.phrases e.phrase).identity = none → like.output out out' →
    like.InStep ((ctx.phrases e.phrase).screen e.props out) ((ctx'.phrases e'.phrase).screen e'.props out')
  revalue : ∀ {e e' out out'}, like.element e e' →
    ctx.registry.override? (ctx.phrases e.phrase).identity = none → like.output out out' →
    like.InStep ((ctx.phrases e.phrase).revalue e.props out) ((ctx'.phrases e'.phrase).revalue e'.props out')
  supplements : ∀ {e e'}, like.element e e' →
    ctx.registry.override? (ctx.phrases e.phrase).identity = none →
    List.Forall₂ (Placed.Alike like) (ctx.registry.supplementsFor (ctx.phrases e.phrase).identity)
      (ctx'.registry.supplementsFor (ctx'.phrases e'.phrase).identity)

namespace Similar

variable {like : Likeness n} {ctx ctx' : Context n}

theorem frame_eq (h : Similar like ctx ctx') {e e' : Element n} (he : like.element e e') (input : Text) :
    ctx.frame e.phrase input = ctx'.frame e'.phrase input := by
  rw [Context.frame, Context.frame, h.identity he]

theorem readDescription (h : Similar like ctx ctx') {expand expand' : Expansion n} {trace : Trace}
    (hexpand : ∀ {here there e e'} input, like.place here there → like.element e e' →
      like.InStep (expand here e trace input) (expand' there e' trace input))
    {here there : Address} (hplace : like.place here there) {e e' : Element n} (he : like.element e e')
    (hnone : ctx.registry.override? (ctx.phrases e.phrase).identity = none) {description description' : Node n}
    (hdescription : description.Alike like description') (input : Text) :
    like.InStep (ctx.readDescription expand here e description trace input)
      (ctx'.readDescription expand' there e' description' trace input) := by
  have hread := h.read like.compares_inStep hexpand input hdescription (h.down .description hplace)
  exact (hread.bind fun _ _ => h.screen he hnone).bind fun _ _ => h.revalue he hnone

theorem readSupplements (h : Similar like ctx ctx') {expand expand' : Expansion n} {trace : Trace}
    (hexpand : ∀ {here there e e'} input, like.place here there → like.element e e' →
      like.InStep (expand here e trace input) (expand' there e' trace input))
    {e e' : Element n} (he : like.element e e')
    (hnone : ctx.registry.override? (ctx.phrases e.phrase).identity = none) (input : Text) :
    like.InStep (ctx.readSupplements expand e trace input) (ctx'.readSupplements expand' e' trace input) := by
  have hread := (h.supplements he hnone).imp fun supplement supplement' halike =>
    h.read like.compares_inStep hexpand input halike.node halike.address
  exact (Run.inStep_ofList hread).bind fun _ _ => h.screen he hnone

theorem expandOnce (h : Similar like ctx ctx') {expand expand' : Expansion n}
    (hexpand : ∀ {here there e e'} trace input, like.place here there → like.element e e' →
      like.InStep (expand here e trace input) (expand' there e' trace input))
    {here there : Address} (hplace : like.place here there) {e e' : Element n} (he : like.element e e')
    (trace : Trace) (input : Text) :
    like.InStep (ctx.expandOnce expand here e trace input) (ctx'.expandOnce expand' there e' trace input) := by
  have hinner {here there : Address} {e₁ e₂ : Element n} :=
    @hexpand here there e₁ e₂ (ctx'.frame e'.phrase input :: trace)
  have hoverride := h.override he
  unfold Context.expandOnce
  rw [h.frame_eq he]
  split
  · refine .event (.enter _) ?_
    generalize hnone : ctx.registry.override? (ctx.phrases e.phrase).identity = replaced at hoverride ⊢
    generalize ctx'.registry.override? (ctx'.phrases e'.phrase).identity = replaced' at hoverride ⊢
    cases hoverride with
    | some halike => exact h.read like.compares_inStep hinner input halike.node halike.address
    | none =>
      have hdescribe := h.describe he hnone
      generalize (ctx.phrases e.phrase).describe e.props = described at hdescribe ⊢
      generalize (ctx'.phrases e'.phrase).describe e'.props = described' at hdescribe ⊢
      cases hdescribe with
      | error f => exact .fault f
      | ok hdescription =>
        refine .event (.describe hplace) (.append ?_ ?_)
        · exact h.readDescription hinner hplace he hnone hdescription input
        · exact h.readSupplements hinner he hnone input
  · exact .event .prune .done

theorem expandWithin (h : Similar like ctx ctx') (bound : Nat) {here there : Address}
    (hplace : like.place here there) {e e' : Element n} (he : like.element e e') (trace : Trace)
    (input : Text) :
    like.InStep (ctx.expandWithin bound here e trace input) (ctx'.expandWithin bound there e' trace input) := by
  induction bound generalizing here there e e' trace input with
  | zero => exact .done
  | succ bound ih =>
    exact h.expandOnce (fun trace input hplace he => ih hplace he trace input) hplace he trace input

/-- **Trees that are alike are read in step.** -/
theorem resolveTraced (h : Similar like ctx ctx') {placed placed' : Placed n}
    (hplaced : placed.Alike like placed') (trace : Trace) (input : Text) :
    like.InStep (ctx.resolveTraced placed trace input) (ctx'.resolveTraced placed' trace input) :=
  h.read like.compares_inStep (fun input hplace he => h.expandWithin _ hplace he trace input) input hplaced.node
    hplaced.address

end Similar

/-! ## Equal outputs -/

section

variable {place : Address → Address → Prop}

theorem Likeness.composes_eq {element : Element n → Element n → Prop} {runs : Run Output → Run Output → Prop}
    (hruns : Likeness.Compares { place, element } runs)
    (hdown : ∀ {here there} (step), place here there → place (here.down step) (there.down step))
    (leniency : Leniency) : Likeness.Composes { place, element } runs leniency leniency where
  literal {l l'} input h := by
    cases h
    cases l.read? leniency input with
    | none => exact hruns.done
    | some out => exact hruns.pure rfl
  label h h' := by rw [h, h']
  seed _ := rfl
  merge _ h h' := by rw [h, h']
  remaining h := by rw [h]
  down := hdown

/-- Only rejecting happens while a result is screened, wherever that is. -/
theorem Phrase.inStep_screen (phrase : Phrase n) (props : Props) (out : Output) :
    Run.InStep (Event.Alike place) Eq (phrase.screen props out) (phrase.screen props out) := by
  unfold Phrase.screen
  split
  · exact Run.inStep_pure rfl
  · exact .event .reject .done
  · exact .fault _

theorem Phrase.inStep_revalue (phrase : Phrase n) (props : Props) (out : Output) :
    Run.InStep (Event.Alike place) Eq (phrase.revalue props out) (phrase.revalue props out) := by
  unfold Phrase.revalue
  split
  · exact Run.inStep_pure rfl
  · split
    · exact Run.inStep_pure rfl
    · exact .fault _

end

/-- Contexts of the same phrases, whose extensions may stand elsewhere. -/
theorem Similar.of_registry {place : Address → Address → Prop}
    (hdown : ∀ {here there} (step), place here there → place (here.down step) (there.down step))
    {ctx ctx' : Context n} (hphrases : ctx.phrases = ctx'.phrases) (hleniency : ctx.leniency = ctx'.leniency)
    (hoverride : ∀ identity, Option.Rel (Placed.Alike { place }) (ctx.registry.override? identity)
      (ctx'.registry.override? identity))
    (hsupplements : ∀ identity, List.Forall₂ (Placed.Alike { place }) (ctx.registry.supplementsFor identity)
      (ctx'.registry.supplementsFor identity)) : Similar { place } ctx ctx' where
  toComposes := hleniency ▸ Likeness.composes_eq (Likeness.compares_inStep _) hdown ctx.leniency
  identity := by
    rintro e _ rfl
    rw [hphrases]
  override := by
    rintro e _ rfl
    rw [hphrases]
    exact hoverride _
  describe := by
    rintro e _ rfl -
    rw [hphrases]
    exact sameOutcome_self (Node.alike_self (fun _ => rfl) (fun _ => rfl) fun _ => rfl) _
  screen := by
    rintro e _ out _ rfl - rfl
    rw [hphrases]
    exact Phrase.inStep_screen _ _ _
  revalue := by
    rintro e _ out _ rfl - rfl
    rw [hphrases]
    exact Phrase.inStep_revalue _ _ _
  supplements := by
    rintro e _ rfl -
    rw [hphrases]
    exact hsupplements _

/-- Phrases that differ at most in the identities they name as extensions. -/
structure Phrase.SameUse (phrase phrase' : Phrase n) : Prop where
  identity : phrase.identity = phrase'.identity
  describe : phrase.describe = phrase'.describe
  screen : phrase.screen = phrase'.screen
  revalue : phrase.revalue = phrase'.revalue

/-- **Grammars that look the same are read the same.** What is added to a phrase that something stands in for
does not matter. -/
theorem Context.resolveTraced_congr {ctx ctx' : Context n} (hleniency : ctx.leniency = ctx'.leniency)
    (hphrase : ∀ phrase, (ctx.phrases phrase).SameUse (ctx'.phrases phrase))
    (hoverride : ∀ identity, ctx.registry.override? identity = ctx'.registry.override? identity)
    (hsupplements : ∀ identity, ctx.registry.override? identity = none →
      ctx.registry.supplementsFor identity = ctx'.registry.supplementsFor identity)
    (placed : Placed n) (trace : Trace) (input : Text) :
    ctx.resolveTraced placed trace input = ctx'.resolveTraced placed trace input := by
  have hnode (node : Node n) : node.Alike {} node :=
    Node.alike_self (fun _ => rfl) (fun _ => rfl) (fun _ => rfl) node
  have hplaced (placed : Placed n) : placed.Alike {} placed := ⟨rfl, hnode _⟩
  have hsimilar : Similar {} ctx ctx' :=
    { toComposes := hleniency ▸ Likeness.composes_eq (Likeness.compares_inStep _)
        (fun step h => congrArg (·.down step) h) ctx.leniency
      identity := by
        rintro e _ rfl
        exact (hphrase e.phrase).identity
      override := by
        rintro e _ rfl
        rw [← (hphrase e.phrase).identity, ← hoverride]
        exact rel_self hplaced _
      describe := by
        rintro e _ rfl -
        rw [(hphrase e.phrase).describe]
        exact sameOutcome_self hnode _
      screen := by
        rintro e _ out _ rfl - rfl
        rw [(hphrase e.phrase).screen]
        exact Phrase.inStep_screen _ _ _
      revalue := by
        rintro e _ out _ rfl - rfl
        rw [(hphrase e.phrase).revalue]
        exact Phrase.inStep_revalue _ _ _
      supplements := by
        rintro e _ rfl hnone
        rw [← (hphrase e.phrase).identity, ← hsupplements _ hnone]
        exact List.forall₂_same.2 fun placed _ => hplaced placed }
  exact (hsimilar.resolveTraced (hplaced placed) trace input).eq Event.Alike.eq

end Typeahead
