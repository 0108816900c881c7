import Mathlib.Data.Multiset.Bind
import Typeahead.Proofs.Enumeration
import Typeahead.Proofs.Memory
import Typeahead.Proofs.Pass
import Typeahead.Proofs.Unfolding

/-!
# Grammars that can be written in other ways

A choice in a choice can be spliced into it, a choice in a sequence can be made before the sequence is begun, and
sentences can be made alternatives of one. Where nodes stand shows in the events of a reading only. So readings are
compared without their events (`Run.mute`), and without regard to addresses: what is gathered from a node
(`Context.gather`) comes down to what is gathered from its children, and the laws of joining runs do the rest. Two of
the ways keep the order of the readings, anywhere in a tree (`Node.Rewrites.sameOutputs`); a choice at a later
position of a sequence changes it (`Context.perm_outputs_distribute`). Main statement: `refactoring_keeps_readings`.
-/

namespace Typeahead

variable {n : Nat}

namespace Run

variable {α β γ : Type}

/-! ## Runs without their events -/

/-- The run with all events left out. -/
def mute : Run α → Run α
  | .done => .done
  | .fault f => .fault f
  | .event _ rest => (rest ()).mute
  | .output a rest => .output a fun _ => (rest ()).mute

/-- The same outputs in the same order, and the same fault if one ends them. -/
def SameOutputs (run run' : Run α) : Prop := run.outputs = run'.outputs ∧ run.fault? = run'.fault?

@[simp] theorem outputs_mute (run : Run α) : run.mute.outputs = run.outputs := by
  induction run with
  | done => rfl
  | fault f => rfl
  | event e rest ih => exact ih ()
  | output a rest ih => exact congrArg (a :: ·) (ih ())

@[simp] theorem fault?_mute (run : Run α) : run.mute.fault? = run.fault? := by
  induction run with
  | done => rfl
  | fault f => rfl
  | event e rest ih => exact ih ()
  | output a rest ih => exact ih ()

theorem sameOutputs_of_mute_eq {run run' : Run α} (h : run.mute = run'.mute) : run.SameOutputs run' := by
  constructor
  · rw [← outputs_mute, h, outputs_mute]
  · rw [← fault?_mute, h, fault?_mute]

@[simp] theorem mute_append (run : Run α) (next : Unit → Run α) :
    (run.append next).mute = run.mute.append fun _ => (next ()).mute := by
  induction run with
  | done => rfl
  | fault f => rfl
  | event e rest ih => exact ih ()
  | output a rest ih => exact congrArg (Run.output a) (funext fun _ => ih ())

@[simp] theorem mute_bind (run : Run α) (k : α → Run β) :
    (run.bind k).mute = run.mute.bind fun a => (k a).mute := by
  induction run with
  | done => rfl
  | fault f => rfl
  | event e rest ih => exact ih ()
  | output a rest ih => simp only [bind, mute, mute_append, ih ()]

@[simp] theorem mute_ofList (items : List β) (run : β → Run α) :
    (ofList items run).mute = ofList items fun item => (run item).mute := by
  induction items with
  | nil => rfl
  | cons item rest ih => simp only [ofList, mute_append, ih]

@[simp] theorem mute_take (run : Run α) (count : Nat) : (run.take count).mute = run.mute.take count := by
  induction run generalizing count with
  | done => cases count <;> rfl
  | fault f => cases count <;> rfl
  | event e rest ih =>
    cases count with
    | zero => rw [take_zero, take_zero, mute]
    | succ count => exact ih () (count + 1)
  | output a rest ih =>
    cases count with
    | zero => rfl
    | succ count => exact congrArg (Run.output a) (funext fun _ => ih () count)

/-- In runs in step the same outputs stand between events. -/
theorem InStep.mute_eq {event : Event → Event → Prop} {run run' : Run α} (h : InStep event Eq run run') :
    run.mute = run'.mute := by
  induction h with
  | done => rfl
  | fault f => rfl
  | event _ _ ih => exact ih
  | output ho _ ih => exact congrArg₂ Run.output ho (funext fun _ => ih)

/-! ## Choosing in another order -/

section

variable {run : Run α} {items : List γ} {k : γ → α → Run β}

/-- Whether first one of the items or first an output is chosen makes no difference to a fault, if there are
items. -/
theorem fault?_bind_ofList_eq_none (hitems : items ≠ []) :
    (run.bind fun a => ofList items fun item => k item a).fault? = none ↔
      (ofList items fun item => run.bind (k item)).fault? = none := by
  obtain ⟨item, hitem⟩ := List.exists_mem_of_ne_nil items hitems
  simp only [fault?_bind_eq_none, fault?_ofList_eq_none]
  constructor
  · rintro ⟨hrun, hk⟩ item hitem
    exact ⟨hrun, fun a ha => hk a ha item hitem⟩
  · intro h
    exact ⟨(h item hitem).1, fun a ha item hitem => (h item hitem).2 a ha⟩

/-- If first one of the items is chosen, and then an output, the same comes out in another order. -/
theorem perm_outputs_bind_ofList (h : (run.bind fun a => ofList items fun item => k item a).fault? = none) :
    (ofList items fun item => run.bind (k item)).fault? = none ∧
      (run.bind fun a => ofList items fun item => k item a).outputs.Perm
        (ofList items fun item => run.bind (k item)).outputs := by
  obtain ⟨hrun, hk⟩ := fault?_bind_eq_none.1 h
  have hother : (ofList items fun item => run.bind (k item)).fault? = none :=
    fault?_ofList_eq_none.2 fun item hitem =>
      fault?_bind_eq_none.2 ⟨hrun, fun a ha => fault?_ofList_eq_none.1 (hk a ha) item hitem⟩
  refine ⟨hother, ?_⟩
  rw [outputs_bind h, outputs_ofList hother, ← Multiset.coe_eq_coe]
  calc ((run.outputs.flatMap fun a => (ofList items fun item => k item a).outputs : List β) : Multiset β)
      = (run.outputs.flatMap fun a => items.flatMap fun item => (k item a).outputs : List β) :=
        congrArg _ (List.flatMap_congr fun a ha => outputs_ofList (hk a ha))
    _ = (items.flatMap fun item => run.outputs.flatMap fun a => (k item a).outputs : List β) := by
        simp only [← Multiset.coe_bind]
        exact Multiset.bind_bind _ _
    _ = (items.flatMap fun item => (run.bind (k item)).outputs : List β) :=
        congrArg _ (List.flatMap_congr fun item hitem =>
          (outputs_bind (fault?_ofList_eq_none.1 hother item hitem)).symm)

end

end Run

/-! ## Reading with no regard to where nodes stand -/

/-- Nodes answer to each other wherever they stand. -/
abbrev Likeness.anywhere : Likeness n := { place := fun _ _ => True }

theorem Node.alike_anywhere (node : Node n) : node.Alike .anywhere node :=
  Node.alike_self (fun _ => rfl) (fun _ => rfl) (fun _ => rfl) node

namespace Context

variable (ctx : Context n)

theorem similar_anywhere : Similar .anywhere ctx ctx := by
  have hplaced (placed : Placed n) : placed.Alike .anywhere placed := ⟨trivial, placed.node.alike_anywhere⟩
  refine .of_registry (fun _ _ => trivial) rfl rfl (fun identity => rel_self hplaced _) fun identity => ?_
  exact List.forall₂_same.2 fun placed _ => hplaced placed

/-- All readings of input as a node, without the events on the way. -/
def gather (node : Node n) (trace : Trace) (input : Text) : Run Output :=
  (ctx.read node ⟨0, []⟩ trace input).mute

/-- Thread what is left of the input through nodes from a position on. -/
def gatherSequence (trace : Trace) : List (Node n) → Nat → Output → Run Output
  | [], _, acc => .pure acc
  | node :: rest, position, acc =>
    (ctx.gather node trace acc.remaining).bind fun out =>
      gatherSequence trace rest (position + 1) (acc.merge position out)

variable {ctx} {trace : Trace} {input : Text}

theorem mute_read (node : Node n) (here : Address) :
    (ctx.read node here trace input).mute = ctx.gather node trace input := by
  have hplaced : Placed.Alike .anywhere ⟨here, node⟩ ⟨⟨0, []⟩, node⟩ := ⟨trivial, node.alike_anywhere⟩
  have hstep := ctx.similar_anywhere.resolveTraced hplaced trace input
  rw [resolveTraced_eq, resolveTraced_eq] at hstep
  exact hstep.mute_eq

theorem mute_resolveTraced (placed : Placed n) :
    (ctx.resolveTraced placed trace input).mute = ctx.gather placed.node trace input := by
  rw [resolveTraced_eq, mute_read]

theorem mute_putLabel (label : Option String) (run : Run Output) :
    (putLabel label run).mute = putLabel label run.mute := by
  rw [putLabel_eq_bind, putLabel_eq_bind, Run.mute_bind]
  rfl

theorem mute_readSequence (children : List (Node n)) (position : Nat) (here : Address) (acc : Output) :
    (Node.readSequence ctx.leniency ctx.expand children position here trace acc).mute =
      ctx.gatherSequence trace children position acc := by
  induction children generalizing position acc with
  | nil =>
    rw [Node.readSequence]
    rfl
  | cons child rest ih => simp only [Node.readSequence, Run.mute_bind, mute_read, ih, gatherSequence]

theorem mute_readChoice (children : List (Node n)) (position : Nat) (here : Address) :
    (Node.readChoice ctx.leniency ctx.expand children position here trace input).mute =
      Run.ofList children fun child => ctx.gather child trace input := by
  induction children generalizing position with
  | nil =>
    rw [Node.readChoice]
    rfl
  | cons child rest ih => simp only [Node.readChoice, Run.mute_append, mute_read, ih, Run.ofList]

theorem gather_choice (label : Option String) (children : List (Node n)) :
    ctx.gather (.choice label children) trace input =
      putLabel label (Run.ofList children fun child => ctx.gather child trace input) := by
  simp only [gather, read, Node.read, Run.mute, mute_putLabel, mute_readChoice]

theorem gather_sequence (label : Option String) (children : List (Node n)) :
    ctx.gather (.sequence label children) trace input =
      putLabel label (ctx.gatherSequence trace children 0 (Output.seed input)) := by
  simp only [gather, read, Node.read, Run.mute, mute_putLabel, mute_readSequence]

theorem gatherSequence_append (before after : List (Node n)) (position : Nat) (acc : Output) :
    ctx.gatherSequence trace (before ++ after) position acc =
      (ctx.gatherSequence trace before position acc).bind
        fun acc => ctx.gatherSequence trace after (position + before.length) acc := by
  induction before generalizing position acc with
  | nil => exact (Run.pure_bind acc _).symm
  | cons node rest ih =>
    simp only [List.cons_append, gatherSequence, ih, Run.bind_assoc, List.length_cons, Nat.add_assoc,
      Nat.add_comm 1]

/-- A sequence as read from one of its children on. -/
theorem gather_sequence_at (label : Option String) (before after : List (Node n)) (node : Node n) :
    ctx.gather (.sequence label (before ++ node :: after)) trace input =
      putLabel label ((ctx.gatherSequence trace before 0 (Output.seed input)).bind fun acc =>
        ctx.gatherSequence trace (node :: after) before.length acc) := by
  simp only [gather_sequence, gatherSequence_append, Nat.zero_add]

/-! ## Trees written in another way -/

theorem gather_splice (label : Option String) (before inner after : List (Node n)) :
    ctx.gather (.choice label (before ++ .choice none inner :: after)) trace input =
      ctx.gather (.choice label (before ++ inner ++ after)) trace input := by
  rw [gather_choice, gather_choice, List.append_assoc, Run.ofList_append, Run.ofList_append, Run.ofList_append,
    Run.ofList, gather_choice, putLabel]

theorem gather_distribute (label : Option String) (alternatives rest : List (Node n)) :
    ctx.gather (.sequence label (.choice none alternatives :: rest)) trace input =
      ctx.gather (.choice label (alternatives.map fun node => .sequence none (node :: rest))) trace input := by
  rw [gather_sequence, gather_choice, gatherSequence, gather_choice, putLabel, Run.ofList_bind, Run.ofList_map]
  simp only [gather_sequence, gatherSequence, putLabel]

end Context

/-- Trees of which one comes from the other by writing parts of it in another way, anywhere and any number of
times: a choice in a choice is spliced into it, or a choice at the beginning of a sequence is distributed over
the rest of it. -/
inductive Node.Rewrites : Node n → Node n → Prop
  | splice (label : Option String) (before inner after : List (Node n)) :
      Rewrites (.choice label (before ++ .choice none inner :: after)) (.choice label (before ++ inner ++ after))
  | distribute (label : Option String) (alternatives rest : List (Node n)) :
      Rewrites (.sequence label (.choice none alternatives :: rest))
        (.choice label (alternatives.map fun node => .sequence none (node :: rest)))
  | inChoice {node node' : Node n} (label : Option String) (before after : List (Node n)) : Rewrites node node' →
      Rewrites (.choice label (before ++ node :: after)) (.choice label (before ++ node' :: after))
  | inSequence {node node' : Node n} (label : Option String) (before after : List (Node n)) : Rewrites node node' →
      Rewrites (.sequence label (before ++ node :: after)) (.sequence label (before ++ node' :: after))
  | refl (node : Node n) : Rewrites node node
  | symm {node node' : Node n} : Rewrites node node' → Rewrites node' node
  | trans {node node' node'' : Node n} : Rewrites node node' → Rewrites node' node'' → Rewrites node node''

/-- **Trees that are rewritten** have the same readings in the same order. -/
theorem Node.Rewrites.gather_eq {node node' : Node n} (h : node.Rewrites node') (ctx : Context n) (trace : Trace)
    (input : Text) : ctx.gather node trace input = ctx.gather node' trace input := by
  induction h generalizing trace input with
  | splice label before inner after => exact Context.gather_splice label before inner after
  | distribute label alternatives rest => exact Context.gather_distribute label alternatives rest
  | inChoice label before after _ ih =>
    simp only [Context.gather_choice, Run.ofList_append, Run.ofList, ih]
  | inSequence label before after _ ih =>
    simp only [Context.gather_sequence_at, Context.gatherSequence, ih]
  | refl => rfl
  | symm _ ih => exact (ih trace input).symm
  | trans _ _ ih ih' => exact (ih trace input).trans (ih' trace input)

theorem Node.Rewrites.sameOutputs {node node' : Node n} (h : node.Rewrites node') (ctx : Context n)
    (here there : Address) (trace : Trace) (input : Text) :
    (ctx.resolveTraced ⟨here, node⟩ trace input).SameOutputs (ctx.resolveTraced ⟨there, node'⟩ trace input) := by
  refine Run.sameOutputs_of_mute_eq ?_
  rw [Context.mute_resolveTraced, Context.mute_resolveTraced, h.gather_eq]

section

variable (ctx : Context n) (label : Option String) (before alternatives after : List (Node n)) (here there : Address)
  (trace : Trace) (input : Text)

/-- **A choice at any place of a sequence** can be made at the beginning: the readings are the same, but in another
order. -/
theorem Context.perm_outputs_distribute :
    let whole := ctx.resolveTraced ⟨here, .sequence label (before ++ .choice none alternatives :: after)⟩ trace input
    let split := ctx.resolveTraced
      ⟨there, .choice label (alternatives.map fun node => .sequence none (before ++ node :: after))⟩ trace input
    (whole.fault? = none → split.fault? = none ∧ whole.outputs.Perm split.outputs) ∧
      (alternatives ≠ [] → split.fault? = none → whole.fault? = none) := by
  intro whole split
  let threaded := ctx.gatherSequence trace before 0 (Output.seed input)
  let extended (node : Node n) (acc : Output) :=
    ctx.gatherSequence trace (node :: after) before.length acc
  have hwhole : whole.mute =
      putLabel label (threaded.bind fun acc => Run.ofList alternatives fun node => extended node acc) := by
    simp only [whole, threaded, extended, mute_resolveTraced, gather_sequence_at, gatherSequence, gather_choice,
      putLabel, Run.ofList_bind]
  have hsplit : split.mute =
      putLabel label (Run.ofList alternatives fun node => threaded.bind (extended node)) := by
    simp only [split, threaded, extended, mute_resolveTraced, gather_sequence_at, gather_choice, putLabel,
      Run.ofList_map]
  rw [← whole.fault?_mute, ← whole.outputs_mute, ← split.fault?_mute, ← split.outputs_mute, hwhole, hsplit,
    fault?_putLabel, fault?_putLabel, outputs_putLabel, outputs_putLabel]
  refine ⟨fun h => ?_, fun hne => (Run.fault?_bind_ofList_eq_none hne).2⟩
  obtain ⟨hsplit, hperm⟩ := Run.perm_outputs_bind_ofList h
  exact ⟨hsplit, hperm.map _⟩

end

/-! ## Sessions -/

namespace Session

/-- Sessions that differ in how their sentences are written find the same. -/
theorem map_outputs_parse_eq {session session' : Session n} (hphrases : session.phrases = session'.phrases)
    (hsettings : session.settings = session'.settings)
    (hextensions : session.extensions.map (·.phrase) = session'.extensions.map (·.phrase)) {input : Text}
    (hsentences : (Run.ofList (session.sentences.map (·.node)) fun node =>
        session.pass.context.gather node [] input) =
      Run.ofList (session'.sentences.map (·.node)) fun node => session.pass.context.gather node [] input) :
    (session.parse input).1.map (·.outputs) = (session'.parse input).1.map (·.outputs) := by
  have hsimilar : Similar .anywhere session.pass.context session'.pass.context :=
    similar_of_extensions (fun _ _ => trivial) hphrases (congrArg (·.leniency) hsettings)
      ((forall₂_zip_of_map_eq hextensions).imp fun _ _ h => ⟨h.1, trivial⟩)
  have hgather (node : Node n) :
      session.pass.context.gather node [] input = session'.pass.context.gather node [] input := by
    rw [← Context.mute_resolveTraced ⟨⟨0, []⟩, node⟩, ← Context.mute_resolveTraced ⟨⟨0, []⟩, node⟩]
    exact (hsimilar.resolveTraced ⟨trivial, node.alike_anywhere⟩ [] input).mute_eq
  have hunlimited : (session.pass.unlimited input).mute = (session'.pass.unlimited input).mute := by
    simp only [Pass.unlimited, Run.mute_bind, Run.mute_ofList, Context.resolve, Context.mute_resolveTraced,
      ← hgather]
    rw [Run.ofList_map, Run.ofList_map] at hsentences
    exact congrArg (Run.bind · _) hsentences
  have hlimit : session.pass.limit = session'.pass.limit := congrArg (·.limit) hsettings
  have hstream : (session.pass.stream input).mute = (session'.pass.stream input).mute := by
    unfold Pass.stream
    rw [hlimit]
    split
    · rw [Run.mute_take, Run.mute_take, hunlimited]
    · exact hunlimited
  obtain ⟨houtputs, hfault⟩ := Run.sameOutputs_of_mute_eq hstream
  simp only [parse, Run.drain, Run.drainOnto_outcome, houtputs, hfault]
  split <;> rfl

/-- **Sentences that are rewritten** are found the same. -/
theorem map_outputs_parse_of_rewrites {session session' : Session n} (hphrases : session.phrases = session'.phrases)
    (hsettings : session.settings = session'.settings)
    (hextensions : session.extensions.map (·.phrase) = session'.extensions.map (·.phrase))
    (hsentences : List.Forall₂ Node.Rewrites (session.sentences.map (·.node)) (session'.sentences.map (·.node)))
    (input : Text) : (session.parse input).1.map (·.outputs) = (session'.parse input).1.map (·.outputs) := by
  refine map_outputs_parse_eq hphrases hsettings hextensions ?_
  generalize session.sentences.map (·.node) = nodes at hsentences ⊢
  generalize session'.sentences.map (·.node) = nodes' at hsentences ⊢
  induction hsentences with
  | nil => rfl
  | cons hrewrites _ ih => simp only [Run.ofList, hrewrites.gather_eq, ih]

end Session

/-- **Grammars can be refactored.** Whatever phrases, extensions and settings there are, and wherever a tree stands
and on whatever path it is read:

- A choice without label in another choice may be spliced into it.
- A choice without label at the beginning of a sequence may be distributed over the rest of the sequence. The
  readings are the same, in the same order, and end with the same fault if with one.
- If the choice stands at any other position, the readings are the same in some order. Phrase functions that give
  up do so both times, if there are alternatives at all.
- A session may have all its sentences as alternatives of a single one. It is refused for the same defects, and
  it finds the same, up to the same limit. -/
theorem refactoring_keeps_readings :
    (∀ (ctx : Context n) (here there : Address) (trace : Trace) (input : Text) (label : Option String),
      let read (node : Node n) := ctx.resolveTraced ⟨here, node⟩ trace input
      let reread (node : Node n) := ctx.resolveTraced ⟨there, node⟩ trace input
      (∀ before inner after, (read (.choice label (before ++ .choice none inner :: after))).SameOutputs
        (reread (.choice label (before ++ inner ++ after)))) ∧
      (∀ alternatives rest, (read (.sequence label (.choice none alternatives :: rest))).SameOutputs
        (reread (.choice label (alternatives.map fun node => .sequence none (node :: rest))))) ∧
      ∀ before alternatives after,
        let whole := read (.sequence label (before ++ .choice none alternatives :: after))
        let split := reread (.choice label (alternatives.map fun node => .sequence none (before ++ node :: after)))
        (whole.fault? = none → split.fault? = none ∧ whole.outputs.Perm split.outputs) ∧
          (alternatives ≠ [] → split.fault? = none → whole.fault? = none)) ∧
    (∀ (book : Phrasebook n) (nodes : List (Node n)),
      Node.checkAll book [.choice none nodes] = Node.checkAll book nodes) ∧
    ∀ session session' : Session n, session'.phrases = session.phrases →
      session'.configuration =
        { session.configuration with sentences := [.choice none session.configuration.sentences] } →
      ∀ input, (session'.parse input).1.map (·.outputs) = (session.parse input).1.map (·.outputs) := by
  refine ⟨fun ctx here there trace input label => ⟨fun before inner after => ?_, fun alternatives rest => ?_,
    fun before alternatives after => ?_⟩, fun book nodes => ?_,
    fun session session' hphrases hconfiguration input => ?_⟩
  · exact (Node.Rewrites.splice label before inner after).sameOutputs ctx here there trace input
  · exact (Node.Rewrites.distribute label alternatives rest).sameOutputs ctx here there trace input
  · exact ctx.perm_outputs_distribute label before alternatives after here there trace input
  · rw [Node.checkAll, Node.check]
    cases Node.checkAll book nodes <;> simp [Node.checkAll]
  · have hsentences := congrArg Configuration.sentences hconfiguration
    refine Session.map_outputs_parse_eq hphrases (congrArg Configuration.settings hconfiguration)
      (congrArg Configuration.extensions hconfiguration) ?_
    simp only [Session.configuration] at hsentences
    rw [hsentences, Run.ofList, Context.gather_choice, putLabel, Run.ofList, Run.append_done]

/-- Two sentences as alternatives of one, and the second of two choices in a sequence made first, where one letter
is typed in full and the other only begun. -/
theorem twoLetters_refactored :
    let letters : List (Node 0) := [Node.text "a", Node.text "ab"]
    let session : Session 0 := { phrases := nofun, sentences := Session.placeFrom 0 letters }
    let session' : Session 0 := { phrases := nofun, sentences := Session.placeFrom 0 [.choice none letters] }
    let read (node : Node 0) := session.pass.context.resolveTraced ⟨⟨0, []⟩, node⟩ [] ['a']
    let whole := read (.sequence none [.choice none letters, .choice none letters])
    let split := read (.choice none (letters.map fun node => .sequence none [.choice none letters, node]))
    whole.fault? = none ∧ whole.outputs.Perm split.outputs ∧
      ∀ input, (session'.parse input).1.map (·.outputs) = (session.parse input).1.map (·.outputs) := by
  intro letters session session' read whole split
  obtain ⟨htrees, -, hsessions⟩ := refactoring_keeps_readings (n := 0)
  obtain ⟨-, -, hchoice⟩ := htrees session.pass.context ⟨0, []⟩ ⟨0, []⟩ [] ['a'] none
  have hwhole : whole.fault? = none := by decide +kernel
  have hperm := ((hchoice [.choice none letters] letters []).1 hwhole).2
  exact ⟨hwhole, hperm, hsessions session session' rfl rfl⟩

/-- The order of the readings is another one if the choice does not stand at the beginning. -/
example :
    let ctx : Context 0 := { phrases := nofun, registry := {}, leniency := {} }
    let letters : List (Node 0) := [Node.text "x", Node.text "y"]
    let texts (node : Node 0) := (ctx.resolve ⟨⟨0, []⟩, node⟩ []).outputs.map fun out => String.ofList out.text
    texts (.sequence none [.choice none letters, .choice none letters]) = ["xx", "xy", "yx", "yy"] ∧
      texts (.choice none (letters.map fun node => .sequence none [.choice none letters, node])) =
        ["xx", "yx", "xy", "yy"] := by
  decide +kernel

end Typeahead
