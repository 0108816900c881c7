import Typeahead.Proofs.Alignment
import Typeahead.Proofs.Run
import Typeahead.Resolution
import Typeahead.Search.Patterns

/-!
# What holds throughout a reading

Reading goes down a tree, from a phrase into its description or an extension, and from child to child of a
sequence. `Upheld` says of a property of places, events and outputs that each of these steps keeps it;
`Upheld.resolveTraced` concludes that it holds throughout a whole reading, however deep phrases nest. Two
uses follow: every fault of a reading was raised by a phrase, and every output accounts for the input.
-/

namespace Typeahead

variable {n : Nat}

/-- Induction on trees: a sequence or choice has the property when all of its children do. -/
@[elab_as_elim]
theorem Node.induction {motive : Node n → Prop}
    (literal : ∀ label l, motive (.literal label l))
    (sequence : ∀ label children, (∀ child ∈ children, motive child) → motive (.sequence label children))
    (choice : ∀ label children, (∀ child ∈ children, motive child) → motive (.choice label children))
    (element : ∀ label e, motive (.element label e))
    (nothing : ∀ label, motive (.nothing label)) : ∀ node, motive node
  | .literal label l => literal label l
  | .sequence label children =>
    sequence label children fun child _ => Node.induction literal sequence choice element nothing child
  | .choice label children =>
    choice label children fun child _ => Node.induction literal sequence choice element nothing child
  | .element label e => element label e
  | .nothing label => nothing label

/-- One of a phrase's functions gives up with a fault. -/
inductive Phrase.Raises (phrase : Phrase n) (f : Fault) : Prop
  | describe {props : Props} : phrase.describe props = .error f → Raises phrase f
  | value {value : Props → Value → Except Fault Value} {props : Props} {result : Value} :
      phrase.value = some value → value props result = .error f → Raises phrase f
  | accepts {props : Props} {result : Value} : phrase.accepts props result = .error f → Raises phrase f

/-- No function of any phrase ever gives up. -/
def Phrasebook.Quiet (book : Phrasebook n) : Prop := ∀ phrase f, ¬(book phrase).Raises f

/-- Each step of reading keeps a property: `place` of a path and the input read there, `event` of what
happens, `output` of an input and a reading of it. -/
structure Upheld (ctx : Context n) (place : Trace → Text → Prop) (event : Event → Prop)
    (output : Text → Output → Prop) : Prop where
  literal : ∀ {l : Literal} {input out}, l.read? ctx.leniency input = some out → output input out
  seed : ∀ input, output input (Output.seed input)
  merge : ∀ {input acc position out}, output input acc → output acc.remaining out →
    output input (acc.merge position out)
  /-- Outputs are judged by what was read, not by their value. -/
  result : ∀ {input} {out : Output} (value), output input out → output input { out with result := value }
  remaining : ∀ {trace input out}, place trace input → output input out → place trace out.remaining
  inner : ∀ {trace input} (phrase : Fin n), place trace input →
    trace.admits (ctx.frame phrase input) = true → place (ctx.frame phrase input :: trace) input
  enter : ∀ {trace input} (phrase : Fin n), place trace input →
    trace.admits (ctx.frame phrase input) = true → event (.enter (ctx.frame phrase input :: trace))
  /-- Only entering a phrase is looked at. -/
  other : ∀ e, (∀ path, e ≠ .enter path) → event e

namespace Upheld

variable {ctx : Context n} {place : Trace → Text → Prop} {event : Event → Prop}
  {output : Text → Output → Prop}

/-- The property of a run that reads some input. -/
abbrev Throughout (ctx : Context n) (event : Event → Prop) (output : Text → Output → Prop) (input : Text)
    (run : Run Output) : Prop :=
  run.Always event (fun f => ∃ phrase, (ctx.phrases phrase).Raises f) (output input)

theorem putLabel (h : Upheld ctx place event output) {input : Text} {run : Run Output}
    (hrun : Throughout ctx event output input run) (label : Option String) :
    Throughout ctx event output input (putLabel label run) := by
  cases label with
  | none => exact hrun
  | some name => exact hrun.map fun out hout => h.result _ hout

/-! ## Going through a tree -/

section

variable {expand : Expansion n} {trace : Trace}

theorem readSequence (h : Upheld ctx place event output) {children : List (Node n)}
    (hchildren : ∀ child ∈ children, ∀ here input, place trace input →
      Throughout ctx event output input (Node.read ctx.leniency expand child here trace input))
    (position : Nat) (here : Address) {input : Text} (hplace : place trace input) {acc : Output}
    (hacc : output input acc) :
    Throughout ctx event output input
      (Node.readSequence ctx.leniency expand children position here trace acc) := by
  induction children generalizing position acc with
  | nil =>
    rw [Node.readSequence]
    exact Run.always_pure hacc
  | cons child rest ih =>
    simp only [List.mem_cons, forall_eq_or_imp] at hchildren
    rw [Node.readSequence]
    refine (hchildren.1 _ _ (h.remaining hplace hacc)).bind fun out hout => ?_
    exact ih hchildren.2 _ (h.merge hacc hout)

theorem readChoice {children : List (Node n)} {input : Text}
    (hchildren : ∀ child ∈ children, ∀ here,
      Throughout ctx event output input (Node.read ctx.leniency expand child here trace input))
    (position : Nat) (here : Address) :
    Throughout ctx event output input
      (Node.readChoice ctx.leniency expand children position here trace input) := by
  induction children generalizing position with
  | nil =>
    rw [Node.readChoice]
    trivial
  | cons child rest ih =>
    simp only [List.mem_cons, forall_eq_or_imp] at hchildren
    rw [Node.readChoice]
    exact (hchildren.1 _).append (ih hchildren.2 _)

theorem read (h : Upheld ctx place event output)
    (hexpand : ∀ here e input, place trace input →
      Throughout ctx event output input (expand here e trace input))
    (node : Node n) (here : Address) (input : Text) (hplace : place trace input) :
    Throughout ctx event output input (Node.read ctx.leniency expand node here trace input) := by
  have visited : event (.visit here) := h.other _ (by simp)
  induction node using Node.induction generalizing here input with
  | literal label l =>
    rw [Node.read]
    refine ⟨visited, h.other _ (by simp), h.putLabel ?_ label⟩
    exact Run.always_ofOption fun out => h.literal
  | sequence label children ih =>
    rw [Node.read]
    refine ⟨visited, h.putLabel ?_ label⟩
    exact h.readSequence (fun child hc here input hp => ih child hc here input hp (h.other _ (by simp))) _ _
      hplace (h.seed _)
  | choice label children ih =>
    rw [Node.read]
    refine ⟨visited, h.putLabel ?_ label⟩
    exact readChoice (fun child hc here => ih child hc here input hplace (h.other _ (by simp))) _ _
  | element label e =>
    rw [Node.read]
    exact ⟨visited, h.putLabel (hexpand _ _ _ hplace) label⟩
  | nothing label =>
    rw [Node.read]
    exact ⟨visited, trivial⟩

end

/-! ## Going into a phrase -/

theorem screen (h : Upheld ctx place event output) {input : Text} (phrase : Fin n) (props : Props)
    {out : Output} (hout : output input out) :
    Throughout ctx event output input ((ctx.phrases phrase).screen props out) := by
  unfold Phrase.screen
  split
  · exact Run.always_pure hout
  · exact ⟨h.other _ (by simp), trivial⟩
  · next f hf => exact ⟨phrase, .accepts hf⟩

theorem revalue (h : Upheld ctx place event output) {input : Text} (phrase : Fin n) (props : Props)
    {out : Output} (hout : output input out) :
    Throughout ctx event output input ((ctx.phrases phrase).revalue props out) := by
  unfold Phrase.revalue
  split
  · exact Run.always_pure hout
  · next value hvalue =>
    split
    · exact Run.always_pure (h.result _ hout)
    · next f hf => exact ⟨phrase, .value hvalue hf⟩

section

variable {expand : Expansion n} {inner : Trace} {input : Text}

theorem readDescription (h : Upheld ctx place event output)
    (hread : ∀ node here,
      Throughout ctx event output input (Node.read ctx.leniency expand node here inner input))
    (here : Address) (e : Element n) (description : Node n) :
    Throughout ctx event output input (ctx.readDescription expand here e description inner input) := by
  have hscreened := (hread description here.description).bind fun out => h.screen e.phrase e.props
  exact hscreened.bind fun out => h.revalue e.phrase e.props

theorem readSupplements (h : Upheld ctx place event output)
    (hread : ∀ node here,
      Throughout ctx event output input (Node.read ctx.leniency expand node here inner input))
    (e : Element n) : Throughout ctx event output input (ctx.readSupplements expand e inner input) :=
  (Run.always_ofList fun supplement _ => hread supplement.node supplement.address).bind fun _ =>
    h.screen e.phrase e.props

end

theorem expandOnce (h : Upheld ctx place event output) {expand : Expansion n}
    (hexpand : ∀ here e trace input, place trace input →
      Throughout ctx event output input (expand here e trace input))
    (here : Address) (e : Element n) {trace : Trace} {input : Text} (hplace : place trace input) :
    Throughout ctx event output input (ctx.expandOnce expand here e trace input) := by
  unfold Context.expandOnce
  split
  · next hadmits =>
    have hinner := h.inner e.phrase hplace hadmits
    have hread := fun node here => h.read (fun here e => hexpand here e _) node here input hinner
    refine ⟨h.enter e.phrase hplace hadmits, ?_⟩
    split
    · exact hread _ _
    · split
      · next f hf => exact ⟨e.phrase, .describe hf⟩
      · refine ⟨h.other _ (by simp), Run.Always.append ?_ ?_⟩
        · exact h.readDescription hread here e _
        · exact h.readSupplements hread e
  · exact ⟨h.other _ (by simp), trivial⟩

theorem expandWithin (h : Upheld ctx place event output) (bound : Nat) (here : Address) (e : Element n)
    (trace : Trace) (input : Text) (hplace : place trace input) :
    Throughout ctx event output input (ctx.expandWithin bound here e trace input) := by
  induction bound generalizing here e trace input with
  | zero => trivial
  | succ bound ih => exact h.expandOnce ih here e hplace

/-- **What each step keeps holds throughout.** -/
theorem resolveTraced (h : Upheld ctx place event output) (placed : Placed n) (trace : Trace)
    (input : Text) (hplace : place trace input) :
    Throughout ctx event output input (ctx.resolveTraced placed trace input) :=
  h.read (fun here e => h.expandWithin _ here e trace) _ _ input hplace

end Upheld

/-! ## Faults and outputs of a reading -/

namespace Context

variable (ctx : Context n)

/-- Outputs account for the input at every step. -/
theorem upheld_accounts :
    Upheld ctx (fun _ _ => True) (fun _ => True) fun input out =>
      Accounts ctx.leniency.ignoreCase input out.typedText out.remaining where
  literal := Literal.read?_accounts
  seed input := Accounts.nil _ input
  merge {input acc position out} hacc hout := by
    rw [Output.typedText_merge, Output.remaining_merge]
    exact hacc.trans hout
  result _ hout := hout
  remaining _ _ := trivial
  inner _ _ _ := trivial
  enter _ _ _ := trivial
  other _ _ := trivial

/-- Every fault of a reading was raised by a phrase, so a quiet book has none. -/
theorem fault?_resolveTraced (h : ctx.phrases.Quiet) (placed : Placed n) (trace : Trace) (input : Text) :
    (ctx.resolveTraced placed trace input).fault? = none := by
  have raised := (ctx.upheld_accounts.resolveTraced placed trace input trivial).fault?
  cases hf : (ctx.resolveTraced placed trace input).fault? with
  | none => rfl
  | some f =>
    obtain ⟨phrase, hraises⟩ := raised f hf
    exact absurd hraises (h phrase f)

theorem remaining_suffix_read {bound : Nat} {node : Node n} {here : Address} {trace : Trace} {input : Text}
    {out : Output}
    (h : out ∈ (Node.read ctx.leniency (ctx.expandWithin bound) node here trace input).outputs) :
    out.remaining <:+ input := by
  have hread := ctx.upheld_accounts.read
    (fun here e => ctx.upheld_accounts.expandWithin bound here e trace) node here input trivial
  exact (hread.outputs out h).suffix

/-- **Outputs account for the input.** What an output leaves is a suffix of the input, and its typed
characters stand one to one for what comes before: each equal to its character of the input or, if case is
ignored, the same letter by one of the two comparisons. With case significant, typed text and rest together
are the input. -/
theorem outputs_account_for_input (placed : Placed n) (input : Text) {out : Output}
    (h : out ∈ (ctx.resolve placed input).outputs) :
    ∃ consumed, input = consumed ++ out.remaining ∧ out.typedText.length = consumed.length ∧
      List.Forall₂ (Stands ctx.leniency.ignoreCase) out.typedText consumed ∧
      (ctx.leniency.ignoreCase = false → out.typedText = consumed ∧
        out.typedText ++ out.remaining = input) := by
  have haccounts := (ctx.upheld_accounts.resolveTraced placed [] input trivial).outputs out h
  have ⟨consumed, hinput, hall⟩ := haccounts
  refine ⟨consumed, hinput, hall.length_eq, hall, fun hcase => ?_⟩
  rw [hcase] at haccounts
  have happend := haccounts.append_eq
  exact ⟨List.append_cancel_right (happend.trans hinput), happend⟩

end Context

def doorContext : Context 0 := { phrases := nofun, registry := {}, leniency := { ignoreCase := true } }

def doorRoot : Placed 0 := ⟨⟨0, []⟩, .sequence none [.text "Open ", .text "door"]⟩

/-- Its words are found in another case, and the second one half typed. -/
theorem doorContext_accounts :
    ∃ out ∈ (doorContext.resolve doorRoot "oPEN d".toList).outputs, ∃ consumed,
      "oPEN d".toList = consumed ++ out.remaining ∧ out.typedText.length = consumed.length ∧
      List.Forall₂ (Stands true) out.typedText consumed := by
  obtain ⟨out, hout⟩ := List.exists_mem_of_length_pos
    (show 0 < (doorContext.resolve doorRoot "oPEN d".toList).outputs.length by decide +kernel)
  obtain ⟨consumed, hinput, hlength, hall, -⟩ :=
    doorContext.outputs_account_for_input doorRoot "oPEN d".toList hout
  exact ⟨out, hout, consumed, hinput, hlength, hall⟩

end Typeahead
