import Typeahead.Proofs.Reading
import Typeahead.Proofs.Derivation

/-!
# Where outputs come from

Every output is the reading of a derivation, also where a phrase function gives up later on
(`Context.derived_of_mem_outputs`). The leaves of a derivation are readings of literals that were tried, each on
what the one before has left (`Derives.leaves_inTurn`); so what holds of every such row of readings holds of every
output.
-/

namespace Typeahead

variable {n : Nat}

/-! ## Outputs have derivations -/

/-- An output is the reading of one of a node's derivations. -/
def Derived (ctx : Context n) (node : Node n) (trace : Trace) (input : Text) (out : Output) : Prop :=
  ∃ d, Derives ctx node trace input d ∧ d.eval input = out

/-- All outputs of a run are as they should be, whatever else happens. -/
abbrev Run.Yields (output : Output → Prop) (run : Run Output) : Prop :=
  run.Always (fun _ => True) (fun _ => True) output

theorem yields_putLabel {output output' : Output → Prop} {run : Run Output} (h : run.Yields output)
    {label : Option String} (hlabel : ∀ out, output out → output' (out.labelIf label)) :
    (putLabel label run).Yields output' := by
  cases label with
  | none => exact h.imp hlabel
  | some name => exact h.map hlabel

section

variable {ctx : Context n} {expand : Expansion n} {trace : Trace}

theorem yields_readSequence {children : List (Node n)}
    (hchildren : ∀ child ∈ children, ∀ here input,
      (Node.read ctx.leniency expand child here trace input).Yields (Derived ctx child trace input))
    (position : Nat) (here : Address) (acc : Output) :
    (Node.readSequence ctx.leniency expand children position here trace acc).Yields fun out =>
      ∃ ds, DerivesAll ctx children trace acc.remaining ds ∧ Derivation.evalAll ds position acc = out := by
  induction children generalizing position acc with
  | nil =>
    rw [Node.readSequence]
    exact Run.always_pure ⟨[], .nil, by rw [Derivation.evalAll]⟩
  | cons child rest ih =>
    rw [List.forall_mem_cons] at hchildren
    rw [Node.readSequence]
    refine (hchildren.1 _ _).bind fun first hfirst => ?_
    obtain ⟨d, hd, rfl⟩ := hfirst
    refine (ih hchildren.2 (position + 1) _).imp fun out hout => ?_
    obtain ⟨ds, hds, rfl⟩ := hout
    exact ⟨d :: ds, .cons hd hds, by rw [Derivation.evalAll]⟩

theorem yields_readChoice {children : List (Node n)} {input : Text}
    (hchildren : ∀ child ∈ children, ∀ here,
      (Node.read ctx.leniency expand child here trace input).Yields (Derived ctx child trace input))
    (position : Nat) (here : Address) :
    (Node.readChoice ctx.leniency expand children position here trace input).Yields fun out =>
      ∃ child ∈ children, Derived ctx child trace input out := by
  induction children generalizing position with
  | nil =>
    rw [Node.readChoice]
    trivial
  | cons child rest ih =>
    rw [List.forall_mem_cons] at hchildren
    rw [Node.readChoice]
    refine Run.Always.append ?_ ?_
    · exact (hchildren.1 _).imp fun out hout => ⟨child, List.mem_cons_self, hout⟩
    · refine (ih hchildren.2 _).imp fun out hout => ?_
      obtain ⟨other, hother, hout⟩ := hout
      exact ⟨other, List.mem_cons_of_mem _ hother, hout⟩

theorem yields_read
    (hexpand : ∀ here e input, (expand here e trace input).Yields fun out =>
      ∀ label, Derived ctx (.element label e) trace input (out.labelIf label))
    (node : Node n) (here : Address) (input : Text) :
    (Node.read ctx.leniency expand node here trace input).Yields (Derived ctx node trace input) := by
  induction node using Node.induction generalizing here input with
  | literal label l =>
    rw [Node.read]
    refine ⟨trivial, trivial, yields_putLabel (Run.always_ofOption fun out hout => hout) fun out hout => ?_⟩
    exact ⟨.leaf label out, .literal hout, by rw [Derivation.eval]⟩
  | sequence label children ih =>
    rw [Node.read]
    refine ⟨trivial, yields_putLabel (yields_readSequence ih 0 here _) fun out hout => ?_⟩
    obtain ⟨ds, hds, rfl⟩ := hout
    exact ⟨.sequence label ds, .sequence hds, by rw [Derivation.eval]⟩
  | choice label children ih =>
    rw [Node.read]
    have hchildren := yields_readChoice (fun child hc here => ih child hc here input) 0 here
    refine ⟨trivial, yields_putLabel hchildren fun out hout => ?_⟩
    obtain ⟨child, hchild, d, hd, rfl⟩ := hout
    obtain ⟨index, hindex⟩ := List.getElem?_of_mem hchild
    exact ⟨.choice label index d, .choice hindex hd, by rw [Derivation.eval]⟩
  | element label e =>
    rw [Node.read]
    exact ⟨trivial, yields_putLabel (hexpand here e input) fun out hout => hout label⟩
  | nothing label =>
    rw [Node.read]
    exact ⟨trivial, trivial⟩

end

/-- What a phrase lets through is what it accepts. -/
theorem yields_screen (phrase : Phrase n) (props : Props) (out : Output) :
    (phrase.screen props out).Yields fun kept =>
      kept = out ∧ phrase.accepts props out.result = .ok true := by
  unfold Phrase.screen
  split
  · next haccepts => exact Run.always_pure ⟨rfl, haccepts⟩
  · exact ⟨trivial, trivial⟩
  · trivial

theorem yields_revalue (phrase : Phrase n) (props : Props) (out : Output) :
    (phrase.revalue props out).Yields fun valued =>
      ∃ value, phrase.valueOf props out.result = .ok value ∧ { out with result := value } = valued := by
  unfold Phrase.revalue
  split
  · next hnone => exact Run.always_pure ⟨out.result, by rw [Phrase.valueOf, hnone], rfl⟩
  · next value hvalue =>
    split
    · next result hresult => exact Run.always_pure ⟨result, by simp only [Phrase.valueOf, hvalue, hresult], rfl⟩
    · trivial

namespace Context

variable (ctx : Context n)

section

variable {ctx} {expand : Expansion n} {inner : Trace} {input : Text}

theorem yields_readDescription
    (hread : ∀ node here, (Node.read ctx.leniency expand node here inner input).Yields
      (Derived ctx node inner input))
    (here : Address) (e : Element n) (description : Node n) :
    (ctx.readDescription expand here e description inner input).Yields fun out =>
      ∃ value d, Derives ctx description inner input d ∧
        (ctx.phrases e.phrase).accepts e.props (d.eval input).result = .ok true ∧
        (ctx.phrases e.phrase).valueOf e.props (d.eval input).result = .ok value ∧
        { d.eval input with result := value } = out := by
  have hscreened : ((Node.read ctx.leniency expand description here.description inner input).bind
      ((ctx.phrases e.phrase).screen e.props)).Yields fun out =>
      ∃ d, Derives ctx description inner input d ∧ d.eval input = out ∧
        (ctx.phrases e.phrase).accepts e.props (d.eval input).result = .ok true := by
    refine (hread description here.description).bind fun raw hraw => ?_
    obtain ⟨d, hd, rfl⟩ := hraw
    refine (yields_screen _ _ _).imp fun kept hkept => ?_
    exact ⟨d, hd, hkept.1.symm, hkept.2⟩
  refine hscreened.bind fun kept hkept => ?_
  obtain ⟨d, hd, rfl, haccepts⟩ := hkept
  refine (yields_revalue _ _ _).imp fun out hout => ?_
  obtain ⟨value, hvalue, rfl⟩ := hout
  exact ⟨value, d, hd, haccepts, hvalue, rfl⟩

theorem yields_readSupplements
    (hread : ∀ node here, (Node.read ctx.leniency expand node here inner input).Yields
      (Derived ctx node inner input))
    (e : Element n) :
    (ctx.readSupplements expand e inner input).Yields fun out =>
      ∃ supplement ∈ ctx.registry.supplementsFor (ctx.phrases e.phrase).identity,
        ∃ d, Derives ctx supplement.node inner input d ∧
          (ctx.phrases e.phrase).accepts e.props (d.eval input).result = .ok true ∧ d.eval input = out := by
  have hall : (Run.ofList (ctx.registry.supplementsFor (ctx.phrases e.phrase).identity) fun supplement =>
      Node.read ctx.leniency expand supplement.node supplement.address inner input).Yields fun out =>
      ∃ supplement ∈ ctx.registry.supplementsFor (ctx.phrases e.phrase).identity,
        Derived ctx supplement.node inner input out :=
    Run.always_ofList fun supplement hsupplement =>
      (hread supplement.node supplement.address).imp fun out hout => ⟨supplement, hsupplement, hout⟩
  refine hall.bind fun raw hraw => ?_
  obtain ⟨supplement, hsupplement, d, hd, rfl⟩ := hraw
  refine (yields_screen _ _ _).imp fun kept hkept => ?_
  exact ⟨supplement, hsupplement, d, hd, hkept.2, hkept.1.symm⟩

end

theorem yields_expandOnce {expand : Expansion n}
    (hexpand : ∀ here e trace input, (expand here e trace input).Yields fun out =>
      ∀ label, Derived ctx (.element label e) trace input (out.labelIf label))
    (here : Address) (e : Element n) (trace : Trace) (input : Text) :
    (ctx.expandOnce expand here e trace input).Yields fun out =>
      ∀ label, Derived ctx (.element label e) trace input (out.labelIf label) := by
  unfold expandOnce
  by_cases hadmits : trace.admits (ctx.frame e.phrase input) = true
  · rw [if_pos hadmits]
    have hread := yields_read fun here e' input' => hexpand here e' (ctx.frame e.phrase input :: trace) input'
    refine ⟨trivial, ?_⟩
    cases hoverride : ctx.registry.override? (ctx.phrases e.phrase).identity with
    | some replacement =>
      refine (hread replacement.node replacement.address input).imp fun out hout label => ?_
      obtain ⟨d, hd, rfl⟩ := hout
      exact ⟨.overridden label d, .overridden hadmits hoverride hd, by rw [Derivation.eval]⟩
    | none =>
      cases hdescribe : (ctx.phrases e.phrase).describe e.props with
      | error f => trivial
      | ok description =>
        refine ⟨trivial, Run.Always.append ?_ ?_⟩
        · have hown := yields_readDescription (fun node here => hread node here input) here e description
          refine hown.imp fun out hout label => ?_
          obtain ⟨value, d, hd, haccepts, hvalue, rfl⟩ := hout
          refine ⟨.described label value d, ?_, by rw [Derivation.eval]⟩
          exact .described hadmits hoverride hdescribe hd haccepts hvalue
        · have hothers := yields_readSupplements (fun node here => hread node here input) e
          refine hothers.imp fun out hout label => ?_
          obtain ⟨supplement, hsupplement, d, hd, haccepts, rfl⟩ := hout
          obtain ⟨index, hindex⟩ := List.getElem?_of_mem hsupplement
          refine ⟨.supplemented label index d, ?_, by rw [Derivation.eval]⟩
          exact .supplemented hadmits hoverride hindex hd haccepts
  · rw [if_neg hadmits]
    exact ⟨trivial, trivial⟩

theorem yields_expandWithin (bound : Nat) (here : Address) (e : Element n) (trace : Trace) (input : Text) :
    (ctx.expandWithin bound here e trace input).Yields fun out =>
      ∀ label, Derived ctx (.element label e) trace input (out.labelIf label) := by
  induction bound generalizing here e trace input with
  | zero => trivial
  | succ bound ih => exact ctx.yields_expandOnce ih here e trace input

theorem yields_resolveTraced (placed : Placed n) (trace : Trace) (input : Text) :
    (ctx.resolveTraced placed trace input).Yields (Derived ctx placed.node trace input) :=
  yields_read (fun here e => ctx.yields_expandWithin (depthBound n input) here e trace)
    placed.node placed.address input

/-- **Every output has a derivation**, also of a reading that does not end well. -/
theorem derived_of_mem_outputs {root : Placed n} {input : Text} {out : Output}
    (h : out ∈ (ctx.resolve root input).outputs) : Derived ctx root.node [] input out :=
  (ctx.yields_resolveTraced root [] input).outputs out h

end Context

/-! ## Leaves in turn -/

/-- Readings of literals of some kind, each on what the one before has left. -/
inductive InTurn (leniency : Leniency) (kind : Literal → Prop) : Text → List Output → Prop
  | nil {input : Text} : InTurn leniency kind input []
  | cons {l : Literal} {input : Text} {out : Output} {outs : List Output} : kind l →
      l.read? leniency input = some out → InTurn leniency kind out.remaining outs →
      InTurn leniency kind input (out :: outs)

namespace InTurn

variable {leniency : Leniency} {kind wider : Literal → Prop} {input : Text} {outs : List Output}

theorem mono (h : InTurn leniency kind input outs) (hkind : ∀ l, kind l → wider l) :
    InTurn leniency wider input outs := by
  induction h with
  | nil => exact .nil
  | cons hl hread _ ih => exact .cons (hkind _ hl) hread ih

theorem append (h : InTurn leniency kind input outs) {later : List Output}
    (hlater : InTurn leniency kind (Derivation.rest outs input) later) :
    InTurn leniency kind input (outs ++ later) := by
  induction h with
  | nil => exact hlater
  | @cons l input out outs hl hread hrest ih =>
    refine .cons hl hread (ih ?_)
    have hrest : Derivation.rest (out :: outs) input = Derivation.rest outs out.remaining :=
      Derivation.rest_append [out] outs input
    rwa [hrest] at hlater

theorem exists_read (h : InTurn leniency kind input outs) :
    ∀ out ∈ outs, ∃ l given, kind l ∧ l.read? leniency given = some out := by
  induction h with
  | nil => nofun
  | cons hl hread _ ih => exact List.forall_mem_cons.2 ⟨⟨_, _, hl, hread⟩, ih⟩

/-- Once the input is used up, all literals are read against nothing. -/
theorem exists_read_nil (h : InTurn leniency kind [] outs) :
    ∀ out ∈ outs, ∃ l, kind l ∧ l.read? leniency [] = some out := by
  generalize hinput : ([] : Text) = input at h
  induction h with
  | nil => nofun
  | cons hl hread _ ih =>
    subst hinput
    have hremaining := List.suffix_nil.1 (Literal.read?_accounts hread).suffix
    rw [hremaining] at ih
    exact List.forall_mem_cons.2 ⟨⟨_, hl, hread⟩, ih rfl⟩

end InTurn

mutual

/-- The literals that are compared with the input while a node is read. -/
inductive Tries (ctx : Context n) : Node n → Trace → Text → Literal → Prop
  | literal {label : Option String} {l : Literal} {trace : Trace} {input : Text} :
      Tries ctx (.literal label l) trace input l
  | sequence {label : Option String} {children : List (Node n)} {trace : Trace} {input : Text} {l : Literal} :
      TriesAll ctx children trace input l → Tries ctx (.sequence label children) trace input l
  | choice {label : Option String} {children : List (Node n)} {child : Node n} {trace : Trace} {input : Text}
      {l : Literal} :
      child ∈ children → Tries ctx child trace input l → Tries ctx (.choice label children) trace input l
  | overridden {label : Option String} {e : Element n} {trace : Trace} {input : Text}
      {replacement : Placed n} {l : Literal} :
      trace.admits (ctx.frame e.phrase input) = true →
      ctx.registry.override? (ctx.phrases e.phrase).identity = some replacement →
      Tries ctx replacement.node (ctx.frame e.phrase input :: trace) input l →
      Tries ctx (.element label e) trace input l
  | described {label : Option String} {e : Element n} {trace : Trace} {input : Text} {description : Node n}
      {l : Literal} :
      trace.admits (ctx.frame e.phrase input) = true →
      ctx.registry.override? (ctx.phrases e.phrase).identity = none →
      (ctx.phrases e.phrase).describe e.props = .ok description →
      Tries ctx description (ctx.frame e.phrase input :: trace) input l →
      Tries ctx (.element label e) trace input l
  | supplemented {label : Option String} {e : Element n} {trace : Trace} {input : Text} {supplement : Placed n}
      {l : Literal} :
      trace.admits (ctx.frame e.phrase input) = true →
      ctx.registry.override? (ctx.phrases e.phrase).identity = none →
      supplement ∈ ctx.registry.supplementsFor (ctx.phrases e.phrase).identity →
      Tries ctx supplement.node (ctx.frame e.phrase input :: trace) input l →
      Tries ctx (.element label e) trace input l

inductive TriesAll (ctx : Context n) : List (Node n) → Trace → Text → Literal → Prop
  | here {child : Node n} {rest : List (Node n)} {trace : Trace} {input : Text} {l : Literal} :
      Tries ctx child trace input l → TriesAll ctx (child :: rest) trace input l
  | later {child : Node n} {rest : List (Node n)} {trace : Trace} {input : Text} {d : Derivation} {l : Literal} :
      Derives ctx child trace input d → TriesAll ctx rest trace (d.eval input).remaining l →
      TriesAll ctx (child :: rest) trace input l

end

mutual

/-- **The leaves of a derivation are literals that were tried, read in turn.** -/
theorem Derives.leaves_inTurn {ctx : Context n} : ∀ {node : Node n} {trace : Trace} {input : Text}
    {d : Derivation}, Derives ctx node trace input d →
    InTurn ctx.leniency (Tries ctx node trace input) input d.leaves
  | _, _, _, _, .literal hread => by
    rw [Derivation.leaves]
    exact .cons .literal hread .nil
  | _, _, _, _, .sequence hds => by
    rw [Derivation.leaves]
    exact hds.leaves_inTurn.mono fun l => .sequence
  | _, _, _, _, .choice hchild hd => by
    rw [Derivation.leaves]
    exact hd.leaves_inTurn.mono fun l => .choice (List.mem_of_getElem? hchild)
  | _, _, _, _, .overridden hadmits hoverride hd => by
    rw [Derivation.leaves]
    exact hd.leaves_inTurn.mono fun l => .overridden hadmits hoverride
  | _, _, _, _, .described hadmits hoverride hdescribe hd _ _ => by
    rw [Derivation.leaves]
    exact hd.leaves_inTurn.mono fun l => .described hadmits hoverride hdescribe
  | _, _, _, _, .supplemented hadmits hoverride hsupplement hd _ => by
    rw [Derivation.leaves]
    exact hd.leaves_inTurn.mono fun l => .supplemented hadmits hoverride (List.mem_of_getElem? hsupplement)

theorem DerivesAll.leaves_inTurn {ctx : Context n} : ∀ {children : List (Node n)} {trace : Trace} {input : Text}
    {ds : List Derivation}, DerivesAll ctx children trace input ds →
    InTurn ctx.leniency (TriesAll ctx children trace input) input (Derivation.leavesAll ds)
  | _, _, _, _, .nil => by
    rw [Derivation.leavesAll]
    exact .nil
  | _, _, input, _, @DerivesAll.cons _ _ _ _ _ _ d _ hd hds => by
    rw [Derivation.leavesAll]
    have hlater := hds.leaves_inTurn.mono fun l => TriesAll.later hd
    rw [(d.eval_parts input).2.2] at hlater
    exact (hd.leaves_inTurn.mono fun l => .here).append hlater

end

end Typeahead
