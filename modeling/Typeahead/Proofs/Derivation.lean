import Typeahead.Resolution

/-!
# Derivations

A derivation is one way to read input as a node, with every choice that was made on the way: which
alternative of a choice, and for an element what stands in for it, its description, or which supplement.
`Derives` says which derivations there are for a node on a path with some input, by rules, one for each kind
of node and each way to expand an element; no order of work comes into it. `Derivation.eval` is the reading
that a derivation stands for, and `Derivation.choices` lists its choices from left to right and from the top
down.
-/

namespace Typeahead

variable {n : Nat}

/-- The reading with its value put under a name, if there is one. -/
def Output.labelIf (out : Output) : Option String → Output
  | some name => out.label name
  | none => out

namespace Output

variable (out : Output) (label : Option String)

@[simp] theorem segments_labelIf : (out.labelIf label).segments = out.segments := by cases label <;> rfl

@[simp] theorem text_labelIf : (out.labelIf label).text = out.text := by cases label <;> rfl

@[simp] theorem score_labelIf : (out.labelIf label).score = out.score := by cases label <;> rfl

@[simp] theorem remaining_labelIf : (out.labelIf label).remaining = out.remaining := by
  cases label <;> rfl

end Output

/-- The value that a phrase gives to a result of its description. -/
def Phrase.valueOf (phrase : Phrase n) (props : Props) (result : Value) : Except Fault Value :=
  match phrase.value with
  | some value => value props result
  | none => .ok result

/-- One way to read input. -/
inductive Derivation where
  /-- A literal, with the reading it gives. -/
  | leaf (label : Option String) (out : Output)
  | sequence (label : Option String) (children : List Derivation)
  | choice (label : Option String) (index : Nat) (child : Derivation)
  /-- An element, read as what stands in for it. -/
  | overridden (label : Option String) (replacement : Derivation)
  /-- An element, read as its description, with the value that its phrase gives. -/
  | described (label : Option String) (value : Value) (description : Derivation)
  /-- An element, read as one of its supplements. -/
  | supplemented (label : Option String) (index : Nat) (supplement : Derivation)

namespace Derivation

mutual

/-- The reading of some input that a derivation stands for. -/
def eval : Derivation → Text → Output
  | .leaf label out, _ => out.labelIf label
  | .sequence label children, input => (evalAll children 0 (Output.seed input)).labelIf label
  | .choice label _ child, input => (child.eval input).labelIf label
  | .overridden label replacement, input => (replacement.eval input).labelIf label
  | .described label value description, input =>
    { description.eval input with result := value }.labelIf label
  | .supplemented label _ supplement, input => (supplement.eval input).labelIf label

/-- The reading of a sequence from a position on, each child on what the one before has left. -/
def evalAll : List Derivation → Nat → Output → Output
  | [], _, acc => acc
  | d :: ds, position, acc => evalAll ds (position + 1) (acc.merge position (d.eval acc.remaining))

end

mutual

/-- The choices made, in order. The description of an element comes before its supplements. -/
def choices : Derivation → List Nat
  | .leaf _ _ => []
  | .sequence _ children => choicesAll children
  | .choice _ index child => index :: child.choices
  | .overridden _ replacement => replacement.choices
  | .described _ _ description => 0 :: description.choices
  | .supplemented _ index supplement => (index + 1) :: supplement.choices

def choicesAll : List Derivation → List Nat
  | [] => []
  | d :: ds => d.choices ++ choicesAll ds

end

mutual

/-- The readings of the literals, in order. -/
def leaves : Derivation → List Output
  | .leaf _ out => [out]
  | .sequence _ children => leavesAll children
  | .choice _ _ child => child.leaves
  | .overridden _ replacement => replacement.leaves
  | .described _ _ description => description.leaves
  | .supplemented _ _ supplement => supplement.leaves

def leavesAll : List Derivation → List Output
  | [] => []
  | d :: ds => d.leaves ++ leavesAll ds

end

mutual

/-- The score: that of a literal, and for a sequence the product of its children's, from left to right. -/
def score : Derivation → Binary64
  | .leaf _ out => out.score
  | .sequence _ children => scoreAll children .one
  | .choice _ _ child => child.score
  | .overridden _ replacement => replacement.score
  | .described _ _ description => description.score
  | .supplemented _ _ supplement => supplement.score

/-- The product of the scores of a list, times what was there before. -/
def scoreAll : List Derivation → Binary64 → Binary64
  | [], acc => acc
  | d :: ds, acc => scoreAll ds (acc.mul d.score)

end

/-- What a derivation leaves of the input: what its last literal leaves. -/
def rest (leaves : List Output) (input : Text) : Text := (leaves.getLast?.map (·.remaining)).getD input

theorem rest_append (first second : List Output) (input : Text) :
    rest (first ++ second) input = rest second (rest first input) := by
  rw [rest, List.getLast?_append]
  cases hsecond : second.getLast? with
  | none => simp [rest, hsecond]
  | some out => simp [rest, hsecond]

mutual

/-- The segments of a reading are those of its literals, its score is the derivation's, and it leaves what
the last literal leaves. -/
theorem eval_parts : ∀ (d : Derivation) (input : Text),
    (d.eval input).segments = d.leaves.flatMap (·.segments) ∧ (d.eval input).score = d.score ∧
      (d.eval input).remaining = rest d.leaves input
  | .leaf label out, input => by simp [eval, leaves, score, rest]
  | .sequence label children, input => by simp [eval, leaves, score, evalAll_parts children, Output.seed]
  | .choice label index child, input => by simp [eval, leaves, score, eval_parts child]
  | .overridden label replacement, input => by simp [eval, leaves, score, eval_parts replacement]
  | .described label value description, input => by simp [eval, leaves, score, eval_parts description]
  | .supplemented label index supplement, input => by simp [eval, leaves, score, eval_parts supplement]

theorem evalAll_parts : ∀ (ds : List Derivation) (position : Nat) (acc : Output),
    (evalAll ds position acc).segments = acc.segments ++ (leavesAll ds).flatMap (·.segments) ∧
      (evalAll ds position acc).score = scoreAll ds acc.score ∧
      (evalAll ds position acc).remaining = rest (leavesAll ds) acc.remaining
  | [], position, acc => by simp [evalAll, leavesAll, scoreAll, rest]
  | d :: ds, position, acc => by
    simp [evalAll, leavesAll, scoreAll, rest_append, evalAll_parts ds, eval_parts d, Output.merge]

end

end Derivation

mutual

/-- The derivations of a node on a path, with some input. -/
inductive Derives (ctx : Context n) : Node n → Trace → Text → Derivation → Prop
  | literal {label : Option String} {l : Literal} {trace : Trace} {input : Text} {out : Output} :
      l.read? ctx.leniency input = some out →
      Derives ctx (.literal label l) trace input (.leaf label out)
  | sequence {label : Option String} {children : List (Node n)} {trace : Trace} {input : Text}
      {ds : List Derivation} :
      DerivesAll ctx children trace input ds →
      Derives ctx (.sequence label children) trace input (.sequence label ds)
  | choice {label : Option String} {children : List (Node n)} {trace : Trace} {input : Text} {index : Nat}
      {child : Node n} {d : Derivation} :
      children[index]? = some child → Derives ctx child trace input d →
      Derives ctx (.choice label children) trace input (.choice label index d)
  | overridden {label : Option String} {e : Element n} {trace : Trace} {input : Text}
      {replacement : Placed n} {d : Derivation} :
      trace.admits (ctx.frame e.phrase input) = true →
      ctx.registry.override? (ctx.phrases e.phrase).identity = some replacement →
      Derives ctx replacement.node (ctx.frame e.phrase input :: trace) input d →
      Derives ctx (.element label e) trace input (.overridden label d)
  | described {label : Option String} {e : Element n} {trace : Trace} {input : Text}
      {description : Node n} {d : Derivation} {value : Value} :
      trace.admits (ctx.frame e.phrase input) = true →
      ctx.registry.override? (ctx.phrases e.phrase).identity = none →
      (ctx.phrases e.phrase).describe e.props = .ok description →
      Derives ctx description (ctx.frame e.phrase input :: trace) input d →
      (ctx.phrases e.phrase).accepts e.props (d.eval input).result = .ok true →
      (ctx.phrases e.phrase).valueOf e.props (d.eval input).result = .ok value →
      Derives ctx (.element label e) trace input (.described label value d)
  | supplemented {label : Option String} {e : Element n} {trace : Trace} {input : Text} {index : Nat}
      {supplement : Placed n} {d : Derivation} :
      trace.admits (ctx.frame e.phrase input) = true →
      ctx.registry.override? (ctx.phrases e.phrase).identity = none →
      (ctx.registry.supplementsFor (ctx.phrases e.phrase).identity)[index]? = some supplement →
      Derives ctx supplement.node (ctx.frame e.phrase input :: trace) input d →
      (ctx.phrases e.phrase).accepts e.props (d.eval input).result = .ok true →
      Derives ctx (.element label e) trace input (.supplemented label index d)

/-- One derivation for each node of a list, each on what the one before has left. -/
inductive DerivesAll (ctx : Context n) : List (Node n) → Trace → Text → List Derivation → Prop
  | nil {trace : Trace} {input : Text} : DerivesAll ctx [] trace input []
  | cons {child : Node n} {rest : List (Node n)} {trace : Trace} {input : Text} {d : Derivation}
      {ds : List Derivation} :
      Derives ctx child trace input d → DerivesAll ctx rest trace (d.eval input).remaining ds →
      DerivesAll ctx (child :: rest) trace input (d :: ds)

end

/-! ## Derivations of an element -/

section

variable {ctx : Context n} {label : Option String} {e : Element n} {trace : Trace} {input : Text}
  {d : Derivation}

theorem derives_element_of_override {replacement : Placed n}
    (hoverride : ctx.registry.override? (ctx.phrases e.phrase).identity = some replacement) :
    Derives ctx (.element label e) trace input d ↔
      trace.admits (ctx.frame e.phrase input) = true ∧
        ∃ d', Derives ctx replacement.node (ctx.frame e.phrase input :: trace) input d' ∧
          d = .overridden label d' := by
  constructor
  · intro h
    cases h with
    | overridden hadmits hreplacement hd =>
      cases hoverride.symm.trans hreplacement
      exact ⟨hadmits, _, hd, rfl⟩
    | described _ hnone => cases hoverride.symm.trans hnone
    | supplemented _ hnone => cases hoverride.symm.trans hnone
  · rintro ⟨hadmits, d', hd, rfl⟩
    exact .overridden hadmits hoverride hd

theorem derives_element_of_description {description : Node n}
    (hoverride : ctx.registry.override? (ctx.phrases e.phrase).identity = none)
    (hdescribe : (ctx.phrases e.phrase).describe e.props = .ok description) :
    Derives ctx (.element label e) trace input d ↔
      trace.admits (ctx.frame e.phrase input) = true ∧
        ((∃ value d', Derives ctx description (ctx.frame e.phrase input :: trace) input d' ∧
            (ctx.phrases e.phrase).accepts e.props (d'.eval input).result = .ok true ∧
            (ctx.phrases e.phrase).valueOf e.props (d'.eval input).result = .ok value ∧
            d = .described label value d') ∨
          ∃ index supplement d',
            (ctx.registry.supplementsFor (ctx.phrases e.phrase).identity)[index]? = some supplement ∧
            Derives ctx supplement.node (ctx.frame e.phrase input :: trace) input d' ∧
            (ctx.phrases e.phrase).accepts e.props (d'.eval input).result = .ok true ∧
            d = .supplemented label index d') := by
  constructor
  · intro h
    cases h with
    | overridden _ hreplacement => cases hoverride.symm.trans hreplacement
    | described hadmits _ hdescribed hd haccepts hvalue =>
      cases hdescribe.symm.trans hdescribed
      exact ⟨hadmits, .inl ⟨_, _, hd, haccepts, hvalue, rfl⟩⟩
    | supplemented hadmits _ hsupplement hd haccepts =>
      exact ⟨hadmits, .inr ⟨_, _, _, hsupplement, hd, haccepts, rfl⟩⟩
  · rintro ⟨hadmits, hown | hother⟩
    · obtain ⟨value, d', hd, haccepts, hvalue, rfl⟩ := hown
      exact .described hadmits hoverride hdescribe hd haccepts hvalue
    · obtain ⟨index, supplement, d', hsupplement, hd, haccepts, rfl⟩ := hother
      exact .supplemented hadmits hoverride hsupplement hd haccepts

theorem Derives.admits (h : Derives ctx (.element label e) trace input d) :
    trace.admits (ctx.frame e.phrase input) = true := by
  cases h <;> assumption

end

end Typeahead
