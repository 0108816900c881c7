import Typeahead.Proofs.Enumeration
import Typeahead.Proofs.Pass

/-!
# Recognising typed sentences

A `Tree` is one of the sentences that a grammar has, apart from any input: a literal for every leaf, an
alternative for every choice, an expansion for every element. When its text is typed in full, reading finds
it, unless the guard against recursion is in the way: an element inside another of the same identity must
come after at least one character of the other, and before the end of the text. `Tree.Spaced` says so, and
`HasTree.derives` gives the derivation. Main statement: `typed_sentence_is_read`.
-/

namespace Typeahead

variable {n : Nat}

/-- A value put under a name, if there is one. -/
def Value.labelIf (value : Value) : Option String → Value
  | some name => .obj [(name, value)]
  | none => value

theorem Output.result_labelIf (out : Output) (label : Option String) :
    (out.labelIf label).result = out.result.labelIf label := by
  cases label <;> rfl

/-! ## Trees -/

/-- A sentence of a grammar, with its structure. -/
inductive Tree where
  | leaf (label : Option String) (literal : Literal)
  | sequence (label : Option String) (children : List Tree)
  | choice (label : Option String) (child : Tree)
  /-- An element of some identity, with the value it has and what it expands to. -/
  | element (label : Option String) (identity : String) (value : Value) (expansion : Tree)

namespace Tree

mutual

/-- The texts of the leaves, one after the other. -/
def text : Tree → Text
  | .leaf _ literal => literal.text
  | .sequence _ children => textAll children
  | .choice _ child => child.text
  | .element _ _ _ expansion => expansion.text

def textAll : List Tree → Text
  | [] => []
  | tree :: trees => tree.text ++ textAll trees

end

mutual

def result : Tree → Value
  | .leaf label literal => (literal.value.getD .null).labelIf label
  | .sequence label children => (Value.obj (gather children 0 [])).labelIf label
  | .choice label child => child.result.labelIf label
  | .element label _ value _ => value.labelIf label

/-- The fields of a sequence from a position on, with those gathered before. -/
def gather : List Tree → Nat → List (String × Value) → List (String × Value)
  | [], _, fields => fields
  | tree :: trees, position, fields =>
    gather trees (position + 1) (Fields.insertAll fields (Output.contribution position tree.result))

end

mutual

/-- Elements of the same identity, one inside the other, are far enough apart. An element is at the offset
in the text where it starts; `opened` has those that are around. -/
def Spaced (apart : Nat → Nat → Prop) : Tree → List (String × Nat) → Nat → Prop
  | .leaf _ _, _, _ => True
  | .sequence _ children, opened, offset => SpacedAll apart children opened offset
  | .choice _ child, opened, offset => child.Spaced apart opened offset
  | .element _ identity _ expansion, opened, offset =>
    (∀ start, (identity, start) ∈ opened → apart start offset) ∧
      expansion.Spaced apart ((identity, offset) :: opened) offset

def SpacedAll (apart : Nat → Nat → Prop) : List Tree → List (String × Nat) → Nat → Prop
  | [], _, _ => True
  | tree :: trees, opened, offset =>
    tree.Spaced apart opened offset ∧ SpacedAll apart trees opened (offset + tree.text.length)

end

end Tree

mutual

/-- The sentences of a node. -/
inductive HasTree (ctx : Context n) : Node n → Tree → Prop
  | literal {label : Option String} {l : Literal} : HasTree ctx (.literal label l) (.leaf label l)
  | sequence {label : Option String} {children : List (Node n)} {trees : List Tree} :
      HasTrees ctx children trees → HasTree ctx (.sequence label children) (.sequence label trees)
  | choice {label : Option String} {children : List (Node n)} {child : Node n} {tree : Tree} :
      child ∈ children → HasTree ctx child tree →
      HasTree ctx (.choice label children) (.choice label tree)
  | overridden {label : Option String} {e : Element n} {replacement : Placed n} {tree : Tree} :
      ctx.registry.override? (ctx.phrases e.phrase).identity = some replacement →
      HasTree ctx replacement.node tree →
      HasTree ctx (.element label e) (.element label (ctx.phrases e.phrase).identity tree.result tree)
  | described {label : Option String} {e : Element n} {description : Node n} {tree : Tree}
      {value : Value} :
      ctx.registry.override? (ctx.phrases e.phrase).identity = none →
      (ctx.phrases e.phrase).describe e.props = .ok description →
      HasTree ctx description tree →
      (ctx.phrases e.phrase).accepts e.props tree.result = .ok true →
      (ctx.phrases e.phrase).valueOf e.props tree.result = .ok value →
      HasTree ctx (.element label e) (.element label (ctx.phrases e.phrase).identity value tree)
  | supplemented {label : Option String} {e : Element n} {supplement : Placed n} {tree : Tree} :
      ctx.registry.override? (ctx.phrases e.phrase).identity = none →
      supplement ∈ ctx.registry.supplementsFor (ctx.phrases e.phrase).identity →
      HasTree ctx supplement.node tree →
      (ctx.phrases e.phrase).accepts e.props tree.result = .ok true →
      HasTree ctx (.element label e) (.element label (ctx.phrases e.phrase).identity tree.result tree)

inductive HasTrees (ctx : Context n) : List (Node n) → List Tree → Prop
  | nil : HasTrees ctx [] []
  | cons {child : Node n} {rest : List (Node n)} {tree : Tree} {trees : List Tree} :
      HasTree ctx child tree → HasTrees ctx rest trees → HasTrees ctx (child :: rest) (tree :: trees)

end

/-! ## Readings of a sentence -/

namespace Output.Spells

variable {out : Output} {text rest : Text} {result : Value}

theorem seed (input : Text) : (Output.seed input).Spells [] input (.obj []) :=
  ⟨rfl, nofun, rfl, rfl⟩

theorem labelIf (h : out.Spells text rest result) (label : Option String) :
    (out.labelIf label).Spells text rest (result.labelIf label) := by
  refine ⟨?_, ?_, ?_, ?_⟩
  · rw [Output.text, segments_labelIf]
    exact h.text
  · rw [segments_labelIf]
    exact h.typed
  · rw [remaining_labelIf]
    exact h.remaining
  · rw [result_labelIf, h.result]

theorem revalue (h : out.Spells text rest result) (value : Value) :
    { out with result := value }.Spells text rest value :=
  ⟨h.text, h.typed, h.remaining, rfl⟩

theorem merge {acc : Output} {before : Text} {fields : List (String × Value)}
    (hacc : acc.Spells before (text ++ rest) (.obj fields)) (h : out.Spells text rest result)
    (position : Nat) :
    (acc.merge position out).Spells (before ++ text) rest
      (.obj (Fields.insertAll fields (Output.contribution position result))) := by
  refine ⟨?_, ?_, h.remaining, ?_⟩
  · rw [text_merge, hacc.text, h.text]
  · intro segment hsegment
    rcases List.mem_append.1 hsegment with hbefore | hnew
    · exact hacc.typed segment hbefore
    · exact h.typed segment hnew
  · simp only [Output.merge, Output.fields, hacc.result, h.result]

end Output.Spells

/-! ## Past the guard -/

/-- What the guard asks of an element inside another of its identity: some of the text lies between where
the two start, and some is still to come. -/
def Apart (total start offset : Nat) : Prop := start < offset ∧ offset < total

/-- The identity of a frame, and how far into a text of some length it was entered. -/
def Frame.openedAt (total : Nat) (frame : Frame) : String × Nat :=
  (frame.identity, total - frame.remaining)

theorem Trace.admits_of_apart {trace : Trace} {next : Frame} {total offset : Nat}
    (hoffset : offset + next.remaining = total)
    (hapart : ∀ start, (next.identity, start) ∈ trace.map (Frame.openedAt total) →
      Apart total start offset) :
    trace.admits next = true := by
  simp only [Trace.admits, Bool.not_eq_true', List.any_eq_false]
  intro frame hframe hblocks
  simp only [Frame.blocks, Bool.and_eq_true, Bool.or_eq_true, beq_iff_eq] at hblocks
  obtain ⟨hidentity, hremaining⟩ := hblocks
  have hopened : (next.identity, total - frame.remaining) ∈ trace.map (Frame.openedAt total) :=
    hidentity ▸ List.mem_map_of_mem hframe
  obtain ⟨hstart, hend⟩ := hapart _ hopened
  rcases hremaining with hsame | hnone <;> omega

/-- An element that is far enough from those around it is let in, and what it expands to is looked at from
the longer path. -/
theorem Context.enters_of_spaced (ctx : Context n) {phrase : Fin n} {trace : Trace} {total offset : Nat}
    {input : Text} {expansion : Tree} (htotal : offset + input.length = total)
    (hapart : ∀ start, ((ctx.phrases phrase).identity, start) ∈ trace.map (Frame.openedAt total) →
      Apart total start offset)
    (hspaced : expansion.Spaced (Apart total)
      (((ctx.phrases phrase).identity, offset) :: trace.map (Frame.openedAt total)) offset) :
    trace.admits (ctx.frame phrase input) = true ∧
      expansion.Spaced (Apart total) ((ctx.frame phrase input :: trace).map (Frame.openedAt total))
        offset := by
  have hopened : (ctx.frame phrase input).openedAt total = ((ctx.phrases phrase).identity, offset) := by
    have hoffset : total - input.length = offset := by omega
    rw [Frame.openedAt, Context.frame, hoffset]
  refine ⟨Trace.admits_of_apart htotal hapart, ?_⟩
  rw [List.map_cons, hopened]
  exact hspaced

mutual

/-- **A sentence that is typed in full has a derivation**, whatever comes after it, if its elements are far
enough apart. -/
theorem HasTree.derives {ctx : Context n} {total : Nat} :
    ∀ (tree : Tree) {node : Node n} {trace : Trace} {offset : Nat} {rest : Text},
      HasTree ctx node tree →
      tree.Spaced (Apart total) (trace.map (Frame.openedAt total)) offset →
      offset + (tree.text ++ rest).length = total →
      ∃ d, Derives ctx node trace (tree.text ++ rest) d ∧
        (d.eval (tree.text ++ rest)).Spells tree.text rest tree.result
  | .leaf label l, _, trace, offset, rest, htree, _, _ => by
    cases htree
    obtain ⟨out, hread, hspells⟩ := l.read?_append ctx.leniency rest
    refine ⟨.leaf label out, .literal hread, ?_⟩
    simpa only [Derivation.eval, Tree.text, Tree.result] using hspells.labelIf label
  | .sequence label trees, _, trace, offset, rest, htree, hspaced, htotal => by
    cases htree with
    | sequence htrees =>
      simp only [Tree.text, Tree.Spaced] at hspaced htotal ⊢
      obtain ⟨ds, hds, hspells⟩ := HasTrees.derives trees 0 htrees hspaced htotal (.seed _)
      refine ⟨.sequence label ds, .sequence hds, ?_⟩
      simpa only [Derivation.eval, Tree.result, List.nil_append] using hspells.labelIf label
  | .choice label tree, _, trace, offset, rest, htree, hspaced, htotal => by
    cases htree with
    | choice hchild htree =>
      simp only [Tree.text, Tree.Spaced] at hspaced htotal ⊢
      obtain ⟨d, hd, hspells⟩ := HasTree.derives tree htree hspaced htotal
      obtain ⟨index, hindex⟩ := List.getElem?_of_mem hchild
      refine ⟨.choice label index d, .choice hindex hd, ?_⟩
      simpa only [Derivation.eval, Tree.result] using hspells.labelIf label
  | .element label identity value tree, _, trace, offset, rest, htree, hspaced, htotal => by
    simp only [Tree.text, Tree.Spaced, Tree.result] at hspaced htotal ⊢
    obtain ⟨hapart, hspaced⟩ := hspaced
    cases htree with
    | overridden hoverride htree =>
      obtain ⟨hadmits, hspaced⟩ := ctx.enters_of_spaced htotal hapart hspaced
      obtain ⟨d, hd, hspells⟩ := HasTree.derives tree htree hspaced htotal
      refine ⟨.overridden label d, .overridden hadmits hoverride hd, ?_⟩
      simpa only [Derivation.eval] using hspells.labelIf label
    | described hoverride hdescribe htree haccepts hvalue =>
      obtain ⟨hadmits, hspaced⟩ := ctx.enters_of_spaced htotal hapart hspaced
      obtain ⟨d, hd, hspells⟩ := HasTree.derives tree htree hspaced htotal
      rw [← hspells.result] at haccepts hvalue
      refine ⟨.described label value d, .described hadmits hoverride hdescribe hd haccepts hvalue, ?_⟩
      simpa only [Derivation.eval] using (hspells.revalue value).labelIf label
    | supplemented hoverride hsupplement htree haccepts =>
      obtain ⟨hadmits, hspaced⟩ := ctx.enters_of_spaced htotal hapart hspaced
      obtain ⟨d, hd, hspells⟩ := HasTree.derives tree htree hspaced htotal
      obtain ⟨index, hindex⟩ := List.getElem?_of_mem hsupplement
      rw [← hspells.result] at haccepts
      refine ⟨.supplemented label index d, .supplemented hadmits hoverride hindex hd haccepts, ?_⟩
      simpa only [Derivation.eval] using hspells.labelIf label

/-- The same of a sequence, from a position on. -/
theorem HasTrees.derives {ctx : Context n} {total : Nat} :
    ∀ (trees : List Tree) (position : Nat) {children : List (Node n)} {trace : Trace} {offset : Nat}
      {rest : Text} {acc : Output} {before : Text} {fields : List (String × Value)},
      HasTrees ctx children trees →
      Tree.SpacedAll (Apart total) trees (trace.map (Frame.openedAt total)) offset →
      offset + (Tree.textAll trees ++ rest).length = total →
      acc.Spells before (Tree.textAll trees ++ rest) (.obj fields) →
      ∃ ds, DerivesAll ctx children trace (Tree.textAll trees ++ rest) ds ∧
        (Derivation.evalAll ds position acc).Spells (before ++ Tree.textAll trees) rest
          (.obj (Tree.gather trees position fields))
  | [], position, _, trace, offset, rest, acc, before, fields, htrees, _, _, hacc => by
    cases htrees
    refine ⟨[], .nil, ?_⟩
    simpa only [Derivation.evalAll, Tree.textAll, Tree.gather, List.append_nil, List.nil_append] using hacc
  | tree :: trees, position, _, trace, offset, rest, acc, before, fields, htrees, hspaced, htotal, hacc => by
    cases htrees with
    | cons htree htrees =>
      simp only [Tree.textAll, Tree.SpacedAll, List.append_assoc] at hspaced htotal hacc ⊢
      obtain ⟨d, hd, hspells⟩ := HasTree.derives tree htree hspaced.1 htotal
      have hrest : offset + tree.text.length + (Tree.textAll trees ++ rest).length = total := by
        rw [List.length_append] at htotal
        omega
      obtain ⟨ds, hds, hall⟩ :=
        HasTrees.derives trees (position + 1) htrees hspaced.2 hrest (hacc.merge hspells position)
      rw [← hspells.remaining] at hds
      refine ⟨d :: ds, .cons hd hds, ?_⟩
      simpa only [Derivation.evalAll, Tree.gather, hacc.remaining, List.append_assoc] using hall

end

theorem HasTree.derives_text {ctx : Context n} {node : Node n} {tree : Tree} (htree : HasTree ctx node tree)
    (hspaced : tree.Spaced (Apart tree.text.length) [] 0) :
    ∃ d, Derives ctx node [] tree.text d ∧ (d.eval tree.text).Spells tree.text [] tree.result := by
  have hspaced' : tree.Spaced (Apart tree.text.length)
      (List.map (Frame.openedAt tree.text.length) []) 0 := hspaced
  have htotal : 0 + (tree.text ++ []).length = tree.text.length := by simp
  have hderives := HasTree.derives tree htree hspaced' htotal
  rwa [List.append_nil] at hderives

/-! ## Sentences of a session -/

/-- **A sentence that is typed in full is read.** Take a sentence of a session without limit, with its
structure, in which an element inside another of the same identity always starts at least one character
after it and before the end of the text. The findings for its text have an output that shows the text, all
of it typed, and has the value of the sentence. Unless a phrase function gives up, there are findings. -/
theorem typed_sentence_is_read (session : Session n) (hlimit : session.settings.limit = none)
    {sentence : Placed n} (hsentence : sentence ∈ session.sentences) {tree : Tree}
    (htree : HasTree session.pass.context sentence.node tree)
    (hspaced : tree.Spaced (Apart tree.text.length) [] 0) :
    (session.phrases.Quiet → ∃ findings, (session.parse tree.text).1 = .ok findings) ∧
    ∀ findings, (session.parse tree.text).1 = .ok findings →
      ∃ out ∈ findings.outputs, out.text = tree.text ∧
        (∀ segment ∈ out.segments, segment.typed = true) ∧ out.result = tree.result := by
  have hstream := session.stream_of_no_limit hlimit tree.text
  refine ⟨fun hquiet => ?_, fun findings hfindings => ?_⟩
  · refine Session.exists_parse_eq_ok ?_
    rw [hstream]
    exact Pass.fault?_unlimited hquiet tree.text
  · obtain ⟨hfault, houtputs⟩ := Session.parse_eq_ok hfindings
    rw [hstream] at hfault houtputs
    obtain ⟨d, hd, hspells⟩ := htree.derives_text hspaced
    have hends := Pass.fault?_unlimited_eq_none.1 hfault sentence hsentence
    have hlisted := session.pass.context.enumerates_resolveTraced sentence [] tree.text hends
    refine ⟨d.eval tree.text, ?_, hspells.text, hspells.typed, hspells.result⟩
    rw [houtputs, Pass.mem_outputs_unlimited hfault]
    refine ⟨sentence, hsentence, hlisted.value_mem hd, ?_⟩
    rw [Output.isComplete, hspells.remaining]
    rfl

/-! ## A run of letters

At the end of the text the guard lets no element in again, also where some of the text lies between. -/

def runNode : Node 1 := .element none ⟨⟨0, Nat.one_pos⟩, []⟩

/-- As many "a" as one likes. -/
def runPhrase : Phrase 1 where
  identity := "Run"
  describe _ := .ok (.choice none [.sequence none [.text "a", runNode], .text ""])

/-- A session with one sentence, in which there may be runs. -/
def runSession (sentence : Node 1) : Session 1 where
  phrases _ := runPhrase
  sentences := [⟨⟨0, []⟩, sentence⟩]

def Tree.ofText (s : String) : Tree := .leaf none ⟨s.toList, false, none, none⟩

def Tree.ofRun (description : Tree) : Tree := .element none "Run" description.result description

def runTree : Nat → Tree
  | 0 => .ofRun (.choice none (.ofText ""))
  | count + 1 => .ofRun (.choice none (.sequence none [.ofText "a", runTree count]))

theorem hasTree_runTree (sentence : Node 1) (count : Nat) :
    HasTree (runSession sentence).pass.context runNode (runTree count) := by
  induction count with
  | zero => exact .described rfl rfl (.choice (.tail _ (.head _)) .literal) rfl rfl
  | succ count ih =>
    exact .described rfl rfl (.choice (.head _) (.sequence (.cons .literal (.cons ih .nil)))) rfl rfl

def stoppedNode : Node 1 := .sequence none [runNode, .text "."]

def stoppedTree : Tree := .sequence none [runTree 2, .ofText "."]

/-- With a stop after it, a run is read. -/
theorem stopped_run_is_read :
    ∃ findings, ((runSession stoppedNode).parse "aa.".toList).1 = .ok findings ∧
      ∃ out ∈ findings.outputs, out.text = "aa.".toList ∧
        (∀ segment ∈ out.segments, segment.typed = true) ∧ out.result = .obj [] := by
  have htree : HasTree (runSession stoppedNode).pass.context stoppedNode stoppedTree :=
    .sequence (.cons (hasTree_runTree _ 2) (.cons .literal .nil))
  have hspaced : stoppedTree.Spaced (Apart stoppedTree.text.length) [] 0 := by
    simp [stoppedTree, runTree, Tree.ofRun, Tree.ofText, Tree.Spaced, Tree.SpacedAll, Tree.text,
      Tree.textAll, Apart]
  have hquiet : (runSession stoppedNode).phrases.Quiet := by
    rintro phrase f (h | ⟨h, -⟩ | h) <;> cases h
  have hsentence : ⟨⟨0, []⟩, stoppedNode⟩ ∈ (runSession stoppedNode).sentences :=
    List.mem_singleton_self _
  obtain ⟨hends, hreads⟩ := typed_sentence_is_read (runSession stoppedNode) rfl hsentence htree hspaced
  obtain ⟨findings, hfindings⟩ := hends hquiet
  exact ⟨findings, hfindings, hreads findings hfindings⟩

/-- A run alone is not: its last element, the empty one, is at the end of the text. -/
theorem lone_run_is_not_read :
    (runSession runNode).settings.limit = none ∧
    (∀ phrase props result, ((runSession runNode).phrases phrase).accepts props result = .ok true) ∧
    (∃ sentence ∈ (runSession runNode).sentences,
      HasTree (runSession runNode).pass.context sentence.node (runTree 1)) ∧
    (runTree 1).Spaced (fun start offset => start < offset) [] 0 ∧
    ∃ findings, ((runSession runNode).parse (runTree 1).text).1 = .ok findings ∧
      findings.outputs = [] := by
  refine ⟨rfl, fun _ _ _ => rfl, ⟨_, List.mem_singleton_self _, hasTree_runTree _ 1⟩, ?_, _, rfl, rfl⟩
  simp [runTree, Tree.ofRun, Tree.ofText, Tree.Spaced, Tree.SpacedAll, Tree.text]

end Typeahead
