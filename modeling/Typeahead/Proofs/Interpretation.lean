import Typeahead.Proofs.Recognition

/-!
# Interpretations

An interpretation of some input is a sentence of the grammar, as a `Tree`, whose literals can be read against
the input one after the other, and whose elements the guard lets in. What the guard asks of a tree depends on
its literals alone: where an element stands inside another of the same identity (`Tree.reentries`), the
literals between the two must use up some of the input, and must leave some (`Guarded`). Main statement: the
outputs of a pass are the readings of its interpretations (`Session.mem_outputs_iff`).
-/

namespace Typeahead

variable {n : Nat}

/-- What literals, read one after the other, leave of the input. -/
def leftAfter (leniency : Leniency) : List Literal → Text → Option Text
  | [], input => some input
  | l :: ls, input => (l.read? leniency input).bind fun out => leftAfter leniency ls out.remaining

theorem leftAfter_append (leniency : Leniency) (first second : List Literal) (input : Text) :
    leftAfter leniency (first ++ second) input =
      (leftAfter leniency first input).bind (leftAfter leniency second) := by
  induction first generalizing input with
  | nil => rfl
  | cons l ls ih =>
    simp only [List.cons_append, leftAfter, Option.bind_assoc]
    congr 1
    funext out
    exact ih out.remaining

theorem leftAfter_append_eq_some {leniency : Leniency} {first second : List Literal} {input left : Text}
    (h : leftAfter leniency (first ++ second) input = some left) :
    ∃ between, leftAfter leniency first input = some between ∧
      leftAfter leniency second between = some left := by
  rw [leftAfter_append] at h
  exact Option.bind_eq_some_iff.1 h

theorem leftAfter_suffix {leniency : Leniency} {literals : List Literal} {input left : Text}
    (h : leftAfter leniency literals input = some left) : left <:+ input := by
  induction literals generalizing input with
  | nil =>
    cases h
    exact List.suffix_refl _
  | cons l ls ih =>
    obtain ⟨out, hread, hleft⟩ := Option.bind_eq_some_iff.1 h
    exact (ih hleft).trans (Literal.read?_accounts hread).suffix

/-! ## Reading a tree -/

namespace Tree

mutual

def leaves : Tree → List Literal
  | .leaf _ literal => [literal]
  | .sequence _ children => leavesAll children
  | .choice _ child => child.leaves
  | .element _ _ _ expansion => expansion.leaves

def leavesAll : List Tree → List Literal
  | [] => []
  | tree :: trees => tree.leaves ++ leavesAll trees

end

mutual

/-- The reading of some input as a sentence, if its literals can be read one after the other. -/
def read? (leniency : Leniency) : Tree → Text → Option Output
  | .leaf label literal, input => (literal.read? leniency input).map (·.labelIf label)
  | .sequence label children, input =>
    (readAll? leniency children 0 (Output.seed input)).map (·.labelIf label)
  | .choice label child, input => (child.read? leniency input).map (·.labelIf label)
  | .element label _ value expansion, input =>
    (expansion.read? leniency input).map fun out => { out with result := value }.labelIf label

/-- The reading of a sequence from a position on. -/
def readAll? (leniency : Leniency) : List Tree → Nat → Output → Option Output
  | [], _, acc => some acc
  | tree :: trees, position, acc =>
    (tree.read? leniency acc.remaining).bind fun out =>
      readAll? leniency trees (position + 1) (acc.merge position out)

end

mutual

theorem leftAfter_leaves (leniency : Leniency) : ∀ (tree : Tree) (input : Text),
    leftAfter leniency tree.leaves input = (tree.read? leniency input).map (·.remaining)
  | .leaf label literal, input => by
    cases hread : literal.read? leniency input <;> simp [leaves, read?, leftAfter, hread]
  | .sequence label children, input => by
    rw [leaves, read?, Option.map_map]
    simpa [Function.comp_def, Output.seed] using
      leftAfter_leavesAll leniency children 0 (Output.seed input)
  | .choice label child, input => by
    rw [leaves, read?, Option.map_map, leftAfter_leaves leniency child]
    simp [Function.comp_def]
  | .element label identity value expansion, input => by
    rw [leaves, read?, Option.map_map, leftAfter_leaves leniency expansion]
    simp [Function.comp_def]

theorem leftAfter_leavesAll (leniency : Leniency) : ∀ (trees : List Tree) (position : Nat) (acc : Output),
    leftAfter leniency (leavesAll trees) acc.remaining =
      (readAll? leniency trees position acc).map (·.remaining)
  | [], position, acc => rfl
  | tree :: trees, position, acc => by
    rw [leavesAll, readAll?, leftAfter_append, leftAfter_leaves leniency tree]
    cases tree.read? leniency acc.remaining with
    | none => rfl
    | some out => exact leftAfter_leavesAll leniency trees (position + 1) (acc.merge position out)

end

mutual

/-- A reading shows the text of the sentence and has its value, whatever was typed. -/
theorem read?_shows {leniency : Leniency} : ∀ (tree : Tree) {input : Text} {out : Output},
    tree.read? leniency input = some out → out.text = tree.text ∧ out.result = tree.result
  | .leaf label literal, input, out, h => by
    obtain ⟨raw, hraw, rfl⟩ := Option.map_eq_some_iff.1 h
    obtain ⟨htext, hresult⟩ := Literal.read?_shows hraw
    simp [text, result, Output.result_labelIf, htext, hresult]
  | .sequence label children, input, out, h => by
    obtain ⟨raw, hraw, rfl⟩ := Option.map_eq_some_iff.1 h
    obtain ⟨htext, hresult⟩ := readAll?_shows children 0 rfl hraw
    have hseed : (Output.seed input).text = [] := rfl
    simp [text, result, Output.result_labelIf, htext, hresult, hseed]
  | .choice label child, input, out, h => by
    obtain ⟨raw, hraw, rfl⟩ := Option.map_eq_some_iff.1 h
    obtain ⟨htext, hresult⟩ := read?_shows child hraw
    simp [text, result, Output.result_labelIf, htext, hresult]
  | .element label identity value expansion, input, out, h => by
    obtain ⟨raw, hraw, rfl⟩ := Option.map_eq_some_iff.1 h
    obtain ⟨htext, -⟩ := read?_shows expansion hraw
    have hkept : { raw with result := value }.text = raw.text := rfl
    simp [text, result, Output.result_labelIf, hkept, htext]

theorem readAll?_shows {leniency : Leniency} : ∀ (trees : List Tree) (position : Nat) {acc out : Output}
    {fields : List (String × Value)}, acc.result = .obj fields →
    readAll? leniency trees position acc = some out →
    out.text = acc.text ++ textAll trees ∧ out.result = .obj (gather trees position fields)
  | [], position, acc, out, fields, hacc, h => by
    cases h
    simp [textAll, gather, hacc]
  | tree :: trees, position, acc, out, fields, hacc, h => by
    obtain ⟨first, hfirst, hrest⟩ := Option.bind_eq_some_iff.1 h
    obtain ⟨htext, hresult⟩ := read?_shows tree hfirst
    have hmerged : (acc.merge position first).result =
        .obj (Fields.insertAll fields (Output.contribution position tree.result)) := by
      simp only [Output.merge, Output.fields, hacc, hresult]
    obtain ⟨htextAll, hgather⟩ := readAll?_shows trees (position + 1) hmerged hrest
    simp [textAll, gather, htextAll, hgather, htext]

end

/-! ## What the guard asks of a tree -/

mutual

/-- The elements of a sentence, each with its identity and the literals that come before it. -/
def mentions : Tree → List (String × List Literal)
  | .leaf _ _ => []
  | .sequence _ children => mentionsAll children
  | .choice _ child => child.mentions
  | .element _ identity _ expansion => (identity, []) :: expansion.mentions

def mentionsAll : List Tree → List (String × List Literal)
  | [] => []
  | tree :: trees =>
    tree.mentions ++ (mentionsAll trees).map fun mention => (mention.1, tree.leaves ++ mention.2)

end

mutual

/-- The places where an element stands inside another of its identity: the literals that come before the
outer one, and those from there to the inner one. -/
def reentries : Tree → List (List Literal × List Literal)
  | .leaf _ _ => []
  | .sequence _ children => reentriesAll children
  | .choice _ child => child.reentries
  | .element _ identity _ expansion =>
    ((expansion.mentions.filter (·.1 = identity)).map fun mention => ([], mention.2)) ++
      expansion.reentries

def reentriesAll : List Tree → List (List Literal × List Literal)
  | [] => []
  | tree :: trees =>
    tree.reentries ++ (reentriesAll trees).map fun entry => (tree.leaves ++ entry.1, entry.2)

end

mutual

theorem leaves_of_mem_mentions : ∀ (tree : Tree) {mention : String × List Literal},
    mention ∈ tree.mentions → ∃ after, tree.leaves = mention.2 ++ after
  | .leaf label literal, mention, h => by simp [mentions] at h
  | .sequence label children, mention, h => leavesAll_of_mem_mentionsAll children h
  | .choice label child, mention, h => leaves_of_mem_mentions child h
  | .element label identity value expansion, mention, h => by
    rw [mentions, List.mem_cons] at h
    rcases h with rfl | h
    · exact ⟨_, rfl⟩
    · exact leaves_of_mem_mentions expansion h

theorem leavesAll_of_mem_mentionsAll : ∀ (trees : List Tree) {mention : String × List Literal},
    mention ∈ mentionsAll trees → ∃ after, leavesAll trees = mention.2 ++ after
  | [], mention, h => by simp [mentionsAll] at h
  | tree :: trees, mention, h => by
    rw [mentionsAll, List.mem_append, List.mem_map] at h
    rcases h with h | ⟨later, h, rfl⟩
    · obtain ⟨after, hafter⟩ := leaves_of_mem_mentions tree h
      exact ⟨after ++ leavesAll trees, by rw [leavesAll, hafter, List.append_assoc]⟩
    · obtain ⟨after, hafter⟩ := leavesAll_of_mem_mentionsAll trees h
      exact ⟨after, by rw [leavesAll, hafter, List.append_assoc]⟩

end

mutual

/-- The literals of a place where an element stands inside another are the first ones of the sentence. -/
theorem leaves_of_mem_reentries : ∀ (tree : Tree) {entry : List Literal × List Literal},
    entry ∈ tree.reentries → ∃ after, tree.leaves = entry.1 ++ entry.2 ++ after
  | .leaf label literal, entry, h => by simp [reentries] at h
  | .sequence label children, entry, h => leavesAll_of_mem_reentriesAll children h
  | .choice label child, entry, h => leaves_of_mem_reentries child h
  | .element label identity value expansion, entry, h => by
    rw [reentries, List.mem_append, List.mem_map] at h
    rcases h with ⟨mention, h, rfl⟩ | h
    · exact leaves_of_mem_mentions expansion (List.mem_filter.1 h).1
    · exact leaves_of_mem_reentries expansion h

theorem leavesAll_of_mem_reentriesAll : ∀ (trees : List Tree) {entry : List Literal × List Literal},
    entry ∈ reentriesAll trees → ∃ after, leavesAll trees = entry.1 ++ entry.2 ++ after
  | [], entry, h => by simp [reentriesAll] at h
  | tree :: trees, entry, h => by
    rw [reentriesAll, List.mem_append, List.mem_map] at h
    rcases h with h | ⟨later, h, rfl⟩
    · obtain ⟨after, hafter⟩ := leaves_of_mem_reentries tree h
      exact ⟨after ++ leavesAll trees, by rw [leavesAll, hafter, List.append_assoc]⟩
    · obtain ⟨after, hafter⟩ := leavesAll_of_mem_reentriesAll trees h
      exact ⟨after, by simp only [leavesAll, hafter, List.append_assoc]⟩

end

/-- When a sentence is read, so are the literals of such a place, and those after it. -/
theorem leftAfter_of_mem_reentries {tree : Tree} {leniency : Leniency} {input left : Text}
    (hleft : leftAfter leniency tree.leaves input = some left) {entry : List Literal × List Literal}
    (hentry : entry ∈ tree.reentries) :
    ∃ after outer inner, tree.leaves = entry.1 ++ entry.2 ++ after ∧
      leftAfter leniency entry.1 input = some outer ∧ leftAfter leniency entry.2 outer = some inner ∧
      leftAfter leniency after inner = some left := by
  obtain ⟨after, hafter⟩ := leaves_of_mem_reentries tree hentry
  rw [hafter] at hleft
  obtain ⟨inner, hfirst, hrest⟩ := leftAfter_append_eq_some hleft
  obtain ⟨outer, houter, hinner⟩ := leftAfter_append_eq_some hfirst
  exact ⟨after, outer, inner, hafter, houter, hinner, hrest⟩

end Tree

/-- The guard lets elements in: those mentioned, on a path that is there already, and those that are inside
others of their identity. -/
structure Guarded (leniency : Leniency) (mentions : List (String × List Literal))
    (reentries : List (List Literal × List Literal)) (trace : Trace) (input : Text) : Prop where
  admitted : ∀ mention ∈ mentions, ∀ left, leftAfter leniency mention.2 input = some left →
    trace.admits ⟨mention.1, left.length⟩ = true
  consuming : ∀ entry ∈ reentries, ∀ outer inner, leftAfter leniency entry.1 input = some outer →
    leftAfter leniency entry.2 outer = some inner → inner ≠ [] ∧ inner.length ≠ outer.length

theorem Trace.admits_cons {frame next : Frame} {trace : Trace} :
    Trace.admits (frame :: trace) next = true ↔ frame.blocks next = false ∧ trace.admits next = true := by
  simp [Trace.admits]

theorem Frame.blocks_eq_false {frame next : Frame} :
    frame.blocks next = false ↔
      (frame.identity = next.identity → next.remaining ≠ 0 ∧ next.remaining ≠ frame.remaining) := by
  simp only [Frame.blocks, Bool.and_eq_false_iff, Bool.or_eq_false_iff, beq_eq_false_iff_ne]
  constructor
  · rintro (hne | ⟨hsame, hzero⟩) hid
    · exact absurd hid hne
    · exact ⟨hzero, Ne.symm hsame⟩
  · intro h
    by_cases hid : frame.identity = next.identity
    · exact .inr ⟨Ne.symm (h hid).2, (h hid).1⟩
    · exact .inl hid

section

variable {leniency : Leniency} {trace : Trace} {input : Text}
  {mentions mentions' : List (String × List Literal)} {reentries reentries' : List (List Literal × List Literal)}

theorem guarded_nil : Guarded leniency [] [] trace input := ⟨nofun, nofun⟩

theorem guarded_append :
    Guarded leniency (mentions ++ mentions') (reentries ++ reentries') trace input ↔
      Guarded leniency mentions reentries trace input ∧
        Guarded leniency mentions' reentries' trace input := by
  constructor
  · rintro ⟨hadmitted, hconsuming⟩
    simp only [List.forall_mem_append] at hadmitted hconsuming
    exact ⟨⟨hadmitted.1, hconsuming.1⟩, hadmitted.2, hconsuming.2⟩
  · rintro ⟨h, h'⟩
    exact ⟨List.forall_mem_append.2 ⟨h.admitted, h'.admitted⟩,
      List.forall_mem_append.2 ⟨h.consuming, h'.consuming⟩⟩

/-- Elements that come after some literals are looked at with what these leave. -/
theorem guarded_after {before : List Literal} {left : Text}
    (hleft : leftAfter leniency before input = some left) :
    Guarded leniency (mentions.map fun mention => (mention.1, before ++ mention.2))
        (reentries.map fun entry => (before ++ entry.1, entry.2)) trace input ↔
      Guarded leniency mentions reentries trace left := by
  have hafter (literals : List Literal) :
      leftAfter leniency (before ++ literals) input = leftAfter leniency literals left := by
    rw [leftAfter_append, hleft]
    rfl
  constructor
  · rintro ⟨hadmitted, hconsuming⟩
    simp only [List.forall_mem_map, hafter] at hadmitted hconsuming
    exact ⟨hadmitted, hconsuming⟩
  · rintro ⟨hadmitted, hconsuming⟩
    refine ⟨?_, ?_⟩
    · simpa only [List.forall_mem_map, hafter] using hadmitted
    · simpa only [List.forall_mem_map, hafter] using hconsuming

/-- Elements inside another are looked at from the path that has its frame. -/
theorem guarded_element {identity : String} :
    Guarded leniency ((identity, []) :: mentions)
        (((mentions.filter (·.1 = identity)).map fun mention => ([], mention.2)) ++ reentries) trace input ↔
      trace.admits ⟨identity, input.length⟩ = true ∧
        Guarded leniency mentions reentries (⟨identity, input.length⟩ :: trace) input := by
  constructor
  · rintro ⟨hadmitted, hconsuming⟩
    obtain ⟨hfirst, hothers⟩ := List.forall_mem_cons.1 hadmitted
    obtain ⟨hinside, hreentries⟩ := List.forall_mem_append.1 hconsuming
    refine ⟨hfirst input rfl, fun mention hmention left hleft => ?_, hreentries⟩
    refine Trace.admits_cons.2 ⟨Frame.blocks_eq_false.2 fun hid => ?_, hothers mention hmention left hleft⟩
    -- the new frame asks for nothing that the list of places inside it does not ask for
    have hentry : (([] : List Literal), mention.2) ∈
        (mentions.filter (·.1 = identity)).map fun mention => ([], mention.2) :=
      List.mem_map.2 ⟨mention, List.mem_filter.2 ⟨hmention, by simpa using hid.symm⟩, rfl⟩
    obtain ⟨hleft', hlength⟩ := hinside _ hentry input left rfl hleft
    exact ⟨fun hzero => hleft' (List.length_eq_zero_iff.1 hzero), hlength⟩
  · rintro ⟨hfirst, hadmitted, hconsuming⟩
    have hsplit (mention : String × List Literal) (hmention : mention ∈ mentions) (left : Text)
        (hleft : leftAfter leniency mention.2 input = some left) :=
      Trace.admits_cons.1 (hadmitted mention hmention left hleft)
    refine ⟨List.forall_mem_cons.2 ⟨?_, fun mention hmention left hleft => ?_⟩,
      List.forall_mem_append.2 ⟨?_, hconsuming⟩⟩
    · rintro left hleft
      cases hleft
      exact hfirst
    · exact (hsplit mention hmention left hleft).2
    · simp only [List.forall_mem_map, List.mem_filter, decide_eq_true_eq]
      rintro mention ⟨hmention, hid⟩ outer inner houter hinner
      cases houter
      obtain ⟨hnonzero, hlength⟩ := Frame.blocks_eq_false.1 (hsplit mention hmention inner hinner).1 hid.symm
      exact ⟨fun hnil => hnonzero (by rw [hnil]; rfl), hlength⟩

end

/-- The guard lets in all elements of a sentence. -/
abbrev Tree.Passes (tree : Tree) (leniency : Leniency) (trace : Trace) (input : Text) : Prop :=
  Guarded leniency tree.mentions tree.reentries trace input

abbrev Tree.PassesAll (trees : List Tree) (leniency : Leniency) (trace : Trace) (input : Text) : Prop :=
  Guarded leniency (Tree.mentionsAll trees) (Tree.reentriesAll trees) trace input

theorem Tree.passes_element {label : Option String} {identity : String} {value : Value} {expansion : Tree}
    {leniency : Leniency} {trace : Trace} {input : Text} :
    (Tree.element label identity value expansion).Passes leniency trace input ↔
      trace.admits ⟨identity, input.length⟩ = true ∧
        expansion.Passes leniency (⟨identity, input.length⟩ :: trace) input := by
  simp only [Passes, mentions, reentries]
  exact guarded_element

theorem Tree.passesAll_cons {tree : Tree} {trees : List Tree} {leniency : Leniency} {trace : Trace}
    {input : Text} {out : Output} (h : tree.read? leniency input = some out) :
    PassesAll (tree :: trees) leniency trace input ↔
      tree.Passes leniency trace input ∧ PassesAll trees leniency trace out.remaining := by
  have hleft : leftAfter leniency tree.leaves input = some out.remaining := by
    rw [leftAfter_leaves, h]
    rfl
  simp only [PassesAll, mentionsAll, reentriesAll]
  rw [guarded_append, guarded_after hleft]

/-! ## Derivations as trees -/

theorem Output.revalue_result (out : Output) {value : Value} (h : out.result = value) :
    { out with result := value } = out := by
  rw [← h]

mutual

/-- **The sentence of a derivation**: it reads the input as the derivation does, and the guard lets it in. -/
theorem Derives.exists_tree {ctx : Context n} : ∀ {node : Node n} {trace : Trace} {input : Text}
    {d : Derivation}, Derives ctx node trace input d →
    ∃ tree, HasTree ctx node tree ∧ tree.read? ctx.leniency input = some (d.eval input) ∧
      tree.Passes ctx.leniency trace input
  | _, _, _, _, .literal hread => by
    refine ⟨_, .literal, ?_, guarded_nil⟩
    rw [Tree.read?, hread, Derivation.eval]
    rfl
  | _, _, input, _, .sequence hds => by
    obtain ⟨trees, htrees, hread, hpasses⟩ := hds.exists_trees 0 (Output.seed input) rfl
    refine ⟨_, .sequence htrees, ?_, hpasses⟩
    rw [Tree.read?, hread, Derivation.eval]
    rfl
  | _, _, _, _, .choice hchild hd => by
    obtain ⟨tree, htree, hread, hpasses⟩ := hd.exists_tree
    refine ⟨_, .choice (List.mem_of_getElem? hchild) htree, ?_, hpasses⟩
    rw [Tree.read?, hread, Derivation.eval]
    rfl
  | _, _, _, _, .overridden hadmits hoverride hd => by
    obtain ⟨tree, htree, hread, hpasses⟩ := hd.exists_tree
    -- a tree names the value of an element also where it is that of the expansion
    refine ⟨_, .overridden hoverride htree, ?_, Tree.passes_element.2 ⟨hadmits, hpasses⟩⟩
    rw [Tree.read?, hread, Derivation.eval, Option.map_some,
      Output.revalue_result _ (tree.read?_shows hread).2]
  | _, _, _, _, .described hadmits hoverride hdescribe hd haccepts hvalue => by
    obtain ⟨tree, htree, hread, hpasses⟩ := hd.exists_tree
    -- filter and value function see the value of the tree, whatever was typed
    rw [(tree.read?_shows hread).2] at haccepts hvalue
    refine ⟨_, .described hoverride hdescribe htree haccepts hvalue, ?_,
      Tree.passes_element.2 ⟨hadmits, hpasses⟩⟩
    rw [Tree.read?, hread, Derivation.eval]
    rfl
  | _, _, _, _, .supplemented hadmits hoverride hsupplement hd haccepts => by
    obtain ⟨tree, htree, hread, hpasses⟩ := hd.exists_tree
    rw [(tree.read?_shows hread).2] at haccepts
    refine ⟨_, .supplemented hoverride (List.mem_of_getElem? hsupplement) htree haccepts, ?_,
      Tree.passes_element.2 ⟨hadmits, hpasses⟩⟩
    rw [Tree.read?, hread, Derivation.eval, Option.map_some,
      Output.revalue_result _ (tree.read?_shows hread).2]

theorem DerivesAll.exists_trees {ctx : Context n} : ∀ {children : List (Node n)} {trace : Trace} {input : Text}
    {ds : List Derivation}, DerivesAll ctx children trace input ds →
    ∀ (position : Nat) (acc : Output), acc.remaining = input →
    ∃ trees, HasTrees ctx children trees ∧
      Tree.readAll? ctx.leniency trees position acc = some (Derivation.evalAll ds position acc) ∧
      Tree.PassesAll trees ctx.leniency trace input
  | _, _, _, _, .nil, position, acc, _ => ⟨[], .nil, rfl, guarded_nil⟩
  | _, _, _, _, .cons hd hds, position, acc, hacc => by
    subst hacc
    obtain ⟨tree, htree, hread, hpasses⟩ := hd.exists_tree
    obtain ⟨trees, htrees, hreadAll, hpassesAll⟩ :=
      hds.exists_trees (position + 1) (acc.merge position _) rfl
    refine ⟨tree :: trees, .cons htree htrees, ?_, (Tree.passesAll_cons hread).2 ⟨hpasses, hpassesAll⟩⟩
    rw [Tree.readAll?, hread, Derivation.evalAll]
    exact hreadAll

end

mutual

/-- **The derivation of a sentence** that reads the input and that the guard lets in. -/
theorem HasTree.exists_derivation {ctx : Context n} : ∀ (tree : Tree) {node : Node n} {trace : Trace}
    {input : Text} {out : Output}, HasTree ctx node tree → tree.read? ctx.leniency input = some out →
    tree.Passes ctx.leniency trace input → ∃ d, Derives ctx node trace input d ∧ d.eval input = out
  | .leaf label l, _, trace, input, out, htree, hread, _ => by
    cases htree
    obtain ⟨raw, hraw, rfl⟩ := Option.map_eq_some_iff.1 hread
    exact ⟨.leaf label raw, .literal hraw, by rw [Derivation.eval]⟩
  | .sequence label trees, _, trace, input, out, htree, hread, hpasses => by
    cases htree with
    | sequence htrees =>
      obtain ⟨raw, hraw, rfl⟩ := Option.map_eq_some_iff.1 hread
      obtain ⟨ds, hds, rfl⟩ := HasTrees.exists_derivations trees 0 htrees hraw hpasses
      exact ⟨.sequence label ds, .sequence hds, by rw [Derivation.eval]⟩
  | .choice label tree, _, trace, input, out, htree, hread, hpasses => by
    cases htree with
    | choice hchild htree =>
      obtain ⟨raw, hraw, rfl⟩ := Option.map_eq_some_iff.1 hread
      obtain ⟨d, hd, rfl⟩ := HasTree.exists_derivation tree htree hraw hpasses
      obtain ⟨index, hindex⟩ := List.getElem?_of_mem hchild
      exact ⟨.choice label index d, .choice hindex hd, by rw [Derivation.eval]⟩
  | .element label identity value tree, _, trace, input, out, htree, hread, hpasses => by
    obtain ⟨raw, hraw, rfl⟩ := Option.map_eq_some_iff.1 hread
    obtain ⟨hadmits, hinside⟩ := Tree.passes_element.1 hpasses
    have hresult := (tree.read?_shows hraw).2
    cases htree with
    | overridden hoverride htree =>
      obtain ⟨d, hd, rfl⟩ := HasTree.exists_derivation tree htree hraw hinside
      refine ⟨.overridden label d, .overridden hadmits hoverride hd, ?_⟩
      rw [Derivation.eval, Output.revalue_result _ hresult]
    | described hoverride hdescribe htree haccepts hvalue =>
      obtain ⟨d, hd, rfl⟩ := HasTree.exists_derivation tree htree hraw hinside
      rw [← hresult] at haccepts hvalue
      refine ⟨.described label value d, .described hadmits hoverride hdescribe hd haccepts hvalue, ?_⟩
      rw [Derivation.eval]
    | supplemented hoverride hsupplement htree haccepts =>
      obtain ⟨d, hd, rfl⟩ := HasTree.exists_derivation tree htree hraw hinside
      obtain ⟨index, hindex⟩ := List.getElem?_of_mem hsupplement
      rw [← hresult] at haccepts
      refine ⟨.supplemented label index d, .supplemented hadmits hoverride hindex hd haccepts, ?_⟩
      rw [Derivation.eval, Output.revalue_result _ hresult]

theorem HasTrees.exists_derivations {ctx : Context n} : ∀ (trees : List Tree) (position : Nat)
    {children : List (Node n)} {trace : Trace} {acc out : Output}, HasTrees ctx children trees →
    Tree.readAll? ctx.leniency trees position acc = some out →
    Tree.PassesAll trees ctx.leniency trace acc.remaining →
    ∃ ds, DerivesAll ctx children trace acc.remaining ds ∧ Derivation.evalAll ds position acc = out
  | [], position, _, trace, acc, out, htrees, hread, _ => by
    cases htrees
    cases hread
    exact ⟨[], .nil, by rw [Derivation.evalAll]⟩
  | tree :: trees, position, _, trace, acc, out, htrees, hread, hpasses => by
    cases htrees with
    | cons htree htrees =>
      obtain ⟨first, hfirst, hrest⟩ := Option.bind_eq_some_iff.1 hread
      obtain ⟨hpasses, hpassesAll⟩ := (Tree.passesAll_cons hfirst).1 hpasses
      obtain ⟨d, hd, rfl⟩ := HasTree.exists_derivation tree htree hfirst hpasses
      obtain ⟨ds, hds, rfl⟩ := HasTrees.exists_derivations trees (position + 1) htrees hrest hpassesAll
      exact ⟨d :: ds, .cons hd hds, by rw [Derivation.evalAll]⟩

end

/-! ## Interpretations of a pass -/

/-- A sentence of the session that reads all of the input, with the reading it gives. -/
structure Session.Interprets (session : Session n) (tree : Tree) (input : Text) (out : Output) : Prop where
  sentence : ∃ sentence ∈ session.sentences, HasTree session.pass.context sentence.node tree
  reads : tree.read? session.settings.leniency input = some out
  passes : tree.Passes session.settings.leniency [] input
  complete : out.remaining = []

/-- A pass changes what is visited and described, and nothing that interpretations go by. -/
theorem Session.Interprets.after_parse {session : Session n} {tree : Tree} {input : Text} {out : Output}
    (h : session.Interprets tree input out) (earlier : Text) :
    (session.parse earlier).2.Interprets tree input out :=
  ⟨h.sentence, h.reads, h.passes, h.complete⟩

/-- The outputs of a pass are the readings of the derivations that leave nothing of the input. -/
theorem Session.mem_outputs_iff_derives {session : Session n} (hlimit : session.settings.limit = none)
    {input : Text} {findings : Findings} (h : (session.parse input).1 = .ok findings) {out : Output} :
    out ∈ findings.outputs ↔ ∃ sentence ∈ session.sentences, ∃ d,
      Derives session.pass.context sentence.node [] input d ∧ d.eval input = out ∧ out.remaining = [] := by
  obtain ⟨hfault, houtputs⟩ := Session.parse_eq_ok h
  rw [session.stream_of_no_limit hlimit] at hfault houtputs
  have hends := Pass.fault?_unlimited_eq_none.1 hfault
  have hlists (sentence : Placed n) (hsentence : sentence ∈ session.sentences) :=
    session.pass.context.enumerates_resolveTraced sentence [] input (hends sentence hsentence)
  rw [houtputs, Pass.mem_outputs_unlimited hfault]
  constructor
  · rintro ⟨sentence, hsentence, hout, hcomplete⟩
    obtain ⟨d, hd, heval⟩ := (hlists sentence hsentence).exists_of_mem hout
    exact ⟨sentence, hsentence, d, hd, heval, List.isEmpty_iff.1 hcomplete⟩
  · rintro ⟨sentence, hsentence, d, hd, rfl, hcomplete⟩
    exact ⟨sentence, hsentence, (hlists sentence hsentence).value_mem hd, List.isEmpty_iff.2 hcomplete⟩

/-- **The outputs of a pass are the readings of its interpretations.** -/
theorem Session.mem_outputs_iff {session : Session n} (hlimit : session.settings.limit = none)
    {input : Text} {findings : Findings} (h : (session.parse input).1 = .ok findings) {out : Output} :
    out ∈ findings.outputs ↔ ∃ tree, session.Interprets tree input out := by
  rw [Session.mem_outputs_iff_derives hlimit h]
  constructor
  · rintro ⟨sentence, hsentence, d, hd, rfl, hcomplete⟩
    obtain ⟨tree, htree, hread, hpasses⟩ := hd.exists_tree
    exact ⟨tree, ⟨sentence, hsentence, htree⟩, hread, hpasses, hcomplete⟩
  · rintro ⟨tree, ⟨sentence, hsentence, htree⟩, hread, hpasses, hcomplete⟩
    obtain ⟨d, hd, heval⟩ := HasTree.exists_derivation tree htree hread hpasses
    exact ⟨sentence, hsentence, d, hd, heval, hcomplete⟩

/-- Unless a phrase function gives up, a pass without limit has findings. -/
theorem Session.exists_findings {session : Session n} (hlimit : session.settings.limit = none)
    (hquiet : session.phrases.Quiet) (input : Text) :
    ∃ findings, (session.parse input).1 = .ok findings := by
  refine Session.exists_parse_eq_ok ?_
  rw [session.stream_of_no_limit hlimit]
  exact Pass.fault?_unlimited hquiet input

end Typeahead
