import Mathlib.Data.List.Nodup
import Mathlib.Data.List.Perm.Subperm
import Typeahead.Numbered.Store
import Typeahead.Proofs.Reading

/-!
# Numbers and the store

Making trees uses up numbers one after the other (`NumberedTree.numberAll_spec`), so the numbers of all nodes that there
are differ and lie below the next one (`Store.Distinct`). The calls for descriptions and what has come of them
are in step (`Store.Logged`): what is kept for an element is what the one call for it answered that had an answer,
and none was made after that. Both are kept when a description is asked for (`Store.Distinct.describe`,
`Store.Logged.describe`), and so is all that was there before (`Store.Grows`).
-/

namespace Typeahead

variable {n : Nat}

/-! ## Trees -/

namespace NumberedTree

/-- Induction on numbered trees: a sequence or choice has the property when all of its children do. -/
@[elab_as_elim]
theorem induction {motive : NumberedTree n → Prop}
    (literal : ∀ uid label l, motive (.literal uid label l))
    (sequence : ∀ uid label children, (∀ child ∈ children, motive child) → motive (.sequence uid label children))
    (choice : ∀ uid label children, (∀ child ∈ children, motive child) → motive (.choice uid label children))
    (element : ∀ uid label e, motive (.element uid label e))
    (nothing : ∀ uid label, motive (.nothing uid label)) : ∀ tree, motive tree
  | .literal uid label l => literal uid label l
  | .sequence uid label children =>
    sequence uid label children fun child _ => induction literal sequence choice element nothing child
  | .choice uid label children =>
    choice uid label children fun child _ => induction literal sequence choice element nothing child
  | .element uid label e => element uid label e
  | .nothing uid label => nothing uid label

theorem nodes_eq_map (trees : List (NumberedTree n)) : nodes trees = trees.map node := by
  induction trees with
  | nil => rfl
  | cons tree rest ih => rw [nodes, ih, List.map_cons]

theorem partsAll_eq_flatMap (trees : List (NumberedTree n)) : partsAll trees = trees.flatMap parts := by
  induction trees with
  | nil => rfl
  | cons tree rest ih => rw [partsAll, ih, List.flatMap_cons]

@[simp] theorem partsAll_append (trees later : List (NumberedTree n)) :
    partsAll (trees ++ later) = partsAll trees ++ partsAll later := by
  simp [partsAll_eq_flatMap]

theorem parts_subset_partsAll {tree : NumberedTree n} {trees : List (NumberedTree n)} (h : tree ∈ trees) :
    tree.parts ⊆ partsAll trees := by
  rw [partsAll_eq_flatMap]
  exact fun part hpart => List.mem_flatMap.2 ⟨tree, h, hpart⟩

theorem self_mem_parts (tree : NumberedTree n) : tree ∈ tree.parts := by
  cases tree <;> simp [parts]

theorem parts_subset_of_child {tree child : NumberedTree n} (h : child ∈ tree.children) : child.parts ⊆ tree.parts := by
  cases tree with
  | sequence uid label children | choice uid label children =>
    exact List.Subset.trans (parts_subset_partsAll h) (List.subset_append_left _ _)
  | _ => cases h

/-! ## Numbers of new trees -/

/-- Trees of some shapes, made with the numbers from `first` on, up to but not including `next`. -/
structure Made (shapes : List (Node n)) (first : Nat) (trees : List (NumberedTree n)) (next : Nat) : Prop where
  nodes : trees.map node = shapes
  uids : (partsAll trees).map uid = List.range' first (next - first)
  le : first ≤ next

theorem Made.nil (first : Nat) : Made ([] : List (Node n)) first [] first :=
  ⟨rfl, by simp [partsAll], Nat.le_refl first⟩

theorem Made.append {shapes later : List (Node n)} {first middle next : Nat} {trees others : List (NumberedTree n)}
    (h : Made shapes first trees middle) (h' : Made later middle others next) :
    Made (shapes ++ later) first (trees ++ others) next where
  nodes := by rw [List.map_append, h.nodes, h'.nodes]
  uids := by
    obtain ⟨count, rfl⟩ := Nat.exists_eq_add_of_le h.le
    obtain ⟨count', rfl⟩ := Nat.exists_eq_add_of_le h'.le
    have hcount := h.uids
    have hcount' := h'.uids
    rw [Nat.add_sub_cancel_left] at hcount hcount'
    rw [partsAll_append, List.map_append, hcount, hcount', Nat.add_assoc, Nat.add_sub_cancel_left,
      List.range'_append_1]
  le := h.le.trans h'.le

/-- A node is made after its children, with the next number. -/
theorem Made.parent {shapes : List (Node n)} {first next : Nat} {trees : List (NumberedTree n)} {tree : NumberedTree n}
    {shape : Node n} (h : Made shapes first trees next) (hnode : tree.node = shape)
    (hparts : tree.parts = partsAll trees ++ [tree]) (huid : tree.uid = next) :
    Made [shape] first [tree] (next + 1) where
  nodes := congrArg (fun node => [node]) hnode
  uids := by
    obtain ⟨count, rfl⟩ := Nat.exists_eq_add_of_le h.le
    have hcount := h.uids
    rw [Nat.add_sub_cancel_left] at hcount
    rw [partsAll, partsAll, List.append_nil, hparts, List.map_append, hcount, List.map_singleton, huid,
      Nat.add_assoc, Nat.add_sub_cancel_left, List.range'_1_concat]
  le := Nat.le_succ_of_le h.le

theorem Made.leaf (tree : NumberedTree n) (hparts : tree.parts = [tree]) :
    Made [tree.node] tree.uid [tree] (tree.uid + 1) :=
  (Made.nil tree.uid).parent rfl hparts rfl

theorem made_numberAll {shapes : List (Node n)}
    (h : ∀ shape ∈ shapes, ∀ first, Made [shape] first [(shape.number first).1] (shape.number first).2)
    (first : Nat) : Made shapes first (Node.numberAll shapes first).1 (Node.numberAll shapes first).2 := by
  induction shapes generalizing first with
  | nil => exact .nil first
  | cons shape rest ih =>
    rw [List.forall_mem_cons] at h
    rw [Node.numberAll]
    exact (h.1 first).append (ih h.2 _)

theorem made_number (shape : Node n) (first : Nat) :
    Made [shape] first [(shape.number first).1] (shape.number first).2 := by
  induction shape using Node.induction generalizing first with
  | literal label l => exact .leaf (.literal first label l) rfl
  | sequence label children ih =>
    have hchildren := made_numberAll ih first
    have hnodes := (nodes_eq_map _).trans hchildren.nodes
    exact hchildren.parent (congrArg (Node.sequence label) hnodes) rfl rfl
  | choice label children ih =>
    have hchildren := made_numberAll ih first
    have hnodes := (nodes_eq_map _).trans hchildren.nodes
    exact hchildren.parent (congrArg (Node.choice label) hnodes) rfl rfl
  | element label e => exact .leaf (.element first label e) rfl
  | nothing label => exact .leaf (.nothing first label) rfl

/-- **New trees** have the shapes that were asked for, and their numbers are the next ones. -/
theorem numberAll_spec (shapes : List (Node n)) (first : Nat) :
    Made shapes first (Node.numberAll shapes first).1 (Node.numberAll shapes first).2 :=
  made_numberAll (fun shape _ => made_number shape) first

/-- Nodes with new numbers, besides nodes with numbers below. -/
theorem Made.nodup {shapes : List (Node n)} {first next : Nat} {trees parts : List (NumberedTree n)}
    (h : Made shapes first trees next) (hnodup : (parts.map uid).Nodup) (hlt : ∀ part ∈ parts, part.uid < first) :
    ((partsAll trees ++ parts).map uid).Nodup := by
  rw [List.map_append, h.uids]
  refine (List.nodup_range' (h := Nat.one_pos)).append hnodup fun number hnew hold => ?_
  obtain ⟨part, hpart, rfl⟩ := List.mem_map.1 hold
  exact absurd (hlt part hpart) (Nat.not_lt.2 (List.mem_range'_1.1 hnew).1)

theorem Made.mem_iff {shapes : List (Node n)} {first next : Nat} {trees : List (NumberedTree n)}
    (h : Made shapes first trees next) {part : NumberedTree n} (hpart : part ∈ partsAll trees) :
    first ≤ part.uid ∧ part.uid < next := by
  have hmem := List.mem_map_of_mem (f := uid) hpart
  rw [h.uids, List.mem_range'_1] at hmem
  have := h.le
  omega

end NumberedTree

/-! ## All nodes there are -/

namespace Store

variable {roots : List (NumberedTree n)} {store : Store n} {describer : Describer n} {uid : Nat} {e : Element n}

/-- The nodes of some trees and of all descriptions. -/
def parts (store : Store n) (roots : List (NumberedTree n)) : List (NumberedTree n) :=
  NumberedTree.partsAll (store.cells.map (·.2)) ++ NumberedTree.partsAll roots

def described (store : Store n) : List Nat := store.cells.map (·.1)

/-- All nodes have different numbers, below the next one, and descriptions were called for only by the elements
that have the numbers. -/
structure Distinct (store : Store n) (roots : List (NumberedTree n)) : Prop where
  nodup : ((store.parts roots).map NumberedTree.uid).Nodup
  lt_next : ∀ part ∈ store.parts roots, part.uid < store.next
  lt_next_of_call : ∀ call ∈ store.calls, call.uid < store.next
  element : ∀ call ∈ store.calls, ∀ part ∈ store.parts roots, part.uid = call.uid →
    ∃ label, part = .element call.uid label call.element

/-- A number belongs to one node. -/
theorem Distinct.unique (h : store.Distinct roots) {part other : NumberedTree n} (hpart : part ∈ store.parts roots)
    (hother : other ∈ store.parts roots) (huid : part.uid = other.uid) : part = other :=
  List.inj_on_of_nodup_map h.nodup hpart hother huid

theorem Distinct.note (h : store.Distinct roots) {label : Option String}
    (hstands : .element uid label e ∈ store.parts roots) (spare : Nat) :
    (store.note uid e spare).Distinct roots where
  nodup := h.nodup
  lt_next part hpart := Nat.lt_add_right spare (h.lt_next part hpart)
  lt_next_of_call call hcall := by
    rcases List.mem_append.1 hcall with hbefore | hnew
    · exact Nat.lt_add_right spare (h.lt_next_of_call call hbefore)
    · cases List.mem_singleton.1 hnew
      exact Nat.lt_add_right spare (h.lt_next _ hstands)
  element call hcall part hpart huid := by
    rcases List.mem_append.1 hcall with hbefore | hnew
    · exact h.element call hbefore part hpart huid
    · cases List.mem_singleton.1 hnew
      exact ⟨label, h.unique hpart hstands huid⟩

theorem Distinct.made (h : store.Distinct roots) {shapes : List (Node n)} {trees others : List (NumberedTree n)}
    {next : Nat} {cells : List (Nat × NumberedTree n)}
    (hmade : NumberedTree.Made shapes store.next trees next)
    (hperm : (Store.parts { store with next, cells } others).Perm (NumberedTree.partsAll trees ++ store.parts roots)) :
    Distinct { store with next, cells } others where
  nodup := (hperm.map _).nodup_iff.2 (hmade.nodup h.nodup h.lt_next)
  lt_next part hpart := by
    rcases List.mem_append.1 (hperm.mem_iff.1 hpart) with hnew | hold
    · exact (hmade.mem_iff hnew).2
    · exact Nat.lt_of_lt_of_le (h.lt_next part hold) hmade.le
  lt_next_of_call call hcall := Nat.lt_of_lt_of_le (h.lt_next_of_call call hcall) hmade.le
  element call hcall part hpart huid := by
    rcases List.mem_append.1 (hperm.mem_iff.1 hpart) with hnew | hold
    -- the numbers of new nodes were not called for before
    · have hlt := h.lt_next_of_call call hcall
      have hle := (hmade.mem_iff hnew).1
      omega
    · exact h.element call hcall part hold huid

/-- Numbers may be left out. -/
theorem Distinct.skip (h : store.Distinct roots) {next : Nat} (hle : store.next ≤ next) :
    Distinct { store with next } roots where
  nodup := h.nodup
  lt_next part hpart := Nat.lt_of_lt_of_le (h.lt_next part hpart) hle
  lt_next_of_call call hcall := Nat.lt_of_lt_of_le (h.lt_next_of_call call hcall) hle
  element := h.element

/-- New roots may come. -/
theorem Distinct.add (h : store.Distinct roots) {shapes : List (Node n)} {trees : List (NumberedTree n)} {next : Nat}
    (hmade : NumberedTree.Made shapes store.next trees next) : Distinct { store with next } (trees ++ roots) := by
  refine h.made hmade ?_
  simp only [parts, NumberedTree.partsAll_append]
  exact List.perm_append_comm_assoc _ _ _

/-- Roots may go. -/
theorem Distinct.of_perm (h : store.Distinct roots) {others left : List (NumberedTree n)}
    (hperm : (others ++ left).Perm roots) : store.Distinct others := by
  have hall : (NumberedTree.partsAll (others ++ left)).Perm (NumberedTree.partsAll roots) := by
    rw [NumberedTree.partsAll_eq_flatMap, NumberedTree.partsAll_eq_flatMap]
    exact hperm.flatMap_right _
  rw [NumberedTree.partsAll_append] at hall
  have hsub : (store.parts others).Subperm (store.parts roots) :=
    (List.subperm_append_left _).2 ((List.sublist_append_left _ _).subperm.trans hall.subperm)
  obtain ⟨parts, hparts, hsublist⟩ := hsub
  have hmem := fun part (hpart : part ∈ store.parts others) => hsublist.subset (hparts.mem_iff.2 hpart)
  exact ⟨(hparts.map _).nodup_iff.1 (h.nodup.sublist (hsublist.map _)),
    fun part hpart => h.lt_next part (hmem part hpart), h.lt_next_of_call,
    fun call hcall part hpart => h.element call hcall part (hmem part hpart)⟩

/-! ## What a call comes to -/

theorem Distinct.keep (h : store.Distinct roots) (uid : Nat) (node : Node n) :
    (store.keep uid node).2.Distinct roots := by
  refine h.made (NumberedTree.made_number node store.next) (.of_eq ?_)
  simp [parts, NumberedTree.partsAll]

theorem description?_eq_some (hnodup : store.described.Nodup) {tree : NumberedTree n} :
    store.description? uid = some tree ↔ (uid, tree) ∈ store.cells := by
  rw [description?, List.lookup_eq_some_iff]
  constructor
  · rintro ⟨before, after, hcells, -⟩
    simp [hcells]
  · intro hmem
    obtain ⟨before, after, hcells⟩ := List.append_of_mem hmem
    rw [described, hcells, List.map_append, List.map_cons] at hnodup
    refine ⟨before, after, hcells, fun cell hcell => ?_⟩
    have hne := List.disjoint_of_nodup_append hnodup (List.mem_map_of_mem (f := (·.1)) hcell)
    exact bne_iff_ne.2 fun heq => hne (List.mem_cons.2 (.inl heq.symm))

theorem description?_eq_none : store.description? uid = none ↔ uid ∉ store.described := by
  rw [description?, described, List.lookup_eq_none_iff, List.mem_map]
  constructor
  · rintro h ⟨cell, hcell, rfl⟩
    simpa using h cell hcell
  · intro h cell hcell
    exact bne_iff_ne.2 fun heq => h ⟨cell, hcell, heq.symm⟩

/-- **What asking for a description comes to**: it is there; or it is called for and the function gives up; or it
is called for, made and kept. -/
theorem describe_cases (store : Store n) (describer : Describer n) (uid : Nat) (e : Element n) :
    (∃ tree, store.description? uid = some tree ∧ store.describe describer uid e = (.ok tree, store)) ∨
    (uid ∉ store.described ∧ ∃ f, (describer store.calls.length e.phrase e.props).tree = .error f ∧
      store.describe describer uid e =
        (.error f, store.note uid e (describer store.calls.length e.phrase e.props).spare)) ∨
    (uid ∉ store.described ∧ ∃ node, (describer store.calls.length e.phrase e.props).tree = .ok node ∧
      ∃ tree after, (store.note uid e (describer store.calls.length e.phrase e.props).spare).keep uid node =
        (tree, after) ∧ store.describe describer uid e = (.ok tree, after)) := by
  unfold describe
  split
  · next tree htree => exact .inl ⟨tree, htree, rfl⟩
  · next hnone =>
    refine .inr ?_
    have hnot := description?_eq_none.1 hnone
    dsimp only
    split
    · next f hf => exact .inl ⟨hnot, f, hf, rfl⟩
    · next node hnode => exact .inr ⟨hnot, node, hnode, _, _, rfl, rfl⟩

/-- **Asking for a description** keeps nodes distinct. -/
theorem Distinct.describe (h : store.Distinct roots) {label : Option String}
    (hstands : .element uid label e ∈ store.parts roots) : (store.describe describer uid e).2.Distinct roots := by
  rcases store.describe_cases describer uid e with
    ⟨tree, -, heq⟩ | ⟨-, f, -, heq⟩ | ⟨-, node, -, tree, after, hkeep, heq⟩
  · rw [heq]
    exact h
  · rw [heq]
    exact h.note hstands _
  · rw [heq]
    have hafter := (h.note hstands (describer store.calls.length e.phrase e.props).spare).keep uid node
    rwa [hkeep] at hafter

/-- Calls and descriptions are in step. -/
structure Logged (store : Store n) (describer : Describer n) : Prop where
  nodup : store.described.Nodup
  /-- What is kept for an element is what a call for it answered. -/
  answered : ∀ uid tree, (uid, tree) ∈ store.cells → ∃ index e, store.calls[index]? = some ⟨uid, e⟩ ∧
    (describer index e.phrase e.props).tree = .ok tree.node
  /-- A call that was answered was the last one for the element, and its answer is kept. -/
  last : ∀ index uid e node, store.calls[index]? = some ⟨uid, e⟩ →
    (describer index e.phrase e.props).tree = .ok node →
    (∃ tree, (uid, tree) ∈ store.cells ∧ tree.node = node) ∧
    ∀ later call, store.calls[later]? = some call → call.uid = uid → later ≤ index

theorem Logged.skip (h : store.Logged describer) (next : Nat) : Logged { store with next } describer :=
  ⟨h.nodup, h.answered, h.last⟩

theorem keep_spec {tree : NumberedTree n} {after : Store n} {node : Node n} (h : store.keep uid node = (tree, after)) :
    tree.node = node ∧ after.cells = (uid, tree) :: store.cells ∧ after.calls = store.calls := by
  have hnodes := (NumberedTree.made_number node store.next).nodes
  cases h
  exact ⟨by simpa using hnodes, rfl, rfl⟩

theorem getElem?_note {spare index : Nat} {call : Call n} :
    (store.note uid e spare).calls[index]? = some call ↔
      store.calls[index]? = some call ∨ index = store.calls.length ∧ call = ⟨uid, e⟩ := by
  rw [note, List.getElem?_append]
  split
  · next hlt => simp [Nat.ne_of_lt hlt]
  · next hle =>
    rw [List.getElem?_eq_none_iff.2 (Nat.le_of_not_lt hle), List.getElem?_singleton]
    split <;> grind

section

variable {spare index : Nat} {node : Node n}

/-- An answered call of earlier is still the last one for its element, after an element without a description has
called. -/
theorem Logged.le_of_note (h : store.Logged describer) (hnot : uid ∉ store.described) {call : Call n}
    (hcall : store.calls[index]? = some call)
    (hanswer : (describer index call.element.phrase call.element.props).tree = .ok node) {later : Nat} {other : Call n}
    (hlater : (store.note uid e spare).calls[later]? = some other) (huid : other.uid = call.uid) : later ≤ index := by
  obtain ⟨⟨tree, hkept, -⟩, hlast⟩ := h.last index call.uid call.element node hcall hanswer
  rcases getElem?_note.1 hlater with hbefore | ⟨-, rfl⟩
  · exact hlast later other hbefore huid
  · -- what calls now has no description, and the answer to the earlier call was kept
    rw [← huid] at hkept
    exact absurd (List.mem_map_of_mem (f := (·.1)) hkept) hnot

/-- A call that fails leaves nothing to keep. -/
theorem Logged.note (h : store.Logged describer) (hnot : uid ∉ store.described) {f : Fault}
    (hf : (describer store.calls.length e.phrase e.props).tree = .error f) :
    (store.note uid e spare).Logged describer := by
  refine ⟨h.nodup, fun uid' tree hkept => ?_, fun index uid' e' node hcall hanswer => ?_⟩
  · obtain ⟨index, e', hcall, hanswer⟩ := h.answered uid' tree hkept
    exact ⟨index, e', getElem?_note.2 (.inl hcall), hanswer⟩
  · rcases getElem?_note.1 hcall with hbefore | ⟨rfl, hsame⟩
    · obtain ⟨hkept, -⟩ := h.last index uid' e' node hbefore hanswer
      exact ⟨hkept, fun later call hlater huid => h.le_of_note hnot hbefore hanswer hlater huid⟩
    · cases hsame
      cases hf.symm.trans hanswer

/-- The answer to a call is kept. -/
theorem Logged.keep (h : store.Logged describer) (hnot : uid ∉ store.described)
    (hnode : (describer store.calls.length e.phrase e.props).tree = .ok node) {tree : NumberedTree n} {after : Store n}
    (hkeep : (store.note uid e spare).keep uid node = (tree, after)) : after.Logged describer := by
  obtain ⟨hshape, hcells, hcalls⟩ := keep_spec hkeep
  refine ⟨?_, fun uid' tree' hkept => ?_, fun index uid' e' node' hcall hanswer => ?_⟩
  · rw [described, hcells]
    exact List.nodup_cons.2 ⟨hnot, h.nodup⟩
  · rw [hcells] at hkept
    rw [hcalls]
    rcases List.mem_cons.1 hkept with hnow | hbefore
    · cases hnow
      exact ⟨_, e, getElem?_note.2 (.inr ⟨rfl, rfl⟩), hshape ▸ hnode⟩
    · obtain ⟨index, e', hcall, hanswer⟩ := h.answered uid' tree' hbefore
      exact ⟨index, e', getElem?_note.2 (.inl hcall), hanswer⟩
  · rw [hcalls] at hcall ⊢
    rw [hcells]
    rcases getElem?_note.1 hcall with hbefore | ⟨rfl, hsame⟩
    · obtain ⟨⟨tree', hkept, hnode'⟩, -⟩ := h.last index uid' e' node' hbefore hanswer
      refine ⟨⟨tree', List.mem_cons_of_mem _ hkept, hnode'⟩, fun later call hlater huid => ?_⟩
      exact h.le_of_note hnot hbefore hanswer hlater huid
    · cases hsame
      cases hnode.symm.trans hanswer
      refine ⟨⟨tree, List.mem_cons_self, hshape⟩, fun later call hlater _ => ?_⟩
      rcases getElem?_note.1 hlater with hlater | ⟨rfl, -⟩
      · exact Nat.le_of_lt (List.getElem?_eq_some_iff.1 hlater).1
      · exact Nat.le_refl _

end

/-- **Asking for a description** keeps calls and descriptions in step. -/
theorem Logged.describe (h : store.Logged describer) (uid : Nat) (e : Element n) :
    (store.describe describer uid e).2.Logged describer := by
  rcases store.describe_cases describer uid e with
    ⟨tree, -, heq⟩ | ⟨hnot, f, hf, heq⟩ | ⟨hnot, node, hnode, tree, after, hkeep, heq⟩
  · rw [heq]
    exact h
  · rw [heq]
    exact h.note hnot hf
  · rw [heq]
    exact h.keep hnot hnode hkeep

/-- An element has no description as long as all calls for it have failed. -/
theorem Logged.description?_eq_none_iff (h : store.Logged describer) :
    store.description? uid = none ↔ ∀ index e, store.calls[index]? = some ⟨uid, e⟩ →
      ∃ f, (describer index e.phrase e.props).tree = .error f := by
  rw [description?_eq_none]
  constructor
  · intro hnot index e hcall
    cases hanswer : (describer index e.phrase e.props).tree with
    | error f => exact ⟨f, rfl⟩
    | ok node =>
      obtain ⟨⟨tree, hkept, -⟩, -⟩ := h.last index uid e node hcall hanswer
      exact absurd (List.mem_map_of_mem (f := (·.1)) hkept) hnot
  · intro hfailed hmem
    obtain ⟨⟨_, tree⟩, hkept, rfl⟩ := List.mem_map.1 hmem
    obtain ⟨index, e, hcall, hanswer⟩ := h.answered _ tree hkept
    obtain ⟨f, hf⟩ := hfailed index e hcall
    cases hf.symm.trans hanswer

/-! ## What becomes of a store -/

/-- What a store can become by being asked for descriptions of nodes there are: it is in order, some calls were made
for elements that had no description, and what was kept is kept. -/
structure Reaches (describer : Describer n) (roots : List (NumberedTree n)) (before : Store n) (more : List (Call n))
    (after : Store n) : Prop where
  distinct : after.Distinct roots
  logged : after.Logged describer
  next_le : before.next ≤ after.next
  cells : before.cells <:+ after.cells
  calls : after.calls = before.calls ++ more
  undescribed : ∀ call ∈ more, call.uid ∉ before.described

namespace Reaches

variable {before middle after : Store n} {more later : List (Call n)}

theorem refl (hdistinct : store.Distinct roots) (hlogged : store.Logged describer) :
    store.Reaches describer roots [] store :=
  ⟨hdistinct, hlogged, Nat.le_refl _, List.suffix_refl _, (List.append_nil _).symm, nofun⟩

theorem described_subset (h : before.Reaches describer roots more after) : before.described ⊆ after.described :=
  List.map_subset _ h.cells.subset

theorem parts_subset (h : before.Reaches describer roots more after) : before.parts roots ⊆ after.parts roots := by
  obtain ⟨new, hnew⟩ := h.cells
  intro part hpart
  rw [parts, ← hnew, List.map_append, NumberedTree.partsAll_append, List.append_assoc]
  exact List.mem_append_right _ hpart

theorem trans (h : before.Reaches describer roots more middle) (h' : middle.Reaches describer roots later after) :
    before.Reaches describer roots (more ++ later) after where
  distinct := h'.distinct
  logged := h'.logged
  next_le := h.next_le.trans h'.next_le
  cells := h.cells.trans h'.cells
  calls := by rw [h'.calls, h.calls, List.append_assoc]
  undescribed call hcall := by
    rcases List.mem_append.1 hcall with hfirst | hsecond
    · exact h.undescribed call hfirst
    · exact fun hmem => h'.undescribed call hsecond (h.described_subset hmem)

/-- What is new was called for. -/
theorem exists_call (h : before.Reaches describer roots more after) (hlogged : before.Logged describer)
    {tree : NumberedTree n} (hkept : (uid, tree) ∈ after.cells) (hnot : uid ∉ before.described) :
    ∃ call ∈ more, call.uid = uid := by
  obtain ⟨index, e, hcall, hanswer⟩ := h.logged.answered uid tree hkept
  rw [h.calls, List.getElem?_append] at hcall
  split at hcall
  -- an answer to an earlier call would have been kept before
  · obtain ⟨⟨earlier, hearlier, -⟩, -⟩ := hlogged.last index uid e _ hcall hanswer
    exact absurd (List.mem_map_of_mem (f := (·.1)) hearlier) hnot
  · exact ⟨_, List.mem_of_getElem? hcall, rfl⟩

end Reaches

/-- **What asking for a description does**: at most one call, for this element, and if a tree is given it is kept. -/
theorem reaches_describe (hdistinct : store.Distinct roots) (hlogged : store.Logged describer)
    {label : Option String} (hstands : .element uid label e ∈ store.parts roots) :
    ∃ more, store.Reaches describer roots more (store.describe describer uid e).2 ∧
      (∀ call ∈ more, call = ⟨uid, e⟩) ∧
      ∀ tree, (store.describe describer uid e).1 = .ok tree →
        (uid, tree) ∈ (store.describe describer uid e).2.cells := by
  have hdistinct' : (store.describe describer uid e).2.Distinct roots := hdistinct.describe hstands
  have hlogged' := hlogged.describe uid e
  rcases store.describe_cases describer uid e with
    ⟨tree, htree, heq⟩ | ⟨hnot, f, -, heq⟩ | ⟨hnot, node, -, tree, after, hkeep, heq⟩
  · rw [heq]
    refine ⟨[], .refl hdistinct hlogged, nofun, fun other hother => ?_⟩
    cases hother
    exact (description?_eq_some hlogged.nodup).1 htree
  · rw [heq] at hdistinct' hlogged' ⊢
    exact ⟨[⟨uid, e⟩], ⟨hdistinct', hlogged', Nat.le_add_right _ _, List.suffix_refl _, rfl, by simpa using hnot⟩,
      by simp, nofun⟩
  · obtain ⟨-, hcells, hcalls⟩ := keep_spec hkeep
    have hnext : store.next ≤ after.next := by
      have hle := (NumberedTree.made_number node
        (store.note uid e (describer store.calls.length e.phrase e.props).spare).next).le
      cases hkeep
      exact (Nat.le_add_right _ _).trans hle
    rw [heq] at hdistinct' hlogged' ⊢
    refine ⟨[⟨uid, e⟩], ⟨hdistinct', hlogged', hnext, ?_, hcalls, by simpa using hnot⟩, by simp, fun other hother => ?_⟩
    · rw [hcells]
      exact List.suffix_cons _ _
    · cases hother
      rw [hcells]
      exact List.mem_cons_self

/-- The nodes of a description that is kept. -/
theorem parts_subset_of_mem_cells {tree : NumberedTree n} (h : (uid, tree) ∈ store.cells) :
    tree.parts ⊆ store.parts roots :=
  List.Subset.trans (NumberedTree.parts_subset_partsAll (List.mem_map_of_mem (f := (·.2)) h))
    (List.subset_append_left _ _)

theorem parts_subset_of_mem_roots {tree : NumberedTree n} (h : tree ∈ roots) : tree.parts ⊆ store.parts roots :=
  List.Subset.trans (NumberedTree.parts_subset_partsAll h) (List.subset_append_right _ _)

/-- **Following steps down** from a node there is does no more, and comes to a node there is. -/
theorem reaches_follow (hdistinct : store.Distinct roots) (hlogged : store.Logged describer) {tree : NumberedTree n}
    (hstands : tree.parts ⊆ store.parts roots) (steps : List Step) :
    ∃ more, store.Reaches describer roots more (store.follow describer tree steps).2 ∧
      ∀ found, (store.follow describer tree steps).1 = .ok (some found) →
        found.parts ⊆ (store.follow describer tree steps).2.parts roots := by
  induction steps generalizing store tree with
  | nil =>
    refine ⟨[], .refl hdistinct hlogged, fun found hfound => ?_⟩
    cases hfound
    exact hstands
  | cons step rest ih =>
    cases step with
    | child index =>
      rw [follow]
      split
      · next child hchild =>
        have hparts := NumberedTree.parts_subset_of_child (List.mem_of_getElem? hchild)
        exact ih hdistinct hlogged (List.Subset.trans hparts hstands)
      · exact ⟨[], .refl hdistinct hlogged, nofun⟩
    | description =>
      cases tree with
      | element uid label e =>
        have hpart := hstands (NumberedTree.self_mem_parts _)
        obtain ⟨more, hreaches, -, hkept⟩ := reaches_describe hdistinct hlogged hpart
        simp only [follow]
        generalize store.describe describer uid e = described at hreaches hkept
        obtain ⟨answer, middle⟩ := described
        cases answer with
        | error f => exact ⟨more, hreaches, nofun⟩
        | ok tree =>
          obtain ⟨later, hlater, hfound⟩ :=
            ih hreaches.distinct hreaches.logged (parts_subset_of_mem_cells (hkept tree rfl))
          exact ⟨more ++ later, hreaches.trans hlater, hfound⟩
      | _ => exact ⟨[], .refl hdistinct hlogged, nofun⟩

end Store

end Typeahead
