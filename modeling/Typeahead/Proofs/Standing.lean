import Typeahead.Proofs.Survey

/-!
# Trees as they stand

A tree has grown as far as descriptions have been built: what stands of it is the root, the children of what
stands, and the built descriptions of elements that stand (`Standing`). It keeps standing as more is built, and in
any other list of trees that has the same root (`Standing.transplant`).
-/

namespace Typeahead

variable {n : Nat}

/-- A node of trees that have grown so far: a root, a child of a node, or the description of an element for
which it is built. -/
inductive Standing (book : Phrasebook n) (roots : List (Placed n)) (built : List Address) : Placed n → Prop
  | root {placed : Placed n} : placed ∈ roots → Standing book roots built placed
  | child {placed : Placed n} {index : Nat} {child : Node n} : Standing book roots built placed →
      placed.node.children[index]? = some child → Standing book roots built ⟨placed.address.child index, child⟩
  | description {here : Address} {label : Option String} {e : Element n} {description : Node n} :
      Standing book roots built ⟨here, .element label e⟩ → here ∈ built →
      (book e.phrase).describe e.props = .ok description →
      Standing book roots built ⟨here.description, description⟩

namespace Standing

variable {book : Phrasebook n} {roots : List (Placed n)} {built : List Address} {placed : Placed n}

theorem within (h : Standing book roots built placed) : Within book roots placed := by
  induction h with
  | root hroot => exact .root hroot
  | child _ hchild ih => exact .child ih hchild
  | description _ _ hdescribe ih => exact .description ih hdescribe

theorem mono {built' : List Address} (h : Standing book roots built placed) (hbuilt : built ⊆ built') :
    Standing book roots built' placed := by
  induction h with
  | root hroot => exact .root hroot
  | child _ hchild ih => exact .child ih hchild
  | description _ hmem hdescribe ih => exact .description ih (hbuilt hmem) hdescribe

theorem exists_root (h : Standing book roots built placed) :
    ∃ root ∈ roots, root.address.root = placed.address.root ∧ Standing book [root] built placed := by
  induction h with
  | root hroot => exact ⟨_, hroot, rfl, .root (List.mem_singleton_self _)⟩
  | child _ hchild ih =>
    obtain ⟨root, hroot, haddress, hstanding⟩ := ih
    exact ⟨root, hroot, haddress, .child hstanding hchild⟩
  | description _ hmem hdescribe ih =>
    obtain ⟨root, hroot, haddress, hstanding⟩ := ih
    exact ⟨root, hroot, haddress, .description hstanding hmem hdescribe⟩

theorem of_roots_subset {roots' : List (Placed n)} (h : Standing book roots built placed)
    (hroots : roots ⊆ roots') : Standing book roots' built placed := by
  induction h with
  | root hroot => exact .root (hroots hroot)
  | child _ hchild ih => exact .child ih hchild
  | description _ hmem hdescribe ih => exact .description ih hmem hdescribe

/-- What stands in a tree stands wherever that tree is. -/
theorem transplant {roots' : List (Placed n)} (hroots : Rooted roots) (h : Standing book roots built placed)
    {root : Placed n} (hroot : root ∈ roots) (hroot' : root ∈ roots')
    (haddress : root.address.root = placed.address.root) : Standing book roots' built placed := by
  obtain ⟨own, hown, hsame, hstanding⟩ := h.exists_root
  cases List.inj_on_of_nodup_map hroots.nodup hown hroot (hsame.trans haddress.symm)
  exact hstanding.of_roots_subset (by simpa using hroot')

end Standing

end Typeahead
