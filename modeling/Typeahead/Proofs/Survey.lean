import Mathlib.Data.List.Nodup
import Typeahead.Proofs.Course
import Typeahead.Proofs.Registry

/-!
# Where reading goes

Reading a node visits the nodes below it: children, the descriptions of elements, and what stands in for them
or is added to them. `Survey` says of a property of nodes, with where they stand, that going on from one such
node to the next keeps it, and of a property of events that whatever happens at such a node has it.
`Survey.resolveTraced` concludes that every event of a reading has it. `Within` is the most specific such
property of nodes: to hang from one of some roots. Roots with numbers of their own tell all nodes apart by
their addresses (`Within.unique`).
-/

namespace Typeahead

variable {n : Nat}

/-- From each node of a kind, reading goes on to nodes of that kind only, and all that happens there is of a
kind. -/
structure Survey (ctx : Context n) (site : Placed n → Prop) (event : Event → Prop) : Prop where
  child : ∀ {placed : Placed n} {index child}, site placed → placed.node.children[index]? = some child →
    site ⟨placed.address.child index, child⟩
  override : ∀ {here label e replacement}, site ⟨here, .element label e⟩ →
    ctx.registry.override? (ctx.phrases e.phrase).identity = some replacement → site replacement
  description : ∀ {here label e description}, site ⟨here, .element label e⟩ →
    ctx.registry.override? (ctx.phrases e.phrase).identity = none →
    (ctx.phrases e.phrase).describe e.props = .ok description → site ⟨here.description, description⟩
  supplement : ∀ {here label e supplement}, site ⟨here, .element label e⟩ →
    ctx.registry.override? (ctx.phrases e.phrase).identity = none →
    supplement ∈ ctx.registry.supplementsFor (ctx.phrases e.phrase).identity → site supplement
  visit : ∀ {placed}, site placed → event (.visit placed.address)
  describe : ∀ {here label e}, site ⟨here, .element label e⟩ →
    ctx.registry.override? (ctx.phrases e.phrase).identity = none → event (.describe here)
  enter : ∀ path, event (.enter path)
  attempt : event .attempt
  prune : event .prune
  reject : event .reject

namespace Survey

variable {ctx : Context n} {site : Placed n → Prop} {event : Event → Prop}

/-- All that happens in a run is of a kind. -/
abbrev Covers (event : Event → Prop) (run : Run Output) : Prop :=
  run.Always event (fun _ => True) fun _ => True

theorem leads (h : Survey ctx site event) {past : List Event} {path path' : Trace} {placed placed' : Placed n}
    (hsite : site placed) (hleads : ctx.Leads past path placed path' placed') : site placed' := by
  cases hleads with
  | child hchild => exact h.child hsite hchild
  | override _ hoverride => exact h.override hsite hoverride
  | description _ hnone hdescribe _ => exact h.description hsite hnone hdescribe
  | supplement _ hnone hmem => exact h.supplement hsite hnone hmem

theorem happens (h : Survey ctx site event) {past : List Event} {path : Trace} {placed : Placed n} {e : Event}
    (hsite : site placed) (hhappens : ctx.Happens path placed past e) : event e := by
  cases hhappens with
  | visit => exact h.visit hsite
  | attempt => exact h.attempt
  | prune _ _ => exact h.prune
  | enter _ _ => exact h.enter _
  | describe _ _ hnone _ => exact h.describe hsite hnone
  | reject => exact h.reject

/-- **All that happens while a node is read** is of the kind. -/
theorem resolveTraced (h : Survey ctx site event) {placed : Placed n} (hsite : site placed) (trace : Trace)
    (input : Text) : Covers event (ctx.resolveTraced placed trace input) := by
  have hcourse := ctx.inOrder_resolveTraced trace (List.mem_singleton_self placed) input []
  refine hcourse.always fun past e ⟨path, other, hreached, hhappens⟩ => ?_
  refine h.happens (hreached.invariant (fun _ => site) ?_ h.leads) hhappens
  simpa using hsite

end Survey

/-! ## Nodes that hang from roots -/

/-- A node of the trees that hang from some roots: a root, a child of a node, or the description of an
element. -/
inductive Within (book : Phrasebook n) (roots : List (Placed n)) : Placed n → Prop
  | root {placed : Placed n} : placed ∈ roots → Within book roots placed
  | child {placed : Placed n} {index : Nat} {child : Node n} : Within book roots placed →
      placed.node.children[index]? = some child → Within book roots ⟨placed.address.child index, child⟩
  | description {here : Address} {label : Option String} {e : Element n} {description : Node n} :
      Within book roots ⟨here, .element label e⟩ → (book e.phrase).describe e.props = .ok description →
      Within book roots ⟨here.description, description⟩

/-- Roots with serial numbers of their own. -/
structure Rooted (roots : List (Placed n)) : Prop where
  nodup : (roots.map (·.address.root)).Nodup
  at_root : ∀ root ∈ roots, root.address.steps = []

/-- **An address tells a node.** -/
theorem Within.unique {book : Phrasebook n} {roots : List (Placed n)} (hroots : Rooted roots)
    {placed other : Placed n} (h : Within book roots placed) (h' : Within book roots other)
    (haddress : placed.address = other.address) : placed = other := by
  induction h generalizing other with
  | root hroot =>
    have hsteps := hroots.at_root _ hroot
    rw [haddress] at hsteps
    cases h' with
    | root hother => exact List.inj_on_of_nodup_map hroots.nodup hroot hother (congrArg Address.root haddress)
    | child _ _ => cases hsteps
    | description _ _ => cases hsteps
  | child hparent hchild ih =>
    cases h' with
    | root hother => cases (congrArg Address.steps haddress).trans (hroots.at_root _ hother)
    | child hparent' hchild' =>
      obtain ⟨hhere, hstep⟩ := Address.down_injective haddress
      cases hstep
      cases ih hparent' hhere
      cases hchild.symm.trans hchild'
      rfl
    | description _ _ => cases (Address.down_injective haddress).2
  | description helement hdescribe ih =>
    cases h' with
    | root hother => cases (congrArg Address.steps haddress).trans (hroots.at_root _ hother)
    | child _ _ => cases (Address.down_injective haddress).2
    | description helement' hdescribe' =>
      cases ih helement' (Address.down_injective haddress).1
      cases hdescribe.symm.trans hdescribe'
      rfl

end Typeahead
