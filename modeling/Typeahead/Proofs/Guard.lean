import Typeahead.Proofs.Course
import Typeahead.Proofs.Registry
import Typeahead.Proofs.Simulation
import Typeahead.Proofs.Termination

/-!
# Grammars without recursion

The trace stops a phrase from being entered again. In a grammar where no phrase leads back to itself it has
nothing to stop. Such a grammar can be ranked: whatever an element can be expanded into ranks below its
identity (`Ranked`). Then expansion has one solution that does not ask the trace at all (`Unguarded`,
`existsUnique_unguarded`), and reading with the guard is reading without it (`expand_eq_of_unguarded`). Along a
path the ranks fall, so no identity stands on it twice (`Falling`). Main statement: `guard_is_invisible`.
-/

namespace Typeahead

variable {n : Nat}

/-! ## Mentions -/

/-- An element that stands somewhere in a tree. Descriptions are not looked into. -/
inductive Node.Mentions (e : Element n) : Node n → Prop
  | element (label : Option String) : Mentions e (.element label e)
  | child {node child : Node n} : child ∈ node.children → Mentions e child → Mentions e node

namespace Node

variable {label : Option String} {children : List (Node n)} {e e' : Element n}

/-- A mention in a node that is no element stands in one of its children. -/
theorem mentions_iff_of_element?_eq_none {node : Node n} (h : node.element? = none) :
    node.Mentions e ↔ ∃ child ∈ node.children, child.Mentions e := by
  constructor
  · intro hmentions
    cases hmentions with
    | element label => cases h
    | child hchild he => exact ⟨_, hchild, he⟩
  · rintro ⟨child, hchild, he⟩
    exact .child hchild he

@[simp] theorem mentions_literal {l : Literal} : ¬(literal label l).Mentions e := by
  intro h
  cases h with
  | child hchild _ => cases hchild

@[simp] theorem mentions_sequence :
    (sequence label children).Mentions e ↔ ∃ child ∈ children, child.Mentions e :=
  mentions_iff_of_element?_eq_none rfl

@[simp] theorem mentions_choice :
    (choice label children).Mentions e ↔ ∃ child ∈ children, child.Mentions e :=
  mentions_iff_of_element?_eq_none rfl

@[simp] theorem mentions_element : (element label e').Mentions e ↔ e = e' := by
  constructor
  · intro h
    cases h with
    | element => rfl
    | child hchild _ => cases hchild
  · rintro rfl
    exact .element label

@[simp] theorem mentions_nothing : ¬(nothing label : Node n).Mentions e := by
  intro h
  cases h with
  | child hchild _ => cases hchild

end Node

/-- A tree is like itself if the elements in it are, and all else is. -/
theorem Node.alike_of_mentions {element : Element n → Element n → Prop} (node : Node n)
    (h : ∀ e, node.Mentions e → element e e) : node.Alike { element } node := by
  induction node using Node.induction with
  | literal label l => exact .literal rfl rfl
  | sequence label children ih =>
    refine .sequence rfl (List.forall₂_same.2 fun child hchild => ih child hchild fun e he => ?_)
    exact h e (.child hchild he)
  | choice label children ih =>
    refine .choice rfl (List.forall₂_same.2 fun child hchild => ih child hchild fun e he => ?_)
    exact h e (.child hchild he)
  | element label e => exact .element rfl (h e (.element label))
  | nothing label => exact .nothing rfl

theorem Likeness.compares_eq (element : Element n → Element n → Prop) :
    Likeness.Compares { element } (Eq : Run Output → Run Output → Prop) where
  done := rfl
  pure h := congrArg Run.pure h
  event he hrest := congrArg₂ Run.event (Event.Alike.eq _ _ he) (funext fun _ => hrest)
  append hrun hnext := congrArg₂ Run.append hrun (funext fun _ => hnext)
  bind hrun hk := congrArg₂ Run.bind hrun (funext fun out => hk out out rfl)

/-- Only how the elements in a tree are expanded matters for reading it. -/
theorem Node.read_congr_mentions {expand expand' : Expansion n} {trace : Trace}
    {node : Node n} (h : ∀ e, node.Mentions e → ∀ here input, expand here e trace input = expand' here e trace input)
    (leniency : Leniency) (here : Address) (input : Text) :
    Node.read leniency expand node here trace input = Node.read leniency expand' node here trace input := by
  let element (e e' : Element n) : Prop :=
    e = e' ∧ ∀ here input, expand here e trace input = expand' here e trace input
  have hcompares := Likeness.compares_eq element
  have hcomposes := Likeness.composes_eq hcompares (fun step hplace => congrArg (·.down step) hplace) leniency
  refine hcomposes.read hcompares ?_ input (node.alike_of_mentions fun e he => ⟨rfl, h e he⟩) rfl
  rintro here _ e _ input rfl ⟨rfl, hsame⟩
  exact hsame here input

/-! ## Expansion without a guard -/

namespace Context

variable (ctx : Context n)

/-- Expand an element whatever the path, given how the elements inside it are expanded. -/
def expandFreely (expand : Expansion n) : Expansion n := fun here e trace input =>
  let phrase := ctx.phrases e.phrase
  let inner := ctx.frame e.phrase input :: trace
  .event (.enter inner) fun _ =>
    match ctx.registry.override? phrase.identity with
    | some replacement => Node.read ctx.leniency expand replacement.node replacement.address inner input
    | none =>
      match phrase.describe e.props with
      | .error f => .fault f
      | .ok description =>
        .event (.describe here) fun _ =>
          (ctx.readDescription expand here e description inner input).append fun _ =>
            ctx.readSupplements expand e inner input

/-- The guard is all that is between the two. -/
theorem expandOnce_eq_ite (expand : Expansion n) (here : Address) (e : Element n) (trace : Trace) (input : Text) :
    ctx.expandOnce expand here e trace input =
      if trace.admits (ctx.frame e.phrase input) then ctx.expandFreely expand here e trace input
      else .event .prune fun _ => .done := rfl

/-- An expansion that never asks the path. -/
def Unguarded (expand : Expansion n) : Prop :=
  ∀ here e trace input, expand here e trace input = ctx.expandFreely expand here e trace input

/-- Expand an element without a guard, phrases nesting no deeper than the given depth. -/
def unfoldFreely : Nat → Expansion n
  | 0 => fun _ _ _ _ => .done
  | depth + 1 => ctx.expandFreely (unfoldFreely depth)

end Context

/-! ## Ranks -/

/-- Ranks for identities, such that whatever an element can be expanded into ranks below its identity: the
elements in a description of it, and the extensions that add to it or stand in for it. -/
structure Ranked (book : Phrasebook n) (extensions : List (Placed n)) (rank : String → Nat) : Prop where
  description : ∀ {phrase props description e}, (book phrase).describe props = .ok description →
    description.Mentions e → rank (book e.phrase).identity < rank (book phrase).identity
  extension : ∀ {placed identity target}, placed ∈ extensions → placed.node.identity? book = some identity →
    target ∈ placed.supplements book ∨ target ∈ placed.overrides book → rank identity < rank target

abbrev Context.rankOf (ctx : Context n) (rank : String → Nat) (e : Element n) : Nat :=
  rank (ctx.phrases e.phrase).identity

/-- Going into an element leads to elements of lower rank only. -/
structure Context.Downward (ctx : Context n) (rank : String → Nat) : Prop where
  override : ∀ {e e' replacement}, ctx.registry.override? (ctx.phrases e.phrase).identity = some replacement →
    replacement.node.Mentions e' → ctx.rankOf rank e' < ctx.rankOf rank e
  description : ∀ {e e' description}, (ctx.phrases e.phrase).describe e.props = .ok description →
    description.Mentions e' → ctx.rankOf rank e' < ctx.rankOf rank e
  supplement : ∀ {e e' supplement}, supplement ∈ ctx.registry.supplementsFor (ctx.phrases e.phrase).identity →
    supplement.node.Mentions e' → ctx.rankOf rank e' < ctx.rankOf rank e

namespace Ranked

variable {book : Phrasebook n} {extensions : List (Placed n)} {rank : String → Nat}

/-- What is mentioned in an extension is its own element. -/
theorem extension_mentions (h : Ranked book extensions rank) {placed : Placed n} (hplaced : placed ∈ extensions)
    {target : String} (htarget : target ∈ placed.supplements book ∨ target ∈ placed.overrides book)
    {e : Element n} (he : placed.node.Mentions e) : rank (book e.phrase).identity < rank target := by
  refine h.extension hplaced ?_ htarget
  rcases placed with ⟨here, node⟩
  cases node with
  | element label e' =>
    cases Node.mentions_element.1 he
    rfl
  | _ => rcases htarget with htarget | htarget <;> cases htarget

theorem downward (h : Ranked book extensions rank) (leniency : Leniency) :
    (⟨book, .ofExtensions book extensions, leniency⟩ : Context n).Downward rank where
  override hoverride he := by
    obtain ⟨hmem, hnames⟩ := Registry.names_of_override?_eq_some hoverride
    exact h.extension_mentions hmem (.inr hnames) he
  description := h.description
  supplement hsupplement he := by
    obtain ⟨hmem, hnames⟩ := Registry.mem_supplementsFor.1 hsupplement
    exact h.extension_mentions hmem (.inl hnames) he

end Ranked

namespace Context.Downward

variable {ctx : Context n} {rank : String → Nat}

/-- Expanding an element depends on how elements of lower rank are expanded, on the longer path. -/
theorem expandFreely_congr (h : ctx.Downward rank) {expand expand' : Expansion n} {e : Element n} {trace : Trace}
    {input : Text}
    (hsame : ∀ e', ctx.rankOf rank e' < ctx.rankOf rank e → ∀ here rest,
      expand here e' (ctx.frame e.phrase input :: trace) rest =
        expand' here e' (ctx.frame e.phrase input :: trace) rest)
    (here : Address) :
    ctx.expandFreely expand here e trace input = ctx.expandFreely expand' here e trace input := by
  unfold Context.expandFreely
  dsimp only
  congr 1
  funext _
  split
  · next replacement hoverride =>
    exact Node.read_congr_mentions (fun e' he' => hsame e' (h.override hoverride he')) _ _ _
  · split
    · rfl
    · next description hdescribe =>
      have hdescription := Node.read_congr_mentions (fun e' he' => hsame e' (h.description hdescribe he'))
        ctx.leniency here.description input
      have hsupplements := Run.ofList_congr fun supplement hmem =>
        Node.read_congr_mentions (fun e' he' => hsame e' (h.supplement hmem he')) ctx.leniency
          supplement.address input
      rw [readDescription, readDescription, hdescription, readSupplements, readSupplements, hsupplements]

/-! ## The expansion without a guard -/

/-- Two expansions without a guard are the same. -/
theorem unguarded_unique (h : ctx.Downward rank) {free other : Expansion n} (hfree : ctx.Unguarded free)
    (hother : ctx.Unguarded other) : free = other := by
  suffices hsame : ∀ bound e, ctx.rankOf rank e < bound → ∀ here trace input,
      free here e trace input = other here e trace input by
    funext here e trace input
    exact hsame _ e (Nat.lt_succ_self _) here trace input
  intro bound
  induction bound with
  | zero => exact fun e hlt => absurd hlt (Nat.not_lt_zero _)
  | succ bound ih =>
    intro e hlt here trace input
    rw [hfree, hother]
    refine h.expandFreely_congr (fun e' hlower here' rest => ih e' ?_ here' _ rest) here
    omega

/-- Unfolding deeper than the rank of an element makes no difference. -/
theorem unfoldFreely_eq (h : ctx.Downward rank) {depth depth' : Nat} {e : Element n}
    (hdepth : ctx.rankOf rank e < depth) (hdepth' : ctx.rankOf rank e < depth') (here : Address) (trace : Trace)
    (input : Text) : ctx.unfoldFreely depth here e trace input = ctx.unfoldFreely depth' here e trace input := by
  induction depth generalizing depth' e here trace input with
  | zero => omega
  | succ depth ih =>
    obtain ⟨depth', rfl⟩ : ∃ k, depth' = k + 1 := ⟨depth' - 1, by omega⟩
    refine h.expandFreely_congr (fun e' hlower here' rest => ih ?_ ?_ here' _ rest) here
    · omega
    · omega

/-- **Without a guard there is one expansion.** -/
theorem existsUnique_unguarded (h : ctx.Downward rank) : ∃! free, ctx.Unguarded free := by
  let free : Expansion n := fun here e => ctx.unfoldFreely (ctx.rankOf rank e + 1) here e
  have hfree : ctx.Unguarded free := by
    intro here e trace input
    refine h.expandFreely_congr (fun e' hlower here' rest => ?_) here
    exact h.unfoldFreely_eq hlower (Nat.lt_succ_self _) here' _ rest
  exact ⟨free, hfree, fun other hother => h.unguarded_unique hother hfree⟩

/-! ## The guard has nothing to do -/

/-- A phrase may be entered on a path of higher ranks. -/
theorem admits_of_lt {trace : Trace} {e : Element n} (hlt : ∀ frame ∈ trace, ctx.rankOf rank e < rank frame.identity)
    (input : Text) : trace.admits (ctx.frame e.phrase input) = true := by
  simp only [Trace.admits, Bool.not_eq_true', List.any_eq_false]
  intro frame hframe hblocks
  simp only [Frame.blocks, Bool.and_eq_true, beq_iff_eq] at hblocks
  have hrank := hlt frame hframe
  rw [hblocks.1] at hrank
  exact Nat.lt_irrefl _ hrank

/-- The path of an element is a path of higher ranks for whatever is inside it. -/
theorem lt_of_mem_cons {trace : Trace} {e e' : Element n} {input : Text}
    (hlt : ∀ frame ∈ trace, ctx.rankOf rank e < rank frame.identity)
    (hlower : ctx.rankOf rank e' < ctx.rankOf rank e) :
    ∀ frame ∈ ctx.frame e.phrase input :: trace, ctx.rankOf rank e' < rank frame.identity := by
  refine List.forall_mem_cons.2 ⟨hlower, fun frame hframe => ?_⟩
  exact Nat.lt_trans hlower (hlt frame hframe)

/-- **With or without a guard,** an element is expanded the same on a path of higher ranks. -/
theorem expand_eq_of_unguarded (h : ctx.Downward rank) {free : Expansion n} (hfree : ctx.Unguarded free)
    (here : Address) {e : Element n} {trace : Trace}
    (hlt : ∀ frame ∈ trace, ctx.rankOf rank e < rank frame.identity) (input : Text) :
    ctx.expand here e trace input = free here e trace input := by
  induction hrank : ctx.rankOf rank e using Nat.strong_induction_on generalizing here e trace input with
  | _ size ih =>
    rw [ctx.expand_eq, expandOnce_eq_ite, if_pos (admits_of_lt hlt input), hfree]
    refine h.expandFreely_congr (fun e' hlower here' rest => ?_) here
    exact ih _ (hrank ▸ hlower) here' (lt_of_mem_cons hlt hlower) rest rfl

/-! ## Paths -/

/-- A path on which the ranks fall from the outside in, with a node where it goes on: all that is mentioned
there ranks lower still. -/
structure Falling (ctx : Context n) (rank : String → Nat) (path : Trace) (placed : Placed n) : Prop where
  ranks : path.Pairwise fun inner outer => rank inner.identity < rank outer.identity
  identity : ∀ frame ∈ path, frame.identity ∈ ctx.identities
  mentions : ∀ e, placed.node.Mentions e → ∀ frame ∈ path, ctx.rankOf rank e < rank frame.identity

theorem Falling.enter {path : Trace} {here : Address} {label : Option String} {e : Element n}
    (hpath : Falling ctx rank path ⟨here, .element label e⟩) (input : Text) (placed : Placed n)
    (hlower : ∀ e', placed.node.Mentions e' → ctx.rankOf rank e' < ctx.rankOf rank e) :
    Falling ctx rank (ctx.frame e.phrase input :: path) placed := by
  have hlt := hpath.mentions e (.element label)
  refine ⟨List.pairwise_cons.2 ⟨hlt, hpath.ranks⟩, ?_, fun e' he' => lt_of_mem_cons hlt (hlower e' he')⟩
  exact List.forall_mem_cons.2 ⟨ctx.identity_mem_identities e.phrase, hpath.identity⟩

/-- Wherever reading goes, the ranks fall. -/
theorem falling_of_leads (h : ctx.Downward rank) {past : List Event} {path path' : Trace} {placed placed' : Placed n}
    (hpath : Falling ctx rank path placed) (hleads : ctx.Leads past path placed path' placed') :
    Falling ctx rank path' placed' := by
  cases hleads with
  | child hchild =>
    refine ⟨hpath.ranks, hpath.identity, fun e he => hpath.mentions e ?_⟩
    exact .child (List.mem_of_getElem? hchild) he
  | override _ hoverride => exact hpath.enter _ _ fun e' => h.override hoverride
  | description _ _ hdescribe _ => exact hpath.enter _ _ fun e' => h.description hdescribe
  | supplement _ _ hmem => exact hpath.enter _ _ fun e' => h.supplement hmem

/-- No identity stands twice on a path with falling ranks. -/
theorem Falling.length_le {path : Trace} {placed : Placed n} (hpath : Falling ctx rank path placed) :
    path.length ≤ ctx.identities.card := by
  have hnodup : (path.map Frame.identity).Nodup := by
    refine List.pairwise_map.2 (hpath.ranks.imp fun hlt heq => ?_)
    rw [heq] at hlt
    exact Nat.lt_irrefl _ hlt
  have hsubset : (path.map Frame.identity).toFinset ⊆ ctx.identities := by
    intro identity hidentity
    obtain ⟨frame, hframe, rfl⟩ := List.mem_map.1 (List.mem_toFinset.1 hidentity)
    exact hpath.identity frame hframe
  calc path.length = (path.map Frame.identity).toFinset.card := by
        rw [List.toFinset_card_of_nodup hnodup, List.length_map]
    _ ≤ ctx.identities.card := Finset.card_le_card hsubset

/-- Nothing is pruned, and no path that is entered is longer than there are identities. -/
theorem always_resolve (h : ctx.Downward rank) (root : Placed n) (input : Text) :
    (ctx.resolve root input).Always
      (fun e => e ≠ .prune ∧ ∀ path, e = .enter path → path.length ≤ ctx.identities.card)
      (fun _ => True) fun _ => True := by
  have hcourse := ctx.inOrder_resolveTraced [] (List.mem_singleton_self root) input []
  refine hcourse.always fun past event ⟨path, placed, hreached, hhappens⟩ => ?_
  have hpath : Falling ctx rank path placed :=
    hreached.invariant (Falling ctx rank) (fun _ _ => ⟨.nil, nofun, nofun⟩) h.falling_of_leads
  cases hhappens with
  | @prune here label e input _ hadmits =>
    rw [admits_of_lt (hpath.mentions e (.element label)) input] at hadmits
    cases hadmits
  | @enter here label e input _ _ =>
    refine ⟨nofun, fun path' heq => ?_⟩
    cases heq
    exact (hpath.enter input ⟨here, .nothing none⟩ nofun).length_le
  | _ => exact ⟨nofun, nofun⟩

end Context.Downward

theorem Metrics.pruned_record {metrics : Metrics} {e : Event} (h : e ≠ .prune) :
    (metrics.record e).pruned = metrics.pruned := by
  cases e with
  | prune => exact absurd rfl h
  | _ => rfl

/-- **The guard is invisible where nothing recurs.** Take any phrases and extensions whose identities can be
ranked, such that all that an element can be expanded into ranks below its identity.

- There is exactly one expansion that never asks the path.
- Every root is read with the guard as it is without, event by event and output by output.
- In a pass, at whatever pull, nothing has been pruned, and no path has been longer than there are identities. -/
theorem guard_is_invisible (book : Phrasebook n) (extensions : List (Placed n)) (leniency : Leniency)
    (rank : String → Nat) (hranked : Ranked book extensions rank) (root : Placed n) (input : Text)
    (progress : Progress) :
    let ctx : Context n := ⟨book, .ofExtensions book extensions, leniency⟩
    (∃! free, ctx.Unguarded free) ∧
    (∀ free, ctx.Unguarded free →
      ctx.resolve root input = Node.read leniency free root.node root.address [] input) ∧
    ∀ pulls, let after := ((ctx.resolve root input).pullOn progress pulls).2.metrics
      after.pruned = progress.metrics.pruned ∧ after.depth ≤ max progress.metrics.depth ctx.identities.card := by
  intro ctx
  have hdown : ctx.Downward rank := hranked.downward leniency
  refine ⟨hdown.existsUnique_unguarded, fun free hfree => ?_, fun pulls => ?_⟩
  · rw [Context.resolve, ctx.resolveTraced_eq]
    exact Node.read_congr_mentions (fun e _ here rest => hdown.expand_eq_of_unguarded hfree here (by simp) rest) _ _ _
  · refine (hdown.always_resolve root input).pullOn (fun progress' =>
      progress'.metrics.pruned = progress.metrics.pruned ∧
        progress'.metrics.depth ≤ max progress.metrics.depth ctx.identities.card)
      (fun e progress' hevent hso => ?_) ⟨rfl, le_max_left _ _⟩ pulls
    refine ⟨(Metrics.pruned_record hevent.1).trans hso.1, Progress.depth_record_le e hso.2 fun path hpath => ?_⟩
    exact (hevent.2 path hpath).trans (le_max_right _ _)

/-- Pairs of names, names, and pets, which are names too. -/
def petBook : Phrasebook 3
  | 0 =>
    { identity := "Pair"
      describe := fun _ => .ok (.sequence none [.element none ⟨1, []⟩, .text " and ", .element none ⟨1, []⟩]) }
  | 1 =>
    { identity := "Name"
      describe := fun _ => .ok (.text "ann") }
  | 2 =>
    { identity := "Pet"
      describe := fun _ => .ok (.text "rex")
      supplements := ["Name"] }

def petExtensions : List (Placed 3) := [⟨⟨1, []⟩, .element none ⟨2, []⟩⟩]

/-- A pair has names in it, and a name may be a pet. -/
def petRank (identity : String) : Nat :=
  if identity = "Pair" then 2 else if identity = "Name" then 1 else 0

theorem petBook_ranked : Ranked petBook petExtensions petRank where
  description {phrase props description e} hdescribe he := by
    match phrase with
    | 0 =>
      cases hdescribe
      have he : e = ⟨1, []⟩ := by simpa [Node.text] using he
      subst he
      decide
    | 1 => cases hdescribe; exact absurd he Node.mentions_literal
    | 2 => cases hdescribe; exact absurd he Node.mentions_literal
  extension {placed identity target} hplaced hidentity htarget := by
    cases List.mem_singleton.1 hplaced
    cases hidentity
    rcases htarget with htarget | htarget
    · cases List.mem_singleton.1 htarget
      decide
    · cases htarget

/-- A pair of names, read at the end of the input: the second name is entered where the first one is, and is
not stopped. -/
theorem petBook_needs_no_guard :
    let ctx : Context 3 := ⟨petBook, .ofExtensions petBook petExtensions, {}⟩
    let root : Placed 3 := ⟨⟨0, []⟩, .element none ⟨0, []⟩⟩
    Ranked petBook petExtensions petRank ∧
    (∃ free, ctx.Unguarded free ∧ (Node.read {} free root.node root.address [] []).outputs.map (·.text) =
      ["ann and ann".toList, "ann and rex".toList, "rex and ann".toList, "rex and rex".toList]) ∧
    ∀ pulls, let after := ((ctx.resolve root []).pullOn {} pulls).2.metrics
      after.pruned = 0 ∧ after.depth ≤ 3 := by
  intro ctx root
  obtain ⟨⟨free, hfree, -⟩, hread, hpulls⟩ :=
    guard_is_invisible petBook petExtensions {} petRank petBook_ranked root [] {}
  refine ⟨petBook_ranked, ⟨free, hfree, ?_⟩, fun pulls => ⟨(hpulls pulls).1, (hpulls pulls).2.trans ?_⟩⟩
  · rw [← hread free hfree]
    decide +kernel
  · exact max_le (Nat.zero_le 3) ctx.card_identities_le

end Typeahead
