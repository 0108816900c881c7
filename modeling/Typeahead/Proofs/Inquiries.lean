import Typeahead.Numbered.Resolution
import Typeahead.Proofs.Numbering
import Typeahead.Proofs.Registry
import Typeahead.Proofs.Unfolding

/-!
# What inquiries ask for

Whatever descriptions an inquiry is given, it asks only for those of elements it knows: of the tree it reads, of
extensions, or of a description given before. And it asks for one right after it has visited the element and
entered its phrase, on a path that lets it, and where nothing stands in for the phrase (`Inquiry.Licensed`). Reading
a tree is such an inquiry (`Context.licensed_inquire`), and pulls on it keep the store in order
(`Inquiry.Licensed.pull`).
Phrases never nest as deep as the bound, also where descriptions change from call to call
(`Context.inquire_eq`).
-/

namespace Typeahead

variable {n : Nat}

theorem Fields.mem_of_get?_eq_some {α : Type} {fields : Fields α} {name : String} {a : α}
    (h : fields.get? name = some a) : (name, a) ∈ fields := by
  induction fields with
  | nil => cases h
  | cons entry rest ih =>
    obtain ⟨key, b⟩ := entry
    rw [get?] at h
    split at h
    · next hkey =>
      cases h
      exact hkey ▸ List.mem_cons_self
    · exact List.mem_cons_of_mem _ (ih h)

/-! ## Licensed inquiries -/

namespace Inquiry

/-- An inquiry that asks only for descriptions of known elements, when they have just been entered, and whose
outputs are good. The nodes of a description that is given are known from then on. -/
inductive Licensed {α : Type} (ctx : Context n) (good : α → Prop) : List (NumberedTree n) → Inquiry n α → Prop
  | done {known} : Licensed ctx good known .done
  | fault {known} (f : Fault) : Licensed ctx good known (.fault f)
  | event {known} (e : Event) {rest} : Licensed ctx good known (rest ()) → Licensed ctx good known (.event e rest)
  | output {known a rest} : good a → Licensed ctx good known (rest ()) → Licensed ctx good known (.output a rest)
  | ask {known uid label e} {path : Trace} {input rest} : .element uid label e ∈ known →
      path.admits (ctx.frame e.phrase input) = true →
      ctx.registry.override? (ctx.phrases e.phrase).identity = none →
      (∀ tree : NumberedTree n, Licensed ctx good (tree.parts ++ known) (rest tree)) →
      Licensed ctx good known (.event (.visit (.ofUid uid)) fun _ =>
        .event (.enter (ctx.frame e.phrase input :: path)) fun _ => .ask uid e rest)

section

variable {α β : Type} {ctx : Context n} {good : α → Prop} {known : List (NumberedTree n)} {inquiry : Inquiry n α}

theorem licensed_inquiry {run : Run α} (h : ∀ a ∈ run.outputs, good a) : Licensed ctx good known run.inquiry := by
  induction run with
  | done => exact .done
  | fault f => exact .fault f
  | event e rest ih => exact .event e (ih () h)
  | output a rest ih =>
    rw [Run.outputs, List.forall_mem_cons] at h
    exact .output h.1 (ih () h.2)

namespace Licensed

theorem mono (h : inquiry.Licensed ctx good known) {more : List (NumberedTree n)} (hmore : known ⊆ more) :
    inquiry.Licensed ctx good more := by
  induction h generalizing more with
  | done => exact .done
  | fault f => exact .fault f
  | event e _ ih => exact .event e (ih hmore)
  | output ha _ ih => exact .output ha (ih hmore)
  | ask hknown hadmits hnone _ ih =>
    refine .ask (hmore hknown) hadmits hnone fun tree => ih tree ?_
    exact List.append_subset.2 ⟨List.subset_append_left _ _, List.Subset.trans hmore (List.subset_append_right _ _)⟩

theorem imp {good' : α → Prop} (h : inquiry.Licensed ctx good known) (himp : ∀ a, good a → good' a) :
    inquiry.Licensed ctx good' known := by
  induction h with
  | done => exact .done
  | fault f => exact .fault f
  | event e _ ih => exact .event e ih
  | output ha _ ih => exact .output (himp _ ha) ih
  | ask hknown hadmits hnone _ ih => exact .ask hknown hadmits hnone ih

theorem append {next : Unit → Inquiry n α} (h : inquiry.Licensed ctx good known)
    (hnext : (next ()).Licensed ctx good known) : (inquiry.append next).Licensed ctx good known := by
  induction h with
  | done => exact hnext
  | fault f => exact .fault f
  | event e _ ih => exact .event e (ih hnext)
  | output ha _ ih => exact .output ha (ih hnext)
  | ask hknown hadmits hnone _ ih =>
    exact .ask hknown hadmits hnone fun tree => ih tree (hnext.mono (List.subset_append_right _ _))

theorem bind {good' : β → Prop} {k : α → Inquiry n β} (h : inquiry.Licensed ctx good known)
    (hk : ∀ a, good a → (k a).Licensed ctx good' known) : (inquiry.bind k).Licensed ctx good' known := by
  induction h with
  | done => exact .done
  | fault f => exact .fault f
  | event e _ ih => exact .event e (ih hk)
  | output ha _ ih => exact (hk _ ha).append (ih hk)
  | ask hknown hadmits hnone _ ih =>
    refine .ask hknown hadmits hnone fun tree => ih tree fun a ha => ?_
    exact (hk a ha).mono (List.subset_append_right _ _)

theorem map {good' : β → Prop} {f : α → β} (h : inquiry.Licensed ctx good known)
    (hf : ∀ a, good a → good' (f a)) : (inquiry.map f).Licensed ctx good' known :=
  h.bind fun a ha => licensed_inquiry (by simpa using hf a ha)

theorem ofList {items : List β} {inquiry : β → Inquiry n α}
    (h : ∀ item ∈ items, (inquiry item).Licensed ctx good known) : (ofList items inquiry).Licensed ctx good known := by
  induction items with
  | nil => exact .done
  | cons item rest ih =>
    rw [List.forall_mem_cons] at h
    exact h.1.append (ih h.2)

theorem take (h : inquiry.Licensed ctx good known) (count : Nat) : (inquiry.take count).Licensed ctx good known := by
  induction h generalizing count with
  | done => cases count <;> exact .done
  | fault f =>
    cases count with
    | zero => exact .done
    | succ count => exact .fault f
  | event e _ ih =>
    cases count with
    | zero => exact .done
    | succ count => exact .event e (ih _)
  | output ha _ ih =>
    cases count with
    | zero => exact .done
    | succ count => exact .output ha (ih _)
  | ask hknown hadmits hnone _ ih =>
    cases count with
    | zero => exact .done
    | succ count => exact .ask hknown hadmits hnone fun tree => ih tree _

theorem gather (h : inquiry.Licensed ctx good known) (acc : List α) :
    (inquiry.gather acc).Licensed ctx (fun _ => True) known := by
  induction h generalizing acc with
  | done => exact .output trivial .done
  | fault f => exact .fault f
  | event e _ ih => exact .event e (ih acc)
  | output _ _ ih => exact ih _
  | ask hknown hadmits hnone _ ih => exact .ask hknown hadmits hnone fun tree => ih tree acc

/-- What is done with an output matters only for good ones. -/
theorem bind_congr {k k' : α → Inquiry n β} (h : inquiry.Licensed ctx good known)
    (hk : ∀ a, good a → k a = k' a) : inquiry.bind k = inquiry.bind k' := by
  induction h with
  | done => rfl
  | fault f => rfl
  | event e _ ih => exact congrArg (Inquiry.event e) (funext fun _ => ih)
  | output ha _ ih => simp only [Inquiry.bind, hk _ ha, ih]
  | ask _ _ _ _ ih => simp only [Inquiry.bind, ih]

end Licensed

end

end Inquiry

/-! ## Reading -/

/-- What a reading leaves is a suffix of the input. -/
abbrev Output.Leaves (input : Text) (out : Output) : Prop := out.remaining <:+ input

namespace Context

variable {ctx : Context n} {known : List (NumberedTree n)} {expand : NumberedTree.Expansion n}

/-- The registered extensions are known. -/
structure Extends (ctx : Context n) (known : List (NumberedTree n)) : Prop where
  supplement : ∀ identity, ∀ placed ∈ ctx.registry.supplementsFor identity, placed.tree ∈ known
  override : ∀ identity placed, ctx.registry.override? identity = some placed → placed.tree ∈ known

/-- Expansion of known elements that have just been visited is licensed. -/
def LicensedExpansion (ctx : Context n) (expand : NumberedTree.Expansion n) : Prop :=
  ∀ known, ctx.Extends known → ∀ uid label e, .element uid label e ∈ known → ∀ trace input,
    Inquiry.Licensed ctx (Output.Leaves input) known (.event (.visit (.ofUid uid)) fun _ => expand uid e trace input)

theorem Extends.mono (h : ctx.Extends known) {more : List (NumberedTree n)} (hmore : known ⊆ more) : ctx.Extends more :=
  ⟨fun identity placed hplaced => hmore (h.supplement identity placed hplaced),
    fun identity placed hplaced => hmore (h.override identity placed hplaced)⟩

theorem parts_tree (placed : Placed n) : placed.tree.parts = [placed.tree] := by
  obtain ⟨here, node⟩ := placed
  cases node <;> rfl

theorem licensed_putLabel {input : Text} {label : Option String} {inquiry : Inquiry n Output}
    (h : inquiry.Licensed ctx (Output.Leaves input) known) :
    (inquiry.putLabel label).Licensed ctx (Output.Leaves input) known := by
  cases label with
  | none => exact h
  | some name => exact h.map fun out hout => hout

theorem licensed_readSequence {children : List (NumberedTree n)} {trace : Trace} {input : Text}
    (h : ∀ child ∈ children, ∀ rest, rest <:+ input →
      (child.read ctx.leniency expand trace rest).Licensed ctx (Output.Leaves rest) known)
    (position : Nat) {acc : Output} (hacc : acc.remaining <:+ input) :
    (NumberedTree.readSequence ctx.leniency expand children position trace acc).Licensed ctx (Output.Leaves input)
      known := by
  induction children generalizing position acc with
  | nil => exact Inquiry.licensed_inquiry (by simpa using hacc)
  | cons child rest ih =>
    rw [List.forall_mem_cons] at h
    refine (h.1 _ hacc).bind fun out hout => ih h.2 _ ?_
    exact hout.trans hacc

theorem licensed_readChoice {children : List (NumberedTree n)} {trace : Trace} {input : Text}
    (h : ∀ child ∈ children,
      (child.read ctx.leniency expand trace input).Licensed ctx (Output.Leaves input) known) :
    (NumberedTree.readChoice ctx.leniency expand children trace input).Licensed ctx (Output.Leaves input) known := by
  induction children with
  | nil => exact .done
  | cons child rest ih =>
    rw [List.forall_mem_cons] at h
    exact h.1.append (ih h.2)

theorem licensed_read (hexpand : ctx.LicensedExpansion expand) (hextends : ctx.Extends known) (tree : NumberedTree n)
    (hknown : tree.parts ⊆ known) (trace : Trace) (input : Text) :
    (tree.read ctx.leniency expand trace input).Licensed ctx (Output.Leaves input) known := by
  induction tree using NumberedTree.induction generalizing input with
  | literal uid label l =>
    refine .event _ (.event _ (licensed_putLabel (Inquiry.licensed_inquiry fun out hout => ?_)))
    cases hread : l.read? ctx.leniency input with
    | none =>
      rw [hread] at hout
      cases hout
    | some reading =>
      rw [hread] at hout
      cases List.mem_singleton.1 hout
      exact (Literal.read?_accounts hread).suffix
  | sequence uid label children ih =>
    refine .event _ (licensed_putLabel (licensed_readSequence (fun child hchild rest _ => ?_) 0
      (List.suffix_refl input)))
    have hparts : child.parts ⊆ (NumberedTree.sequence uid label children).parts :=
      NumberedTree.parts_subset_of_child hchild
    exact ih child hchild (List.Subset.trans hparts hknown) rest
  | choice uid label children ih =>
    refine .event _ (licensed_putLabel (licensed_readChoice fun child hchild => ih child hchild ?_ input))
    have hparts : child.parts ⊆ (NumberedTree.choice uid label children).parts :=
      NumberedTree.parts_subset_of_child hchild
    exact List.Subset.trans hparts hknown
  | element uid label e =>
    have hexpanded := hexpand known hextends uid label e (hknown (NumberedTree.self_mem_parts _)) trace input
    cases label with
    | none => exact hexpanded
    | some name => exact hexpanded.map fun out hout => hout
  | nothing uid label => exact .event _ .done

theorem licensed_screen {phrase : Phrase n} {props : Props} {input : Text} {out : Output}
    (hout : out.Leaves input) :
    Inquiry.Licensed ctx (Output.Leaves input) known (phrase.screen props out).inquiry := by
  unfold Phrase.screen
  split
  · exact .output hout .done
  · exact .event _ .done
  · exact .fault _

theorem licensed_revalue {phrase : Phrase n} {props : Props} {input : Text} {out : Output}
    (hout : out.Leaves input) :
    Inquiry.Licensed ctx (Output.Leaves input) known (phrase.revalue props out).inquiry := by
  unfold Phrase.revalue
  split
  · exact .output hout .done
  · split
    · exact .output hout .done
    · exact .fault _

/-- **Expanding once** is licensed, if expansion inside is. -/
theorem licensed_inquireOnce (hexpand : ctx.LicensedExpansion expand) :
    ctx.LicensedExpansion (ctx.inquireOnce expand) := by
  intro known hextends uid label e hknown trace input
  simp only [inquireOnce]
  split
  · next hadmits =>
    split
    · next replacement hreplacement =>
      refine .event _ (.event _ (licensed_read hexpand hextends _ ?_ _ _))
      simpa [parts_tree] using hextends.override _ _ hreplacement
    · next hnone =>
      refine .ask hknown hadmits hnone fun tree => .event _ ?_
      have hmore := hextends.mono (List.subset_append_right tree.parts known)
      have hread := licensed_read hexpand hmore tree (List.subset_append_left _ _) (ctx.frame e.phrase input :: trace)
        input
      refine .append (.bind (.bind hread fun out hout => licensed_screen hout) fun out hout => licensed_revalue hout) ?_
      refine Inquiry.Licensed.bind (Inquiry.Licensed.ofList fun supplement hsupplement => ?_)
        fun out hout => licensed_screen hout
      refine licensed_read hexpand hmore _ ?_ _ _
      simpa [parts_tree] using hmore.supplement _ _ hsupplement
  · exact .event _ (.event _ .done)

theorem licensed_inquireWithin (ctx : Context n) (bound : Nat) : ctx.LicensedExpansion (ctx.inquireWithin bound) := by
  induction bound with
  | zero => exact fun _ _ _ _ _ _ _ _ => .event _ .done
  | succ bound ih => exact licensed_inquireOnce ih

/-- **Reading a tree** asks only for descriptions of elements in the tree, in extensions, and in what it was given. -/
theorem licensed_inquire (hextends : ctx.Extends known) (tree : NumberedTree n) (hknown : tree.parts ⊆ known)
    (input : Text) :
    (ctx.inquire tree input).Licensed ctx (Output.Leaves input) known :=
  licensed_read (ctx.licensed_inquireWithin _) hextends tree hknown [] input

end Context

/-! ## The bound is never reached -/

namespace Context

variable (ctx : Context n)

theorem exists_extends : ∃ known, ctx.Extends known := by
  let listed (fields : Fields (List (Placed n))) := fields.flatMap fun field => field.2.map Placed.tree
  have hlisted {fields : Fields (List (Placed n))} {identity : String} {placed : Placed n}
      (h : placed ∈ (fields.get? identity).getD []) : placed.tree ∈ listed fields := by
    cases hget : fields.get? identity with
    | none => simp [hget] at h
    | some found =>
      rw [hget] at h
      exact List.mem_flatMap.2 ⟨(identity, found), Fields.mem_of_get?_eq_some hget, List.mem_map_of_mem h⟩
  refine ⟨listed ctx.registry.supplements ++ listed ctx.registry.overrides, fun identity placed hplaced => ?_,
    fun identity placed hplaced => ?_⟩
  · exact List.mem_append_left _ (hlisted hplaced)
  · exact List.mem_append_right _ (hlisted (List.mem_of_getLast? hplaced))

theorem readSequence_congr_inquiry {bound : Nat} {expand : NumberedTree.Expansion n} {trace : Trace} {input : Text}
    {children : List (NumberedTree n)}
    (h : ∀ child ∈ children, ∀ rest, rest <:+ input →
      child.read ctx.leniency (ctx.inquireWithin bound) trace rest = child.read ctx.leniency expand trace rest)
    (position : Nat) {acc : Output} (hacc : acc.remaining <:+ input) :
    NumberedTree.readSequence ctx.leniency (ctx.inquireWithin bound) children position trace acc =
      NumberedTree.readSequence ctx.leniency expand children position trace acc := by
  induction children generalizing position acc with
  | nil => rfl
  | cons child rest ih =>
    rw [List.forall_mem_cons] at h
    obtain ⟨known, hextends⟩ := ctx.exists_extends
    have hmore := hextends.mono (List.subset_append_right child.parts known)
    have hread := licensed_read (ctx.licensed_inquireWithin bound) hmore child (List.subset_append_left _ _) trace
      acc.remaining
    rw [NumberedTree.readSequence, NumberedTree.readSequence, ← h.1 _ hacc]
    exact hread.bind_congr fun out hout => ih h.2 _ (hout.trans hacc)

theorem readChoice_congr_inquiry {expand expand' : NumberedTree.Expansion n} {trace : Trace} {input : Text}
    {children : List (NumberedTree n)}
    (h : ∀ child ∈ children,
      child.read ctx.leniency expand trace input = child.read ctx.leniency expand' trace input) :
    NumberedTree.readChoice ctx.leniency expand children trace input =
      NumberedTree.readChoice ctx.leniency expand' children trace input := by
  induction children with
  | nil => rfl
  | cons child rest ih =>
    rw [List.forall_mem_cons] at h
    rw [NumberedTree.readChoice, NumberedTree.readChoice, h.1, ih h.2]

/-- Expansions that agree on a path and all suffixes of the input give the same reading. -/
theorem read_congr_inquiry {bound : Nat} {expand : NumberedTree.Expansion n} {trace : Trace} {input : Text}
    (hsame : ∀ uid e rest, rest <:+ input → ctx.inquireWithin bound uid e trace rest = expand uid e trace rest)
    (tree : NumberedTree n) {rest : Text} (hrest : rest <:+ input) :
    tree.read ctx.leniency (ctx.inquireWithin bound) trace rest = tree.read ctx.leniency expand trace rest := by
  induction tree using NumberedTree.induction generalizing rest with
  | literal uid label l => rfl
  | sequence uid label children ih =>
    rw [NumberedTree.read, NumberedTree.read,
      ctx.readSequence_congr_inquiry (fun child hchild rest' hrest' => ih child hchild hrest') 0 hrest]
  | choice uid label children ih =>
    rw [NumberedTree.read, NumberedTree.read, ctx.readChoice_congr_inquiry fun child hchild => ih child hchild hrest]
  | element uid label e => rw [NumberedTree.read, NumberedTree.read, hsame uid e rest hrest]
  | nothing uid label => rfl

/-- Unfold phrases down to a depth, and below it do something else. -/
def inquireDown (deeper : NumberedTree.Expansion n) : Nat → NumberedTree.Expansion n
  | 0 => deeper
  | depth + 1 => ctx.inquireOnce (inquireDown deeper depth)

theorem inquireWithin_eq_inquireDown (deeper : NumberedTree.Expansion n) {bound depth : Nat} {trace : Trace}
    {input : Text}
    (hbound : (ctx.room trace input.length).card < bound) (hdepth : (ctx.room trace input.length).card < depth)
    (uid : Nat) (e : Element n) :
    ctx.inquireWithin bound uid e trace input = ctx.inquireDown deeper depth uid e trace input := by
  induction bound generalizing depth trace input uid e with
  | zero => omega
  | succ bound ih =>
    obtain ⟨depth, rfl⟩ : ∃ k, depth = k + 1 := ⟨depth - 1, by omega⟩
    rw [inquireWithin, inquireDown, inquireOnce, inquireOnce]
    split
    · next hadmits =>
      have hsame (uid' : Nat) (e' : Element n) (rest : Text) (hrest : rest <:+ input) :
          ctx.inquireWithin bound uid' e' (ctx.frame e.phrase input :: trace) rest =
            ctx.inquireDown deeper depth uid' e' (ctx.frame e.phrase input :: trace) rest := by
        have hlt := ctx.room_lt hadmits hrest
        exact ih (by omega) (by omega) uid' e'
      have hread (tree : NumberedTree n) := ctx.read_congr_inquiry hsame tree (List.suffix_refl input)
      simp only [inquireDescription, inquireSupplements, hread]
    · rfl

/-- **No phrase is nested as deep as the bound**, whatever descriptions are given: what is put in place of deeper
ones is never come to. -/
theorem inquire_eq (deeper : NumberedTree.Expansion n) {depth : Nat} {input : Text}
    (hdepth : depthBound n input ≤ depth) (tree : NumberedTree n) :
    tree.read ctx.leniency (ctx.inquireDown deeper depth) [] input = ctx.inquire tree input := by
  refine (ctx.read_congr_inquiry (fun uid e rest hrest => ?_) tree (List.suffix_refl input)).symm
  exact ctx.inquireWithin_eq_inquireDown deeper (ctx.room_lt_of_suffix le_rfl hrest [])
    (ctx.room_lt_of_suffix hdepth hrest []) uid e

end Context

/-! ## Pulls -/

/-- An element that there is was visited and entered, on a path that let it and where nothing stands in for its
phrase, and then its description was called for. -/
def Context.Entered (ctx : Context n) (parts : List (NumberedTree n)) (events : List Event) (call : Call n) : Prop :=
  ∃ label, ∃ path : Trace, ∃ input, .element call.uid label call.element ∈ parts ∧
    [.visit (.ofUid call.uid), .enter (ctx.frame call.element.phrase input :: path)] <:+: events ∧
    path.admits (ctx.frame call.element.phrase input) = true ∧
    ctx.registry.override? (ctx.phrases call.element.phrase).identity = none

theorem Context.Entered.mono {ctx : Context n} {parts more : List (NumberedTree n)} {events later : List Event}
    {call : Call n} (h : ctx.Entered parts events call) (hparts : parts ⊆ more) (hevents : events <:+: later) :
    ctx.Entered more later call := by
  obtain ⟨label, path, input, hmem, hinfix, hlets⟩ := h
  exact ⟨label, path, input, hparts hmem, hinfix.trans hevents, hlets⟩

/-- What a pull does to a store that is in order: it calls for descriptions of elements that it has entered, and
leaves a licensed inquiry. -/
structure Inquiry.Course.Orderly {α : Type} (course : Inquiry.Course n α) (describer : Describer n) (ctx : Context n)
    (good : α → Prop) (roots : List (NumberedTree n)) (before : Store n) (more : List (Call n)) : Prop where
  reaches : before.Reaches describer roots more course.store
  entered : ∀ call ∈ more, ctx.Entered (course.store.parts roots) course.events call
  rest : ∀ a rest, course.stop = .output a rest →
    good a ∧ Inquiry.Licensed ctx good (course.store.parts roots) rest

namespace Inquiry

variable {α : Type} {describer : Describer n} {ctx : Context n} {good : α → Prop} {roots : List (NumberedTree n)}

theorem Course.Orderly.event {course : Course n α} {store : Store n} {more : List (Call n)}
    (h : course.Orderly describer ctx good roots store more) (e : Event) :
    Course.Orderly { course with events := e :: course.events } describer ctx good roots store more :=
  ⟨h.reaches, fun call hcall => (h.entered call hcall).mono (List.Subset.refl _) (List.suffix_cons _ _).isInfix, h.rest⟩

/-- **A pull on a licensed inquiry** keeps the store in order. -/
theorem Licensed.pull {known : List (NumberedTree n)} {inquiry : Inquiry n α} (h : inquiry.Licensed ctx good known)
    {store : Store n} (hdistinct : store.Distinct roots) (hlogged : store.Logged describer)
    (hknown : known ⊆ store.parts roots) :
    ∃ more, (inquiry.pull describer store).Orderly describer ctx good roots store more := by
  induction h generalizing store with
  | done => exact ⟨[], .refl hdistinct hlogged, nofun, nofun⟩
  | fault f => exact ⟨[], .refl hdistinct hlogged, nofun, nofun⟩
  | event e _ ih =>
    obtain ⟨more, horderly⟩ := ih hdistinct hlogged hknown
    exact ⟨more, horderly.event e⟩
  | output ha hrest ih =>
    refine ⟨[], .refl hdistinct hlogged, nofun, fun a rest heq => ?_⟩
    cases heq
    exact ⟨ha, hrest.mono hknown⟩
  | @ask known uid label e path input rest hmem hadmits hnone _ ih =>
    have hstands := hknown hmem
    obtain ⟨more, hreaches, hcalls, hkept⟩ := Store.reaches_describe hdistinct hlogged hstands
    simp only [Inquiry.pull]
    generalize store.describe describer uid e = described at hreaches hkept
    obtain ⟨answer, middle⟩ := described
    cases answer with
    | error f =>
      refine ⟨more, hreaches, fun call hcall => ?_, nofun⟩
      cases hcalls call hcall
      exact ⟨label, path, input, hreaches.parts_subset hstands, List.infix_refl _, hadmits, hnone⟩
    | ok tree =>
      obtain ⟨later, horderly⟩ := ih tree hreaches.distinct hreaches.logged (List.append_subset.2
        ⟨Store.parts_subset_of_mem_cells (hkept tree rfl), List.Subset.trans hknown hreaches.parts_subset⟩)
      have hwhole := (horderly.event (.enter (ctx.frame e.phrase input :: path))).event (.visit (.ofUid uid))
      refine ⟨more ++ later, hreaches.trans hwhole.reaches, fun call hcall => ?_, hwhole.rest⟩
      rcases List.mem_append.1 hcall with hnow | hafter
      · cases hcalls call hnow
        exact ⟨label, path, input, hwhole.reaches.parts_subset (hreaches.parts_subset hstands),
          (List.prefix_append [_, _] _).isInfix, hadmits, hnone⟩
      · exact hwhole.entered call hafter

end Inquiry

end Typeahead
