import Mathlib.Data.List.Basic
import Mathlib.Tactic.Choose
import Typeahead.Proofs.Derivation
import Typeahead.Proofs.Unfolding

/-!
# Reading enumerates derivations

The readings of a node are the values of its derivations, each derivation once, in the order of their
choices. `Lists` says this of any list, with a code of choices for each of the things listed, and is kept by
the ways in which reading puts lists together: after each other, under an index, and one extended by another.
The proof goes down the tree of a node (`Context.enumerates_read`) and into phrases by `Context.induction`
(`Context.enumerates_expand`).
-/

namespace Typeahead

/-! ## Order of choices -/

/-- At the first place where two lists of choices differ, the first has the lower choice. -/
inductive Precedes : List Nat → List Nat → Prop
  | here {i j : Nat} {s t : List Nat} : i < j → Precedes (i :: s) (j :: t)
  | later {i : Nat} {s t : List Nat} : Precedes s t → Precedes (i :: s) (i :: t)

namespace Precedes

variable {s t : List Nat}

theorem append_left (h : Precedes s t) (u : List Nat) : Precedes (u ++ s) (u ++ t) := by
  induction u with
  | nil => exact h
  | cons i u ih => exact ih.later

/-- The choices that come later do not matter. -/
theorem append_right (h : Precedes s t) (u v : List Nat) : Precedes (s ++ u) (t ++ v) := by
  induction h with
  | here hlt => exact .here hlt
  | later _ ih => exact ih.later

theorem succ {i j : Nat} (h : Precedes (i :: s) (j :: t)) : Precedes ((i + 1) :: s) ((j + 1) :: t) := by
  cases h with
  | here hlt => exact .here (by omega)
  | later h => exact h.later

theorem lt (h : Precedes s t) : s < t := by
  induction h with
  | here hlt => exact List.cons_lt_cons_iff.2 (.inl hlt)
  | later _ ih => exact List.cons_lt_cons_iff.2 (.inr ⟨rfl, ih⟩)

end Precedes

/-! ## Lists in order of choices -/

/-- A list has the values of just the things with a property, each thing once, in the order of their
codes. -/
def Lists {γ α : Type} (code : γ → List Nat) (has : γ → Prop) (value : γ → α) (items : List α) : Prop :=
  ∃ all : List γ, items = all.map value ∧ (∀ x, x ∈ all ↔ has x) ∧
    all.Pairwise fun x y => Precedes (code x) (code y)

namespace Lists

variable {γ δ α β : Type} {code : γ → List Nat} {has has' : γ → Prop} {value : γ → α} {items items' : List α}

theorem nil (h : ∀ x, ¬has x) : Lists code has value [] :=
  ⟨[], rfl, fun x => by simp [h x], .nil⟩

theorem singleton (x : γ) (h : ∀ y, has y ↔ y = x) : Lists code has value [value x] :=
  ⟨[x], rfl, fun y => by simp [h y], List.pairwise_singleton _ _⟩

theorem append (h : Lists code has value items) (h' : Lists code has' value items')
    (hlt : ∀ x y, has x → has' y → Precedes (code x) (code y)) :
    Lists code (fun x => has x ∨ has' x) value (items ++ items') := by
  obtain ⟨all, rfl, hall, hsorted⟩ := h
  obtain ⟨all', rfl, hall', hsorted'⟩ := h'
  refine ⟨all ++ all', by simp, fun x => by simp [hall, hall'], ?_⟩
  refine List.pairwise_append.2 ⟨hsorted, hsorted', fun x hx y hy => ?_⟩
  exact hlt x y ((hall x).1 hx) ((hall' y).1 hy)

/-- The same things under another form. -/
theorem image (h : Lists code has value items) (f : γ → δ) (g : α → β) {code' : δ → List Nat}
    {has' : δ → Prop} {value' : δ → β} (hhas : ∀ y, has' y ↔ ∃ x, has x ∧ y = f x)
    (hvalue : ∀ x, value' (f x) = g (value x))
    (hcode : ∀ x y, Precedes (code x) (code y) → Precedes (code' (f x)) (code' (f y))) :
    Lists code' has' value' (items.map g) := by
  obtain ⟨all, rfl, hall, hsorted⟩ := h
  refine ⟨all.map f, ?_, fun y => ?_, ?_⟩
  · simp only [List.map_map]
    exact List.map_congr_left fun x _ => (hvalue x).symm
  · simp only [List.mem_map, hall, hhas, eq_comm]
  · exact List.pairwise_map.2 (hsorted.imp fun {x y} => hcode x y)

/-- Each thing extended in all the ways there are for it. -/
theorem extend (h : Lists code has value items) {code' : δ → List Nat} {next : γ → δ → Prop}
    {value' : γ → δ → β} (extensions : α → List β)
    (hnext : ∀ x, has x → Lists code' (next x) (value' x) (extensions (value x))) :
    Lists (fun p : γ × δ => code p.1 ++ code' p.2) (fun p => has p.1 ∧ next p.1 p.2)
      (fun p => value' p.1 p.2) (items.flatMap extensions) := by
  obtain ⟨all, rfl, hall, hsorted⟩ := h
  choose! nexts hitems hnexts hsorted' using hnext
  refine ⟨all.flatMap fun x => (nexts x).map (Prod.mk x), ?_, fun p => ?_, ?_⟩
  · simp only [List.flatMap_map, List.map_flatMap, List.map_map]
    exact List.flatMap_congr fun x hx => hitems x ((hall x).1 hx)
  · simp only [List.mem_flatMap, List.mem_map, hall]
    constructor
    · rintro ⟨x, hx, y, hy, rfl⟩
      exact ⟨hx, (hnexts x hx y).1 hy⟩
    · rintro ⟨hx, hy⟩
      exact ⟨p.1, hx, p.2, (hnexts p.1 hx p.2).2 hy, rfl⟩
  · refine List.pairwise_flatMap.2 ⟨fun x hx => ?_, hsorted.imp fun {x x'} hlt => ?_⟩
    · exact List.pairwise_map.2 ((hsorted' x ((hall x).1 hx)).imp fun hlt => hlt.append_left _)
    · simp only [List.mem_map]
      rintro _ ⟨y, _, rfl⟩ _ ⟨y', _, rfl⟩
      exact hlt.append_right _ _

theorem value_mem (h : Lists code has value items) {x : γ} (hx : has x) : value x ∈ items := by
  obtain ⟨all, rfl, hall, -⟩ := h
  exact List.mem_map_of_mem ((hall x).2 hx)

theorem exists_of_mem (h : Lists code has value items) {a : α} (ha : a ∈ items) :
    ∃ x, has x ∧ value x = a := by
  obtain ⟨all, rfl, hall, -⟩ := h
  obtain ⟨x, hx, rfl⟩ := List.mem_map.1 ha
  exact ⟨x, (hall x).1 hx, rfl⟩

theorem congr (h : Lists code has value items) (hhas : ∀ x, has' x ↔ has x) :
    Lists code has' value items := by
  obtain ⟨all, hitems, hall, hsorted⟩ := h
  exact ⟨all, hitems, fun x => (hall x).trans (hhas x).symm, hsorted⟩

/-- The things of each member of a list, told apart by the member's index: one more member in front. -/
theorem cons {ι : Type} (has : ι → γ → Prop) {member : ι} {members : List ι}
    (h : Lists code (has member) value items)
    (hmembers : Lists (fun p : Nat × γ => p.1 :: code p.2)
      (fun p => ∃ other, members[p.1]? = some other ∧ has other p.2) (fun p => value p.2) items') :
    Lists (fun p : Nat × γ => p.1 :: code p.2)
      (fun p => ∃ other, (member :: members)[p.1]? = some other ∧ has other p.2) (fun p => value p.2)
      (items ++ items') := by
  have hfirst : Lists (fun p : Nat × γ => p.1 :: code p.2) (fun p => p.1 = 0 ∧ has member p.2)
      (fun p => value p.2) (items.map id) :=
    h.image (Prod.mk 0) id (by aesop) (fun _ => rfl) fun _ _ hlt => hlt.later
  have hlater : Lists (fun p : Nat × γ => p.1 :: code p.2)
      (fun p => ∃ k, p.1 = k + 1 ∧ ∃ other, members[k]? = some other ∧ has other p.2)
      (fun p => value p.2) (items'.map id) :=
    hmembers.image (fun p => (p.1 + 1, p.2)) id (by aesop) (fun _ => rfl) fun _ _ hlt => hlt.succ
  rw [List.map_id] at hfirst hlater
  refine (hfirst.append hlater ?_).congr ?_
  · rintro ⟨_, x⟩ ⟨_, y⟩ ⟨rfl, _⟩ ⟨k, rfl, _⟩
    exact .here (by omega)
  · rintro ⟨_ | k, x⟩ <;> simp

end Lists

variable {n : Nat}

/-! ## Readings of a tree -/

@[simp] theorem fault?_putLabel (label : Option String) (run : Run Output) :
    (putLabel label run).fault? = run.fault? := by
  cases label with
  | none => rfl
  | some name => exact Run.fault?_map _ run

@[simp] theorem outputs_putLabel (label : Option String) (run : Run Output) :
    (putLabel label run).outputs = run.outputs.map (·.labelIf label) := by
  cases label with
  | none => exact (List.map_id' run.outputs).symm
  | some name => exact Run.outputs_map _ run

namespace Context

variable (ctx : Context n)

/-- What a node leaves of the input, with phrases expanded as deep as need be, is a suffix of it. -/
theorem remaining_suffix {node : Node n} {here : Address} {trace : Trace} {input : Text} {out : Output}
    (h : out ∈ (ctx.read node here trace input).outputs) : out.remaining <:+ input := by
  rw [← ctx.resolveTraced_eq ⟨here, node⟩] at h
  exact ctx.remaining_suffix_read h

/-- If it ends well, a run gives the readings of a node's derivations on a path, in order. -/
def Enumerates (node : Node n) (trace : Trace) (input : Text) (run : Run Output) : Prop :=
  run.fault? = none → Lists Derivation.choices (Derives ctx node trace input) (·.eval input) run.outputs

section

variable {ctx} {trace : Trace} {input : Text}

theorem lists_literal (label : Option String) (l : Literal) :
    Lists Derivation.choices (Derives ctx (.literal label l) trace input) (·.eval input)
      ((l.read? ctx.leniency input).toList.map (·.labelIf label)) := by
  cases hread : l.read? ctx.leniency input with
  | none =>
    refine Lists.nil fun d hd => ?_
    cases hd
    simp_all
  | some out =>
    refine Lists.singleton (Derivation.leaf label out) fun d => ⟨fun hd => ?_, ?_⟩
    · cases hd
      simp_all
    · rintro rfl
      exact .literal hread

theorem lists_readSequence {children : List (Node n)}
    (hchildren : ∀ child ∈ children, ∀ here rest, rest <:+ input →
      ctx.Enumerates child trace rest (ctx.read child here trace rest))
    (position : Nat) (here : Address) {acc : Output} (hacc : acc.remaining <:+ input)
    (h : (Node.readSequence ctx.leniency ctx.expand children position here trace acc).fault? = none) :
    Lists Derivation.choicesAll (DerivesAll ctx children trace acc.remaining)
      (fun ds => Derivation.evalAll ds position acc)
      (Node.readSequence ctx.leniency ctx.expand children position here trace acc).outputs := by
  induction children generalizing position acc with
  | nil =>
    rw [Node.readSequence]
    refine Lists.singleton [] fun ds => ⟨fun hds => ?_, ?_⟩
    · cases hds
      rfl
    · rintro rfl
      exact .nil
  | cons child rest ih =>
    simp only [List.mem_cons, forall_eq_or_imp] at hchildren
    rw [Node.readSequence] at h ⊢
    rw [Run.outputs_bind h]
    rw [Run.fault?_bind_eq_none] at h
    have hfirst := hchildren.1 _ _ hacc h.1
    have hlater (d : Derivation) (hd : Derives ctx child trace acc.remaining d) :
        Lists Derivation.choicesAll (DerivesAll ctx rest trace (d.eval acc.remaining).remaining)
          (fun ds => Derivation.evalAll ds (position + 1) (acc.merge position (d.eval acc.remaining)))
          (Node.readSequence ctx.leniency ctx.expand rest (position + 1) here trace
            (acc.merge position (d.eval acc.remaining))).outputs := by
      have hout := hfirst.value_mem hd
      exact ih hchildren.2 (position + 1) ((ctx.remaining_suffix hout).trans hacc) (h.2 _ hout)
    rw [← List.map_id (List.flatMap _ _)]
    refine (hfirst.extend _ hlater).image (fun p => p.1 :: p.2) id (fun ds => ⟨fun hds => ?_, ?_⟩)
      (fun p => ?_) fun p q hlt => ?_
    · cases hds with
      | cons hd hds => exact ⟨(_, _), ⟨hd, hds⟩, rfl⟩
    · rintro ⟨p, ⟨hd, hds⟩, rfl⟩
      exact .cons hd hds
    · simp only [Derivation.evalAll, id]
    · simpa only [Derivation.choicesAll] using hlt

theorem lists_readChoice {children : List (Node n)}
    (hchildren : ∀ child ∈ children, ∀ here,
      ctx.Enumerates child trace input (ctx.read child here trace input))
    (position : Nat) (here : Address)
    (h : (Node.readChoice ctx.leniency ctx.expand children position here trace input).fault? = none) :
    Lists (fun p : Nat × Derivation => p.1 :: p.2.choices)
      (fun p => ∃ child, children[p.1]? = some child ∧ Derives ctx child trace input p.2)
      (fun p => p.2.eval input)
      (Node.readChoice ctx.leniency ctx.expand children position here trace input).outputs := by
  induction children generalizing position with
  | nil =>
    rw [Node.readChoice]
    exact Lists.nil (by simp)
  | cons child rest ih =>
    simp only [List.mem_cons, forall_eq_or_imp] at hchildren
    rw [Node.readChoice] at h ⊢
    obtain ⟨hfirst, hrest⟩ := Run.fault?_append_eq_none.1 h
    rw [Run.outputs_append _ _ hfirst]
    exact Lists.cons (fun child => Derives ctx child trace input) (hchildren.1 _ hfirst)
      (ih hchildren.2 _ hrest)

theorem lists_ofList {members : List (Placed n)}
    (hmembers : ∀ node here, ctx.Enumerates node trace input (ctx.read node here trace input))
    (h : (Run.ofList members fun member =>
      ctx.read member.node member.address trace input).fault? = none) :
    Lists (fun p : Nat × Derivation => p.1 :: p.2.choices)
      (fun p => ∃ member, members[p.1]? = some member ∧ Derives ctx member.node trace input p.2)
      (fun p => p.2.eval input)
      (Run.ofList members fun member => ctx.read member.node member.address trace input).outputs := by
  induction members with
  | nil => exact Lists.nil (by simp)
  | cons member rest ih =>
    rw [Run.ofList] at h ⊢
    obtain ⟨hfirst, hrest⟩ := Run.fault?_append_eq_none.1 h
    rw [Run.outputs_append _ _ hfirst]
    exact Lists.cons (fun member : Placed n => Derives ctx member.node trace input) (hmembers _ _ hfirst)
      (ih hrest)

theorem enumerates_read
    (helement : ∀ here label e rest, rest <:+ input →
      ctx.Enumerates (.element label e) trace rest (putLabel label (ctx.expand here e trace rest)))
    (node : Node n) (here : Address) {rest : Text} (hrest : rest <:+ input) :
    ctx.Enumerates node trace rest (ctx.read node here trace rest) := by
  induction node using Node.induction generalizing here rest with
  | literal label l =>
    intro _
    simp only [Node.read, Run.outputs, outputs_putLabel, Run.outputs_ofOption]
    exact lists_literal label l
  | sequence label children ih =>
    intro h
    simp only [Node.read, Run.outputs, outputs_putLabel, Run.fault?, fault?_putLabel] at h ⊢
    have hchildren := lists_readSequence
      (fun child hc here rest' h' => ih child hc here (h'.trans hrest)) 0 here (List.suffix_refl rest) h
    refine hchildren.image (Derivation.sequence label) _ (fun d => ⟨fun hd => ?_, ?_⟩) (fun ds => ?_)
      fun ds ds' hlt => ?_
    · cases hd with
      | sequence hds => exact ⟨_, hds, rfl⟩
    · rintro ⟨ds, hds, rfl⟩
      exact .sequence hds
    · simp only [Derivation.eval]
    · simpa only [Derivation.choices] using hlt
  | choice label children ih =>
    intro h
    simp only [Node.read, Run.outputs, outputs_putLabel, Run.fault?, fault?_putLabel] at h ⊢
    have hchildren := lists_readChoice (fun child hc here => ih child hc here hrest) 0 here h
    refine hchildren.image (fun p => Derivation.choice label p.1 p.2) _ (fun d => ⟨fun hd => ?_, ?_⟩)
      (fun p => ?_) fun p q hlt => ?_
    · cases hd with
      | choice hchild hd => exact ⟨(_, _), ⟨_, hchild, hd⟩, rfl⟩
    · rintro ⟨p, ⟨child, hchild, hd⟩, rfl⟩
      exact .choice hchild hd
    · simp only [Derivation.eval]
    · simpa only [Derivation.choices] using hlt
  | element label e => exact helement here label e rest hrest
  | nothing label =>
    intro _
    simp only [Node.read, Run.outputs]
    exact Lists.nil fun d hd => by cases hd

end

/-! ## Readings of a phrase -/

section

variable {phrase : Phrase n} {props : Props} {out : Output}

/-- A phrase lets a reading through once, or not at all. -/
theorem lists_screen (h : (phrase.screen props out).fault? = none) :
    Lists (fun _ : Unit => []) (fun _ => phrase.accepts props out.result = .ok true) (fun _ => out)
      (phrase.screen props out).outputs := by
  unfold Phrase.screen at h ⊢
  split at h
  · next haccepts => exact Lists.singleton () fun _ => by simp [haccepts]
  · next haccepts => exact Lists.nil fun _ => by simp [haccepts]
  · cases h

/-- A phrase gives one value to a reading. -/
theorem lists_revalue (h : (phrase.revalue props out).fault? = none) :
    Lists (fun _ : Value => []) (fun value => phrase.valueOf props out.result = .ok value)
      (fun value => { out with result := value }) (phrase.revalue props out).outputs := by
  unfold Phrase.revalue at h ⊢
  split at h
  · next hvalue => exact Lists.singleton out.result fun value => by simp [Phrase.valueOf, hvalue, eq_comm]
  · next hvalue =>
    split at h
    · next result hresult =>
      exact Lists.singleton result fun value => by simp [Phrase.valueOf, hvalue, hresult, eq_comm]
    · cases h

end

section

variable {ctx} {inner : Trace} {input : Text}

theorem lists_readDescription
    (hread : ∀ node here, ctx.Enumerates node inner input (ctx.read node here inner input))
    (here : Address) (label : Option String) (e : Element n) (description : Node n)
    (h : (ctx.readDescription ctx.expand here e description inner input).fault? = none) :
    Lists Derivation.choices
      (fun d => ∃ value d', Derives ctx description inner input d' ∧
        (ctx.phrases e.phrase).accepts e.props (d'.eval input).result = .ok true ∧
        (ctx.phrases e.phrase).valueOf e.props (d'.eval input).result = .ok value ∧
        d = .described label value d')
      (·.eval input)
      ((ctx.readDescription ctx.expand here e description inner input).outputs.map (·.labelIf label)) := by
  unfold readDescription at h ⊢
  rw [Run.outputs_bind h]
  obtain ⟨hscreened, hrevalue⟩ := Run.fault?_bind_eq_none.1 h
  rw [Run.outputs_bind hscreened] at hrevalue ⊢
  obtain ⟨hdescription, hscreen⟩ := Run.fault?_bind_eq_none.1 hscreened
  have hraw := hread description here.description hdescription
  have hlists := hraw.extend (fun out => ((ctx.phrases e.phrase).screen e.props out).outputs) fun d hd =>
    lists_screen (hscreen _ (hraw.value_mem hd))
  refine (hlists.extend _ fun p hp => lists_revalue (hrevalue _ (hlists.value_mem hp))).image
    (fun p => Derivation.described label p.2 p.1.1) _ (fun d => ⟨?_, ?_⟩) (fun p => ?_) fun p q hlt => ?_
  · rintro ⟨value, d', hd, haccepts, hvalue, rfl⟩
    exact ⟨((d', ()), value), ⟨⟨hd, haccepts⟩, hvalue⟩, rfl⟩
  · rintro ⟨⟨⟨d', _⟩, value⟩, ⟨⟨hd, haccepts⟩, hvalue⟩, rfl⟩
    exact ⟨value, d', hd, haccepts, hvalue, rfl⟩
  · simp only [Derivation.eval]
  · simp only [List.append_nil] at hlt
    simpa only [Derivation.choices] using hlt.later

theorem lists_readSupplements
    (hread : ∀ node here, ctx.Enumerates node inner input (ctx.read node here inner input))
    (label : Option String) (e : Element n)
    (h : (ctx.readSupplements ctx.expand e inner input).fault? = none) :
    Lists Derivation.choices
      (fun d => ∃ index supplement d',
        (ctx.registry.supplementsFor (ctx.phrases e.phrase).identity)[index]? = some supplement ∧
        Derives ctx supplement.node inner input d' ∧
        (ctx.phrases e.phrase).accepts e.props (d'.eval input).result = .ok true ∧
        d = .supplemented label index d')
      (·.eval input)
      ((ctx.readSupplements ctx.expand e inner input).outputs.map (·.labelIf label)) := by
  unfold readSupplements at h ⊢
  rw [Run.outputs_bind h]
  obtain ⟨hall, hscreen⟩ := Run.fault?_bind_eq_none.1 h
  have hraw := lists_ofList hread hall
  refine (hraw.extend _ fun p hp => lists_screen (hscreen _ (hraw.value_mem hp))).image
    (fun p => Derivation.supplemented label p.1.1 p.1.2) _ (fun d => ⟨?_, ?_⟩) (fun p => ?_)
    fun p q hlt => ?_
  · rintro ⟨index, supplement, d', hsupplement, hd, haccepts, rfl⟩
    exact ⟨((index, d'), ()), ⟨⟨supplement, hsupplement, hd⟩, haccepts⟩, rfl⟩
  · rintro ⟨⟨⟨index, d'⟩, _⟩, ⟨⟨supplement, hsupplement, hd⟩, haccepts⟩, rfl⟩
    exact ⟨index, supplement, d', hsupplement, hd, haccepts, rfl⟩
  · simp only [Derivation.eval]
  · simp only [List.append_nil] at hlt
    simpa only [Derivation.choices] using hlt.succ

end

theorem enumerates_element {trace : Trace} {input : Text} {e : Element n}
    (hread : trace.admits (ctx.frame e.phrase input) = true → ∀ node here,
      ctx.Enumerates node (ctx.frame e.phrase input :: trace) input
        (ctx.read node here (ctx.frame e.phrase input :: trace) input))
    (here : Address) (label : Option String) :
    ctx.Enumerates (.element label e) trace input (putLabel label (ctx.expand here e trace input)) := by
  intro h
  simp only [outputs_putLabel, fault?_putLabel] at h ⊢
  rw [ctx.expand_eq, expandOnce] at h ⊢
  by_cases hadmits : trace.admits (ctx.frame e.phrase input) = true
  · specialize hread hadmits
    simp only [hadmits, if_true, Run.fault?, Run.outputs] at h ⊢
    cases hoverride : ctx.registry.override? (ctx.phrases e.phrase).identity with
    | some replacement =>
      simp only [hoverride] at h ⊢
      refine (hread replacement.node replacement.address h).image (Derivation.overridden label) _
        (fun d => ?_) (fun d => ?_) fun d d' hlt => ?_
      · rw [derives_element_of_override hoverride]
        exact and_iff_right hadmits
      · simp only [Derivation.eval]
      · simpa only [Derivation.choices] using hlt
    | none =>
      simp only [hoverride] at h ⊢
      cases hdescribe : (ctx.phrases e.phrase).describe e.props with
      | error f => simp [hdescribe, Run.fault?] at h
      | ok description =>
        simp only [hdescribe, Run.fault?, Run.outputs] at h ⊢
        obtain ⟨hdescription, hsupplements⟩ := Run.fault?_append_eq_none.1 h
        have hown := lists_readDescription hread here label e description hdescription
        have hothers := lists_readSupplements hread label e hsupplements
        rw [Run.outputs_append _ _ hdescription, List.map_append]
        refine (hown.append hothers ?_).congr fun d => ?_
        -- the description comes before every supplement
        · rintro _ _ ⟨value, d, -, -, -, rfl⟩ ⟨index, supplement, d', -, -, -, rfl⟩
          simpa only [Derivation.choices] using Precedes.here (Nat.succ_pos index)
        · rw [derives_element_of_description hoverride hdescribe]
          exact and_iff_right hadmits
  · simp only [hadmits, Bool.false_eq_true, if_false]
    exact Lists.nil fun d hd => hadmits hd.admits

/-- **Expanding an element enumerates its derivations**, however deep phrases nest. -/
theorem enumerates_expand (trace : Trace) (input : Text) (here : Address) (label : Option String)
    (e : Element n) :
    ctx.Enumerates (.element label e) trace input (putLabel label (ctx.expand here e trace input)) := by
  induction trace, input using ctx.induction generalizing here label e with
  | step trace input ih =>
    refine ctx.enumerates_element (fun hadmits node here' => ?_) here label
    exact enumerates_read (fun here label e' rest hrest => ih e.phrase hadmits rest hrest here label e')
      node here' (List.suffix_refl input)

theorem enumerates_resolveTraced (placed : Placed n) (trace : Trace) (input : Text) :
    ctx.Enumerates placed.node trace input (ctx.resolveTraced placed trace input) := by
  rw [ctx.resolveTraced_eq]
  exact enumerates_read (fun here label e rest _ => ctx.enumerates_expand trace rest here label e) _ _
    (List.suffix_refl input)

end Context

/-- **Reading enumerates derivations.** The outputs of a drained stream are the readings of the root's
derivations: each derivation gives one output, and they come in the order of their choices. The segments of
an output are those of the derivation's literals one after the other, its score is the product of their
scores, and what it leaves is what the last literal leaves. Unless a phrase function gives up, the stream
can be drained. -/
theorem outputs_are_derivations (ctx : Context n) (root : Placed n) (input : Text) (progress : Progress) :
    (ctx.phrases.Quiet → ∃ outputs, ((ctx.resolve root input).drain progress).1 = .ok outputs) ∧
    ∀ outputs, ((ctx.resolve root input).drain progress).1 = .ok outputs →
      ∃ derivations : List Derivation,
        outputs = derivations.map (·.eval input) ∧
        (∀ d, d ∈ derivations ↔ Derives ctx root.node [] input d) ∧
        derivations.Nodup ∧ derivations.Pairwise (fun d d' => d.choices < d'.choices) ∧
        ∀ d ∈ derivations,
          (d.eval input).segments = d.leaves.flatMap (·.segments) ∧ (d.eval input).score = d.score ∧
          (d.eval input).remaining = Derivation.rest d.leaves input := by
  refine ⟨fun hquiet => ?_, fun outputs houtputs => ?_⟩
  · exact ⟨_, Run.drain_eq_ok_iff.2 ⟨ctx.fault?_resolveTraced hquiet root [] input, rfl⟩⟩
  · obtain ⟨hfault, rfl⟩ := Run.drain_eq_ok_iff.1 houtputs
    obtain ⟨derivations, houtputs, hall, hprecedes⟩ := ctx.enumerates_resolveTraced root [] input hfault
    have hsorted := hprecedes.imp fun hlt => hlt.lt
    refine ⟨derivations, houtputs, hall, hsorted.imp fun hlt heq => ?_, hsorted, fun d _ => ?_⟩
    · exact absurd (heq ▸ hlt) (List.lt_irrefl _)
    · exact d.eval_parts input

/-- A colour is red or rose. -/
def paintContext : Context 1 where
  phrases _ :=
    { identity := "Colour"
      describe := fun _ => .ok (.choice none [.text "red", .text "rose"]) }
  registry := {}
  leniency := {}

def paintRoot : Placed 1 :=
  ⟨⟨0, []⟩, .sequence none [.text "paint ", .element (some "colour") ⟨⟨0, Nat.one_pos⟩, []⟩]⟩

/-- Two derivations fit what was typed, red before rose. -/
theorem paintContext_derivations :
    ∃ outputs, ((paintContext.resolve paintRoot "paint r".toList).drain {}).1 = .ok outputs ∧
      outputs.map (·.text) = ["paint red".toList, "paint rose".toList] ∧
      ∃ derivations : List Derivation, outputs = derivations.map (·.eval "paint r".toList) ∧
        (∀ d, d ∈ derivations ↔ Derives paintContext paintRoot.node [] "paint r".toList d) ∧
        derivations.Pairwise fun d d' => d.choices < d'.choices := by
  have hquiet : paintContext.phrases.Quiet := by
    rintro phrase f (h | ⟨h, -⟩ | h) <;> cases h
  obtain ⟨hdrains, hderivations⟩ :=
    outputs_are_derivations paintContext paintRoot "paint r".toList {}
  obtain ⟨outputs, houtputs⟩ := hdrains hquiet
  obtain ⟨derivations, heq, hall, -, hsorted, -⟩ := hderivations outputs houtputs
  refine ⟨outputs, houtputs, ?_, derivations, heq, hall, hsorted⟩
  rw [← (Run.drain_eq_ok_iff.1 houtputs).2]
  decide +kernel

end Typeahead
