import Typeahead.Proofs.Unfolding

/-!
# Reading ends

A grammar may unfold without end, but reading input as it does not. Along every path the frames of one
identity have ever fewer characters left, and none is left only for a frame that is alone (`Descending`).
So a path is no longer than there are identities, each taken as often as there are characters
(`Sound.length_le`), and a reading is exhausted after finitely many pulls (`reading_ends`).
-/

namespace Typeahead

variable {n : Nat}

/-- Of two frames of one identity, the inner one has something left to consume, and less than the outer
one. So the counts of an identity fall strictly from the outermost frame to the innermost, and a count of
zero is found only in a frame that is the only one of its identity. -/
def Trace.Descending (path : Trace) : Prop :=
  path.Pairwise fun inner outer =>
    inner.identity = outer.identity → 0 < inner.remaining ∧ inner.remaining < outer.remaining

/-- The place that a frame takes up: the one just below its count, and the lowest if it has none left. -/
def Frame.place (frame : Frame) : String × Nat := (frame.identity, frame.remaining - 1)

namespace Context

variable (ctx : Context n)

/-- A path that reading input of some length may have come to, with so many characters left. -/
structure Sound (length : Nat) (path : Trace) (left : Nat) : Prop where
  descending : path.Descending
  identity : ∀ frame ∈ path, frame.identity ∈ ctx.identities
  remaining : ∀ frame ∈ path, left ≤ frame.remaining ∧ frame.remaining ≤ length

variable {ctx}

/-- On a sound path, a phrase that may be entered again has something left to consume, and less than
before. -/
theorem Sound.lt_of_admits {length : Nat} {path : Trace} {next : Frame}
    (h : ctx.Sound length path next.remaining) (hadmits : path.admits next = true) {frame : Frame}
    (hframe : frame ∈ path) (hidentity : next.identity = frame.identity) :
    0 < next.remaining ∧ next.remaining < frame.remaining := by
  simp only [Trace.admits, Bool.not_eq_true', List.any_eq_false] at hadmits
  have hblocks := hadmits frame hframe
  have hle := (h.remaining frame hframe).1
  simp only [Frame.blocks, hidentity, beq_self_eq_true, Bool.true_and, Bool.or_eq_true, beq_iff_eq,
    not_or] at hblocks
  omega

theorem Sound.cons {length : Nat} {path : Trace} {input : Text} (h : ctx.Sound length path input.length)
    (hlength : input.length ≤ length) {phrase : Fin n}
    (hadmits : path.admits (ctx.frame phrase input) = true) :
    ctx.Sound length (ctx.frame phrase input :: path) input.length where
  descending := List.pairwise_cons.2 ⟨fun _ hframe hid => h.lt_of_admits hadmits hframe hid, h.descending⟩
  identity := List.forall_mem_cons.2 ⟨ctx.identity_mem_identities phrase, h.identity⟩
  remaining := List.forall_mem_cons.2 ⟨⟨Nat.le_refl _, hlength⟩, h.remaining⟩

theorem Sound.mono {length : Nat} {path : Trace} {left left' : Nat} (h : ctx.Sound length path left)
    (hle : left' ≤ left) : ctx.Sound length path left' where
  descending := h.descending
  identity := h.identity
  remaining frame hframe := ⟨hle.trans (h.remaining frame hframe).1, (h.remaining frame hframe).2⟩

/-- **Depth of a path.** Frames of one identity differ in how many characters are left, and zero counts only
for a frame that is alone, so none of `max 1 length` places is taken twice. -/
theorem Sound.length_le {length : Nat} {path : Trace} {left : Nat} (h : ctx.Sound length path left) :
    path.length ≤ ctx.identities.card * max 1 length := by
  have hnodup : (path.map Frame.place).Nodup := by
    refine List.pairwise_map.2 (h.descending.imp fun hlt heq => ?_)
    simp only [Frame.place, Prod.mk.injEq] at heq
    have := hlt heq.1
    omega
  have hsubset : (path.map Frame.place).toFinset ⊆ ctx.identities ×ˢ Finset.range (max 1 length) := by
    intro pair hpair
    obtain ⟨frame, hframe, rfl⟩ := List.mem_map.1 (List.mem_toFinset.1 hpair)
    have hle := (h.remaining frame hframe).2
    simp only [Frame.place, Finset.mem_product, Finset.mem_range]
    exact ⟨h.identity frame hframe, by omega⟩
  calc path.length = (path.map Frame.place).toFinset.card := by
        rw [List.toFinset_card_of_nodup hnodup, List.length_map]
    _ ≤ (ctx.identities ×ˢ Finset.range (max 1 length)).card := Finset.card_le_card hsubset
    _ = ctx.identities.card * max 1 length := by rw [Finset.card_product, Finset.card_range]

variable (ctx)

/-- Every path that is entered while input of some length is read is sound. -/
theorem upheld_sound (length : Nat) :
    Upheld ctx (fun path input => ctx.Sound length path input.length ∧ input.length ≤ length)
      (fun e => ∀ path, e = .enter path → ∃ left, ctx.Sound length path left)
      fun input out => Accounts ctx.leniency.ignoreCase input out.typedText out.remaining where
  literal := ctx.upheld_accounts.literal
  seed := ctx.upheld_accounts.seed
  merge := ctx.upheld_accounts.merge
  result := ctx.upheld_accounts.result
  remaining hplace hout := by
    have hle := hout.suffix.length_le
    exact ⟨hplace.1.mono hle, hle.trans hplace.2⟩
  inner phrase hplace hadmits := ⟨hplace.1.cons hplace.2 hadmits, hplace.2⟩
  enter phrase hplace hadmits path heq := by
    cases heq
    exact ⟨_, hplace.1.cons hplace.2 hadmits⟩
  other e hne path heq := absurd heq (hne path)

end Context

theorem Progress.depth_record_le {progress : Progress} {bound : Nat} (e : Event)
    (h : progress.metrics.depth ≤ bound) (hpath : ∀ path, e = .enter path → path.length ≤ bound) :
    (progress.record e).metrics.depth ≤ bound := by
  cases e with
  | enter path => exact max_le h (hpath path rfl)
  | _ => exact h

/-- **Reading ends.** For every book of phrases, all extensions and every root and input:

- no phrase is nested as deep as the bound, for whatever is put in place of deeper ones is never come to;
- if no phrase function gives up, the stream is exhausted after finitely many pulls;
- along every path that is entered, the counts of each identity fall strictly from the outside in, and a
  count of zero stands alone;
- at no time is the greatest depth more than there are identities, each taken as often as there are
  characters, and at least once. -/
theorem reading_ends (ctx : Context n) (root : Placed n) (input : Text) (progress : Progress) :
    (∀ (deeper : Expansion n) (depth : Nat), Context.depthBound n input ≤ depth →
      Node.read ctx.leniency (ctx.unfold deeper depth) root.node root.address [] input =
        ctx.resolve root input) ∧
    (ctx.phrases.Quiet → ∃ pulls, ((ctx.resolve root input).pullOn progress pulls).1 = .exhausted) ∧
    (∀ path, .enter path ∈ (ctx.resolve root input).events → path.Descending) ∧
    ∀ pulls, ((ctx.resolve root input).pullOn progress pulls).2.metrics.depth ≤
      max progress.metrics.depth (ctx.identities.card * max 1 input.length) := by
  have hempty : ctx.Sound input.length [] input.length := ⟨.nil, nofun, nofun⟩
  have hthroughout := (ctx.upheld_sound input.length).resolveTraced root [] input ⟨hempty, le_rfl⟩
  refine ⟨fun deeper depth hdepth => ?_, fun hquiet => ?_, fun path hpath => ?_, fun pulls => ?_⟩
  · exact (ctx.resolveTraced_eq_unfold deeper hdepth root []).symm
  · have hfault := ctx.fault?_resolveTraced hquiet root [] input
    exact ⟨_, Run.pullOn_length_outputs hfault progress⟩
  · obtain ⟨left, hsound⟩ := hthroughout.events _ hpath path rfl
    exact hsound.descending
  · refine hthroughout.pullOn (fun progress' => progress'.metrics.depth ≤ _)
      (fun e progress' hevent hdepth => ?_) (le_max_left _ _) pulls
    refine Progress.depth_record_le e hdepth fun path hpath => ?_
    obtain ⟨left, hsound⟩ := hevent path hpath
    exact hsound.length_le.trans (le_max_right _ _)

/-- A phrase that is nothing but itself, or the word "end". -/
def loopContext : Context 1 where
  phrases _ :=
    { identity := "Loop"
      describe := fun _ => .ok (.choice none [.element none ⟨⟨0, Nat.one_pos⟩, []⟩, .text "end"]) }
  registry := {}
  leniency := {}

def loopRoot : Placed 1 := ⟨⟨0, []⟩, .element none ⟨⟨0, Nat.one_pos⟩, []⟩⟩

/-- Its stream ends all the same. -/
theorem loopContext_ends : loopContext.phrases.Quiet ∧
    ∃ pulls, ((loopContext.resolve loopRoot ['e']).pullOn {} pulls).1 = .exhausted := by
  have hquiet : loopContext.phrases.Quiet := by
    rintro phrase f (h | ⟨h, -⟩ | h) <;> cases h
  exact ⟨hquiet, (reading_ends loopContext _ _ {}).2.1 hquiet⟩

end Typeahead
