import Mathlib.Data.Finset.Card
import Mathlib.Data.Finset.Prod
import Mathlib.Data.Fintype.Card
import Typeahead.Proofs.Reading

/-!
# Unfolding phrases without a bound

Expansion counts down from a bound, but never gets to the end of it. Each phrase that is entered takes up
one more pair of an identity and a count of characters left, and there are only so many of those pairs
(`room_lt`). So what would be done below the bound does not matter (`unfold_eq`), and expansion is a
solution of the equation that has no bound in it (`expand_eq`). `Context.induction` is the induction that
goes with this: it may assume the statement for all longer paths on what is left of the input.
-/

namespace Typeahead

variable {n : Nat}

/-! ## Reading depends on expansion only -/

section

variable {leniency : Leniency} {expand expand' : Expansion n} {trace : Trace} {input : Text}

theorem Node.readSequence_congr {children : List (Node n)}
    (hsame : ∀ child ∈ children, ∀ here rest, rest <:+ input →
      Node.read leniency expand child here trace rest = Node.read leniency expand' child here trace rest)
    (hleft : ∀ child ∈ children, ∀ here rest, rest <:+ input →
      ∀ out ∈ (Node.read leniency expand child here trace rest).outputs, out.remaining <:+ rest)
    (position : Nat) (here : Address) {acc : Output} (hacc : acc.remaining <:+ input) :
    Node.readSequence leniency expand children position here trace acc =
      Node.readSequence leniency expand' children position here trace acc := by
  induction children generalizing position acc with
  | nil => simp only [Node.readSequence]
  | cons child rest ih =>
    simp only [List.mem_cons, forall_eq_or_imp] at hsame hleft
    simp only [Node.readSequence]
    rw [← hsame.1 _ _ hacc]
    refine Run.bind_congr fun out hout => ih hsame.2 hleft.2 _ ?_
    exact (hleft.1 _ _ hacc out hout).trans hacc

theorem Node.readChoice_congr {children : List (Node n)}
    (hsame : ∀ child ∈ children, ∀ here,
      Node.read leniency expand child here trace input = Node.read leniency expand' child here trace input)
    (position : Nat) (here : Address) :
    Node.readChoice leniency expand children position here trace input =
      Node.readChoice leniency expand' children position here trace input := by
  induction children generalizing position with
  | nil => simp only [Node.readChoice]
  | cons child rest ih =>
    simp only [List.mem_cons, forall_eq_or_imp] at hsame
    simp only [Node.readChoice, hsame.1, ih hsame.2]

end

namespace Context

variable (ctx : Context n)

/-- An expansion that agrees with the bounded one, on a path and all suffixes of the input, gives the same
reading. -/
theorem read_congr {bound : Nat} {expand : Expansion n} {trace : Trace} {input : Text}
    (hsame : ∀ here e rest, rest <:+ input →
      ctx.expandWithin bound here e trace rest = expand here e trace rest)
    (node : Node n) (here : Address) {rest : Text} (hrest : rest <:+ input) :
    Node.read ctx.leniency (ctx.expandWithin bound) node here trace rest =
      Node.read ctx.leniency expand node here trace rest := by
  induction node using Node.induction generalizing here rest with
  | literal label l => simp only [Node.read]
  | sequence label children ih =>
    simp only [Node.read]
    rw [Node.readSequence_congr (fun child hc here rest' h' => ih child hc here h')
      (fun child _ here rest' _ out => ctx.remaining_suffix_read) _ _ hrest]
  | choice label children ih =>
    simp only [Node.read]
    rw [Node.readChoice_congr fun child hc here => ih child hc here hrest]
  | element label e => simp only [Node.read, hsame here e rest hrest]
  | nothing label => simp only [Node.read]

/-- Expanding once depends on how the elements inside are expanded, on the longer path. -/
theorem expandOnce_congr {bound : Nat} {expand : Expansion n} {e : Element n} {trace : Trace} {input : Text}
    (hsame : trace.admits (ctx.frame e.phrase input) = true → ∀ here e' rest, rest <:+ input →
      ctx.expandWithin bound here e' (ctx.frame e.phrase input :: trace) rest =
        expand here e' (ctx.frame e.phrase input :: trace) rest) (here : Address) :
    ctx.expandOnce (ctx.expandWithin bound) here e trace input =
      ctx.expandOnce expand here e trace input := by
  by_cases hadmits : trace.admits (ctx.frame e.phrase input) = true
  · have hread := fun node here => ctx.read_congr (hsame hadmits) node here (List.suffix_refl input)
    simp only [expandOnce, readDescription, readSupplements, hread]
  · simp only [expandOnce, hadmits, Bool.false_eq_true, if_false]

/-! ## Room on a path -/

def identities : Finset String := Finset.univ.image fun phrase => (ctx.phrases phrase).identity

/-- The frames that may still be entered on a path when so many characters are left. -/
def room (trace : Trace) (length : Nat) : Finset (String × Nat) :=
  (ctx.identities ×ˢ Finset.range (length + 1)).filter fun pair => (⟨pair.1, pair.2⟩ : Frame) ∉ trace

theorem identity_mem_identities (phrase : Fin n) : (ctx.phrases phrase).identity ∈ ctx.identities :=
  Finset.mem_image_of_mem _ (Finset.mem_univ phrase)

theorem card_identities_le : ctx.identities.card ≤ n := by
  have h : ctx.identities.card ≤ Finset.univ.card := Finset.card_image_le
  rwa [Finset.card_univ, Fintype.card_fin] at h

theorem card_room_le (trace : Trace) (length : Nat) :
    (ctx.room trace length).card ≤ n * (length + 1) := by
  calc (ctx.room trace length).card
      ≤ (ctx.identities ×ˢ Finset.range (length + 1)).card := Finset.card_filter_le _ _
    _ = ctx.identities.card * (length + 1) := by rw [Finset.card_product, Finset.card_range]
    _ ≤ n * (length + 1) := Nat.mul_le_mul_right _ ctx.card_identities_le

/-- A phrase that may be entered has no frame like the new one on the path. -/
theorem frame_not_mem {trace : Trace} {frame : Frame} (h : trace.admits frame = true) : frame ∉ trace := by
  simp only [Trace.admits, Bool.not_eq_true', List.any_eq_false] at h
  intro hmem
  exact h frame hmem (by simp [Frame.blocks])

/-- **Entering a phrase takes up room**, and what is left of the input makes no more. -/
theorem room_lt {phrase : Fin n} {trace : Trace} {input rest : Text}
    (hadmits : trace.admits (ctx.frame phrase input) = true) (hrest : rest <:+ input) :
    (ctx.room (ctx.frame phrase input :: trace) rest.length).card < (ctx.room trace input.length).card := by
  have hlength : rest.length ≤ input.length := hrest.length_le
  refine Finset.card_lt_card (Finset.ssubset_iff_of_subset ?_ |>.2 ?_)
  · intro pair hpair
    simp only [room, Finset.mem_filter, Finset.mem_product, Finset.mem_range, List.mem_cons,
      not_or] at hpair ⊢
    exact ⟨⟨hpair.1.1, by omega⟩, hpair.2.2⟩
  · refine ⟨((ctx.phrases phrase).identity, input.length), ?_, ?_⟩
    · simp only [room, Finset.mem_filter, Finset.mem_product, Finset.mem_range]
      exact ⟨⟨ctx.identity_mem_identities phrase, by omega⟩, frame_not_mem hadmits⟩
    · simp [room, frame]

/-! ## The bound is never reached -/

/-- Unfold phrases down to a depth, and below it do something else. -/
def unfold (deeper : Expansion n) : Nat → Expansion n
  | 0 => deeper
  | depth + 1 => ctx.expandOnce (unfold deeper depth)

/-- **What is done below the bound does not matter** when the bound is larger than the room on the path. -/
theorem unfold_eq (deeper : Expansion n) {bound depth : Nat} {trace : Trace} {input : Text}
    (hbound : (ctx.room trace input.length).card < bound)
    (hdepth : (ctx.room trace input.length).card < depth) (here : Address) (e : Element n) :
    ctx.expandWithin bound here e trace input = ctx.unfold deeper depth here e trace input := by
  induction bound generalizing depth trace input here e with
  | zero => omega
  | succ bound ih =>
    obtain ⟨depth, rfl⟩ : ∃ k, depth = k + 1 := ⟨depth - 1, by omega⟩
    refine ctx.expandOnce_congr (fun hadmits here e' rest hrest => ?_) here
    have hlt := ctx.room_lt hadmits hrest
    exact ih (by omega) (by omega) here e'

theorem expandWithin_eq {bound bound' : Nat} {trace : Trace} {input : Text}
    (hbound : (ctx.room trace input.length).card < bound)
    (hbound' : (ctx.room trace input.length).card < bound') (here : Address) (e : Element n) :
    ctx.expandWithin bound here e trace input = ctx.expandWithin bound' here e trace input := by
  rw [ctx.unfold_eq (fun _ _ _ _ => .done) hbound hbound,
    ctx.unfold_eq (fun _ _ _ _ => .done) hbound' hbound]

/-- There is room left at the bound, on every path and for whatever is left of the input. -/
theorem room_lt_of_suffix {depth : Nat} {input rest : Text} (hdepth : depthBound n input ≤ depth)
    (hrest : rest <:+ input) (trace : Trace) : (ctx.room trace rest.length).card < depth := by
  have hroom := ctx.card_room_le trace rest.length
  have hle : n * (rest.length + 1) ≤ n * (input.length + 1) :=
    Nat.mul_le_mul_left n (Nat.succ_le_succ hrest.length_le)
  rw [depthBound] at hdepth
  omega

theorem room_lt_depthBound (trace : Trace) (input : Text) :
    (ctx.room trace input.length).card < depthBound n input :=
  ctx.room_lt_of_suffix le_rfl (List.suffix_refl input) trace

/-- Expand an element, as deep as need be. -/
def expand : Expansion n := fun here e trace input =>
  ctx.expandWithin (depthBound n input) here e trace input

/-- **Expansion without a bound.** -/
theorem expand_eq (here : Address) (e : Element n) (trace : Trace) (input : Text) :
    ctx.expand here e trace input = ctx.expandOnce ctx.expand here e trace input := by
  refine ctx.expandOnce_congr (fun hadmits here e' rest hrest => ?_) here
  have hlt := ctx.room_lt hadmits hrest
  have hroom := ctx.card_room_le trace input.length
  exact ctx.expandWithin_eq (by omega) (ctx.room_lt_depthBound _ _) here e'

/-- Reading a node, whatever is done below the bound. -/
theorem resolveTraced_eq_unfold (deeper : Expansion n) {depth : Nat} {input : Text}
    (hdepth : depthBound n input ≤ depth) (placed : Placed n) (trace : Trace) :
    ctx.resolveTraced placed trace input =
      Node.read ctx.leniency (ctx.unfold deeper depth) placed.node placed.address trace input := by
  refine ctx.read_congr (fun here e rest hrest => ?_) _ _ (List.suffix_refl input)
  exact ctx.unfold_eq deeper (ctx.room_lt_of_suffix le_rfl hrest trace)
    (ctx.room_lt_of_suffix hdepth hrest trace) here e

/-- Read input as a node, phrases expanded as deep as need be. -/
abbrev read (node : Node n) (here : Address) (trace : Trace) (input : Text) : Run Output :=
  Node.read ctx.leniency ctx.expand node here trace input

theorem resolveTraced_eq (placed : Placed n) (trace : Trace) (input : Text) :
    ctx.resolveTraced placed trace input = ctx.read placed.node placed.address trace input := by
  refine ctx.read_congr (fun here e rest hrest => ?_) _ _ (List.suffix_refl input)
  exact ctx.expandWithin_eq (ctx.room_lt_of_suffix le_rfl hrest trace)
    (ctx.room_lt_depthBound trace rest) here e

/-- Induction on how much room a path has: a statement about a path and an input may be assumed of the path
with one more frame and whatever is left of the input. -/
theorem induction {motive : Trace → Text → Prop}
    (step : ∀ (trace : Trace) (input : Text),
      (∀ phrase, trace.admits (ctx.frame phrase input) = true → ∀ rest, rest <:+ input →
        motive (ctx.frame phrase input :: trace) rest) → motive trace input)
    (trace : Trace) (input : Text) : motive trace input := by
  induction hroom : (ctx.room trace input.length).card using Nat.strong_induction_on
    generalizing trace input with
  | _ size ih =>
    refine step trace input fun phrase hadmits rest hrest => ?_
    exact ih _ (hroom ▸ ctx.room_lt hadmits hrest) _ _ rfl

end Context

end Typeahead
