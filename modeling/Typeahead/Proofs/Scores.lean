import Mathlib.Algebra.GroupWithZero.Nat
import Typeahead.Grammar.Defect
import Typeahead.Proofs.Binary64
import Typeahead.Proofs.Provenance

/-!
# Scores

The score of an output is a product of its literals' scores (`Derivation.product`), so what is known of products
is known of scores. A fuzzy alignment uses up the input, and against no input every literal is in lockstep; so
where literals have no scores of their own at most one factor is not one (`InTurn.tiers`), and the score is one
of three tiers. Whatever their own scores, that of an output is at most one, and it is above zero as long as the
product does not fall below the least positive number (`Context.score_in_range`); two scores of 1e-200 are
multiplied to zero (`letters_score_zero`).
-/

namespace Typeahead

variable {n : Nat}

/-! ## Scores are products -/

/-- Some numbers multiplied, in order, each product rounded. -/
inductive Product : List Binary64 → Binary64 → Prop
  | one : Product [] .one
  | factor (x : Binary64) : Product [x] x
  | mul {xs ys : List Binary64} {x y : Binary64} : Product xs x → Product ys y → Product (xs ++ ys) (x.mul y)

namespace Derivation

mutual

/-- **The score of a derivation is a product of its literals' scores.** -/
theorem product : ∀ d : Derivation, Product (d.leaves.map (·.score)) d.score
  | .leaf label out => by
    rw [leaves, score]
    exact .factor out.score
  | .sequence label children => by
    rw [leaves, score]
    exact productAll children .one
  | .choice label index child => by
    rw [leaves, score]
    exact product child
  | .overridden label replacement => by
    rw [leaves, score]
    exact product replacement
  | .described label value description => by
    rw [leaves, score]
    exact product description
  | .supplemented label index supplement => by
    rw [leaves, score]
    exact product supplement

theorem productAll : ∀ (ds : List Derivation) {before : List Binary64} {acc : Binary64}, Product before acc →
    Product (before ++ (leavesAll ds).map (·.score)) (scoreAll ds acc)
  | [], before, acc, h => by
    rw [leavesAll, List.map_nil, List.append_nil, scoreAll]
    exact h
  | d :: ds, before, acc, h => by
    rw [leavesAll, List.map_append, ← List.append_assoc, scoreAll]
    exact productAll ds (.mul h (product d))

end

end Derivation

/-! ## Products of which at most one factor is not one -/

/-- The score of an alignment: in lockstep or at the very start, in one piece, or scattered. -/
def Binary64.IsTier (x : Binary64) : Prop := x = one ∨ x = half ∨ x = quarter

namespace Binary64.IsTier

variable {x : Binary64}

theorem one_mul (h : x.IsTier) : one.mul x = x := by
  obtain ⟨hone, hhalf, hquarter⟩ := one_mul_tiers
  rcases h with rfl | rfl | rfl
  exacts [hone, hhalf, hquarter]

theorem mul_one (h : x.IsTier) : x.mul one = x := by
  obtain ⟨hhalf, hquarter⟩ := mul_one_tiers
  rcases h with rfl | rfl | rfl
  exacts [one_mul_tiers.1, hhalf, hquarter]

end Binary64.IsTier

/-- Scores that are all one but for at most one tier. -/
inductive Lone : List Binary64 → Binary64 → Prop
  | nil : Lone [] .one
  | skip {score tier : Binary64} {scores : List Binary64} : score = .one → Lone scores tier →
      Lone (score :: scores) tier
  | take {tier : Binary64} {scores : List Binary64} : tier.IsTier → (∀ score ∈ scores, score = .one) →
      Lone (tier :: scores) tier

namespace Lone

variable {scores others : List Binary64} {tier : Binary64}

theorem isTier (h : Lone scores tier) : tier.IsTier := by
  induction h with
  | nil => exact .inl rfl
  | skip _ _ ih => exact ih
  | take htier => exact htier

theorem of_ones (h : ∀ score ∈ scores, score = .one) : Lone scores .one := by
  induction scores with
  | nil => exact .nil
  | cons score scores ih =>
    rw [List.forall_mem_cons] at h
    exact .skip h.1 (ih h.2)

/-- The one that may differ is on one side or on the other. -/
theorem of_append (h : Lone (scores ++ others) tier) :
    (Lone scores tier ∧ ∀ score ∈ others, score = .one) ∨ (∀ score ∈ scores, score = .one) ∧ Lone others tier := by
  induction scores with
  | nil => exact .inr ⟨nofun, h⟩
  | cons score scores ih =>
    cases h with
    | skip hone hrest =>
      rcases ih hrest with ⟨hscores, hothers⟩ | ⟨hscores, hothers⟩
      · exact .inl ⟨.skip hone hscores, hothers⟩
      · exact .inr ⟨List.forall_mem_cons.2 ⟨hone, hscores⟩, hothers⟩
    | take htier hones =>
      obtain ⟨hscores, hothers⟩ := List.forall_mem_append.1 hones
      exact .inl ⟨.take htier hscores, hothers⟩

end Lone

/-- **A product is its one factor that may differ.** -/
theorem Product.eq_of_lone {xs : List Binary64} {x tier : Binary64} (h : Product xs x) (hlone : Lone xs tier) :
    x = tier := by
  induction h generalizing tier with
  | one =>
    cases hlone
    rfl
  | factor x =>
    cases hlone with
    | skip hone hnil =>
      cases hnil
      exact hone
    | take => rfl
  | mul _ _ ihx ihy =>
    rcases hlone.of_append with ⟨hxs, hys⟩ | ⟨hxs, hys⟩
    · rw [ihx hxs, ihy (.of_ones hys), hlone.isTier.mul_one]
    · rw [ihx (.of_ones hxs), ihy hys, hlone.isTier.one_mul]

/-! ## Literals that are not in lockstep -/

theorem lockstep?_score {ignoreCase : Bool} {text input : Text} {alignment : Alignment}
    (h : lockstep? ignoreCase text input = some alignment) : alignment.score = .one := by
  unfold lockstep? at h
  split at h <;> cases h <;> rfl

theorem fuzzyAlign?_isTier {search : Search} {ignoreCase : Bool} {text input : Text}
    {alignment : Alignment} (h : fuzzyAlign? search ignoreCase text input = some alignment) :
    alignment.score.IsTier := by
  rcases fuzzyAlign?_cases h with hpiece | hscattered
  · obtain ⟨start, -, rfl⟩ := Option.map_eq_some_iff.1 hpiece
    by_cases hstart : start = 0
    · exact .inl (if_pos hstart)
    · exact .inr (.inl (if_neg hstart))
  · obtain ⟨marks, -, rfl⟩ := Option.map_eq_some_iff.1 hscattered
    exact .inr (.inr rfl)

/-- A literal without a score of its own is read in lockstep, with score one, or else fuzzily, with the score
of the alignment and nothing left of the input. -/
theorem Literal.read?_score {l : Literal} {leniency : Leniency} {input : Text} {out : Output}
    (h : l.read? leniency input = some out) (hown : l.ownScore? = none) :
    (lockstep? leniency.ignoreCase out.text input).isSome = true ∧ out.score = .one ∨
      (lockstep? leniency.ignoreCase out.text input).isSome = false ∧ out.remaining = [] ∧
        ∃ alignment, fuzzyAlign? leniency.search leniency.ignoreCase out.text input =
          some alignment ∧ out.score = alignment.score := by
  rw [(read?_shows h).1]
  obtain ⟨alignment, halign, rfl⟩ := Option.map_eq_some_iff.1 h
  have hscore : (l.readingOf alignment).score = alignment.score := by rw [readingOf, hown]; rfl
  rw [hscore]
  rcases alignWith_eq_some_iff.1 halign with hlockstep | ⟨hnone, -, hfound⟩
  · exact .inl ⟨by rw [hlockstep]; rfl, lockstep?_score hlockstep⟩
  · exact .inr ⟨by rw [hnone]; rfl, fuzzyAlign?_remaining hfound, alignment, hfound, rfl⟩

/-- The readings of literals that are not in lockstep with the input they were given, each with that input. -/
def strays (ignoreCase : Bool) : List Output → Text → List (Text × Output)
  | [], _ => []
  | leaf :: leaves, input =>
    if (lockstep? ignoreCase leaf.text input).isSome then strays ignoreCase leaves leaf.remaining
    else (input, leaf) :: strays ignoreCase leaves leaf.remaining

theorem strays_nil (ignoreCase : Bool) {leaves : List Output} (h : ∀ leaf ∈ leaves, leaf.remaining = []) :
    strays ignoreCase leaves [] = [] := by
  induction leaves with
  | nil => rfl
  | cons leaf leaves ih =>
    rw [List.forall_mem_cons] at h
    rw [strays, lockstep?_nil, Option.isSome_some, if_pos rfl, h.1, ih h.2]

namespace InTurn

variable {leniency : Leniency} {kind : Literal → Prop} {input : Text} {leaves : List Output}

theorem tiers_of_nil (h : InTurn leniency kind [] leaves) (hkind : ∀ l, kind l → l.ownScore? = none) :
    strays leniency.ignoreCase leaves [] = [] ∧ ∀ score ∈ leaves.map (·.score), score = .one := by
  constructor
  · refine strays_nil _ fun leaf hleaf => ?_
    obtain ⟨l, -, hread⟩ := h.exists_read_nil leaf hleaf
    exact List.suffix_nil.1 (Literal.read?_accounts hread).suffix
  · refine List.forall_mem_map.2 fun leaf hleaf => ?_
    obtain ⟨l, hl, hread⟩ := h.exists_read_nil leaf hleaf
    rcases Literal.read?_score hread (hkind l hl) with ⟨-, hone⟩ | ⟨hnone, -⟩
    · exact hone
    · rw [lockstep?_nil] at hnone
      cases hnone

/-- **At most one literal is not in lockstep**, and the scores of all others are one. -/
theorem tiers (h : InTurn leniency kind input leaves) (hkind : ∀ l, kind l → l.ownScore? = none) :
    (strays leniency.ignoreCase leaves input = [] ∧ Lone (leaves.map (·.score)) .one) ∨
      ∃ given leaf alignment, strays leniency.ignoreCase leaves input = [(given, leaf)] ∧
        fuzzyAlign? leniency.search leniency.ignoreCase leaf.text given = some alignment ∧
        Lone (leaves.map (·.score)) alignment.score := by
  induction h with
  | nil => exact .inl ⟨rfl, .nil⟩
  | @cons l input out outs hl hread hrest ih =>
    rw [List.map_cons]
    rcases Literal.read?_score hread (hkind l hl) with ⟨hlockstep, hone⟩ | ⟨hnone, hremaining, alignment, hfound, hscore⟩
    · rw [strays, if_pos hlockstep]
      rcases ih with ⟨hstrays, hlone⟩ | ⟨given, leaf, alignment, hstrays, hfound, hlone⟩
      · exact .inl ⟨hstrays, .skip hone hlone⟩
      · exact .inr ⟨given, leaf, alignment, hstrays, hfound, .skip hone hlone⟩
    · -- no input is left for the literals after this one
      rw [hremaining] at hrest
      obtain ⟨hstrays, hones⟩ := hrest.tiers_of_nil hkind
      refine .inr ⟨input, out, alignment, ?_, hfound, ?_⟩
      · rw [strays, if_neg (by simp [hnone]), hremaining, hstrays]
      · rw [hscore]
        exact .take (fuzzyAlign?_isTier hfound) hones

end InTurn

theorem Derives.tiers {ctx : Context n} {node : Node n} {trace : Trace} {input : Text} {d : Derivation}
    (h : Derives ctx node trace input d) (hown : ∀ l, Tries ctx node trace input l → l.ownScore? = none) :
    (strays ctx.leniency.ignoreCase d.leaves input = [] ∧ (d.eval input).score = .one) ∨
      ∃ given leaf alignment, strays ctx.leniency.ignoreCase d.leaves input = [(given, leaf)] ∧
        fuzzyAlign? ctx.leniency.search ctx.leniency.ignoreCase leaf.text given =
          some alignment ∧ (d.eval input).score = alignment.score := by
  rw [(d.eval_parts input).2.1]
  rcases h.leaves_inTurn.tiers hown with ⟨hstrays, hlone⟩ | ⟨given, leaf, alignment, hstrays, hfound, hlone⟩
  · exact .inl ⟨hstrays, d.product.eq_of_lone hlone⟩
  · exact .inr ⟨given, leaf, alignment, hstrays, hfound, d.product.eq_of_lone hlone⟩

/-- **Scores come in three tiers.** Let no literal that is tried have a score of its own. Then the score of an
output is 1, 1/2 or 1/4, however many fuzzy literals there are: of the literals of a derivation at most one is
not in lockstep with its input; the score is that of its fuzzy alignment, and one if there is none. -/
theorem Context.score_of_output (ctx : Context n) (root : Placed n) (input : Text)
    (hown : ∀ l, Tries ctx root.node [] input l → l.ownScore? = none) {out : Output}
    (h : out ∈ (ctx.resolve root input).outputs) :
    (out.score = .one ∨ out.score = .half ∨ out.score = .quarter) ∧
    (∃ d, Derives ctx root.node [] input d ∧ d.eval input = out) ∧
    ∀ d, Derives ctx root.node [] input d → d.eval input = out →
      (strays ctx.leniency.ignoreCase d.leaves input = [] ∧ out.score = .one) ∨
      ∃ given leaf alignment, strays ctx.leniency.ignoreCase d.leaves input = [(given, leaf)] ∧
        fuzzyAlign? ctx.leniency.search ctx.leniency.ignoreCase leaf.text given =
          some alignment ∧ out.score = alignment.score := by
  obtain ⟨d, hd, rfl⟩ := ctx.derived_of_mem_outputs h
  refine ⟨?_, ⟨d, hd, rfl⟩, ?_⟩
  · rcases hd.tiers hown with ⟨-, hone⟩ | ⟨given, leaf, alignment, -, hfound, halign⟩
    · exact .inl hone
    · rw [halign]
      exact fuzzyAlign?_isTier hfound
  · intro d' hd' heval
    rw [← heval]
    exact hd'.tiers hown

/-- Places, to be found by any of their letters. -/
def placeContext : Context 1 where
  phrases _ :=
    { identity := "Place"
      describe := fun _ => .ok <| .choice none [.text "home", .text "office"] }
  registry := {}
  leniency := { fuzzy := true }

def placeRoot : Placed 1 :=
  ⟨⟨0, []⟩, .sequence none [.text "go to ", .element (some "place") ⟨⟨0, Nat.one_pos⟩, []⟩, .text " now"]⟩

theorem placeContext_plain {input : Text} {l : Literal} (h : Tries placeContext placeRoot.node [] input l) :
    l.ownScore? = none := by
  have htext : ∀ {s : String} {trace : Trace} {input : Text},
      Tries placeContext (.text s) trace input l → l.ownScore? = none := by
    rintro s trace input ⟨⟩
    rfl
  obtain _ | hall := h
  obtain hfirst | ⟨-, hplace | ⟨-, hlast | ⟨-, hnone⟩⟩⟩ := hall
  · exact htext hfirst
  · cases hplace with
    | overridden _ hoverride => cases hoverride
    | described _ _ hdescribe hdescription =>
      cases hdescribe
      cases hdescription with
      | choice hmem hchild =>
        rcases List.mem_pair.1 hmem with rfl | rfl
        · exact htext hchild
        · exact htext hchild
    | supplemented _ _ hmem => cases hmem
  · exact htext hlast
  · cases hnone

/-- Two letters of a place are found apart from each other, and what follows does not lower the score. -/
theorem placeContext_score :
    ∃ out ∈ (placeContext.resolve placeRoot "go to ie".toList).outputs, out.score = .quarter ∧
      ∃ d, Derives placeContext placeRoot.node [] "go to ie".toList d ∧ d.eval "go to ie".toList = out ∧
        ∃ given leaf alignment, strays false d.leaves "go to ie".toList = [(given, leaf)] ∧
          fuzzyAlign? placeContext.leniency.search false leaf.text given = some alignment ∧
          out.score = alignment.score := by
  have hany : (placeContext.resolve placeRoot "go to ie".toList).outputs.any (·.score = .quarter) = true := by
    decide +kernel
  obtain ⟨out, hout, hscore⟩ := List.any_eq_true.1 hany
  have hquarter : out.score = .quarter := of_decide_eq_true hscore
  obtain ⟨-, ⟨d, hd, heval⟩, hall⟩ := placeContext.score_of_output placeRoot _ (fun _ => placeContext_plain) hout
  refine ⟨out, hout, hquarter, d, hd, heval, ?_⟩
  rcases hall d hd heval with ⟨-, hone⟩ | hstray
  · exact absurd (hquarter.symm.trans hone) (by decide)
  · exact hstray

/-! ## The range of scores -/

namespace Product

variable {xs : List Binary64} {x : Binary64}

theorem le_one (h : Product xs x) (hxs : ∀ y ∈ xs, y.bits.toNat ≤ Binary64.one.bits.toNat) :
    x.bits.toNat ≤ Binary64.one.bits.toNat := by
  induction h with
  | one => exact le_rfl
  | factor x => exact hxs x List.mem_cons_self
  | mul _ _ ihx ihy =>
    rw [List.forall_mem_append] at hxs
    exact Binary64.mul_le_one (ihx hxs.1) (ihy hxs.2)

/-- Factors that take no more than 1074 halvings together have a product above zero. -/
theorem inUnit (h : Product xs x) (hxs : ∀ y ∈ xs, y.inUnit = true)
    (hsum : (xs.map Binary64.halvings).sum ≤ 1074) :
    x.inUnit = true ∧ x.halvings ≤ (xs.map Binary64.halvings).sum := by
  induction h with
  | one => decide
  | factor x => exact ⟨hxs x List.mem_cons_self, by simp⟩
  | mul _ _ ihx ihy =>
    rw [List.forall_mem_append] at hxs
    rw [List.map_append, List.sum_append] at hsum ⊢
    obtain ⟨hx, hxle⟩ := ihx hxs.1 (by omega)
    obtain ⟨hy, hyle⟩ := ihy hxs.2 (by omega)
    obtain ⟨hmul, hmulle⟩ := Binary64.mul_inUnit hx hy (by omega)
    exact ⟨hmul, by omega⟩

end Product

theorem Binary64.IsTier.inUnit {x : Binary64} (h : x.IsTier) : x.inUnit = true := by
  rcases h with rfl | rfl | rfl <;> decide

theorem Literal.read?_inUnit {l : Literal} {leniency : Leniency} {input : Text} {out : Output}
    (h : l.read? leniency input = some out) : out.score.inUnit = true := by
  cases hown : l.ownScore? with
  | some score =>
    obtain ⟨alignment, -, rfl⟩ := Option.map_eq_some_iff.1 h
    rw [readingOf, hown]
    exact (Option.filter_eq_some_iff.1 hown).2
  | none =>
    rcases read?_score h hown with ⟨-, hone⟩ | ⟨-, -, alignment, hfound, hscore⟩
    · exact hone ▸ rfl
    · exact hscore ▸ (fuzzyAlign?_isTier hfound).inUnit

theorem Derives.leaf_inUnit {ctx : Context n} {node : Node n} {trace : Trace} {input : Text} {d : Derivation}
    (h : Derives ctx node trace input d) : ∀ leaf ∈ d.leaves, leaf.score.inUnit = true := by
  intro leaf hleaf
  obtain ⟨l, given, -, hread⟩ := h.leaves_inTurn.exists_read leaf hleaf
  exact Literal.read?_inUnit hread

theorem Derives.score_le_one {ctx : Context n} {node : Node n} {trace : Trace} {input : Text} {d : Derivation}
    (h : Derives ctx node trace input d) : (d.eval input).score.bits.toNat ≤ Binary64.one.bits.toNat := by
  rw [(d.eval_parts input).2.1]
  refine d.product.le_one (List.forall_mem_map.2 fun leaf hleaf => ?_)
  exact (Binary64.inUnit_iff.1 (h.leaf_inUnit leaf hleaf)).2

theorem Derives.score_inUnit {ctx : Context n} {node : Node n} {trace : Trace} {input : Text} {d : Derivation}
    (h : Derives ctx node trace input d) (hsum : (d.leaves.map (·.score.halvings)).sum ≤ 1074) :
    (d.eval input).score.inUnit = true := by
  rw [(d.eval_parts input).2.1]
  refine (d.product.inUnit (List.forall_mem_map.2 h.leaf_inUnit) ?_).1
  rwa [List.map_map]

/-- **Scores are at most one, and above zero unless they fall below the least number.** The score of an output
is a number, is not negative, and is at most one, whatever scores the literals ask for. Those of the literals in
a derivation of it are above zero too, and so is its own if theirs take no more than 1074 halvings of one
together. -/
theorem Context.score_in_range (ctx : Context n) (root : Placed n) (input : Text) {out : Output}
    (h : out ∈ (ctx.resolve root input).outputs) :
    out.score.isNaN = false ∧ out.score.negative = false ∧
    out.score.bits.toNat ≤ Binary64.one.bits.toNat ∧
    (∃ d, Derives ctx root.node [] input d ∧ d.eval input = out) ∧
    ∀ d, Derives ctx root.node [] input d → d.eval input = out →
      (∀ leaf ∈ d.leaves, leaf.score.inUnit = true) ∧
      ((d.leaves.map (·.score.halvings)).sum ≤ 1074 → out.score.inUnit = true) := by
  obtain ⟨d, hd, rfl⟩ := ctx.derived_of_mem_outputs h
  obtain ⟨hsign, hnan, -⟩ := Binary64.finite_of_le_one hd.score_le_one
  refine ⟨hnan, hsign, hd.score_le_one, ⟨d, hd, rfl⟩, ?_⟩
  intro d' hd' heval
  rw [← heval]
  exact ⟨hd'.leaf_inUnit, hd'.score_inUnit⟩

def letterContext : Context 0 := { phrases := nofun, registry := {}, leniency := {} }

def letterRoot (score : Binary64) : Placed 0 :=
  ⟨⟨0, []⟩, .sequence none [.scored score (.text "a"), .scored score (.text "b")]⟩

theorem letterRoot_leaves {score : Binary64} (hscore : score.inUnit = true) {input : Text} {d : Derivation}
    (h : Derives letterContext (letterRoot score).node [] input d) :
    d.leaves.map (·.score.halvings) = [score.halvings, score.halvings] := by
  have hown : ∀ {text input : Text} {out : Output},
      Literal.read? ⟨text, false, some score, none⟩ letterContext.leniency input = some out → out.score = score := by
    intro text input out hread
    obtain ⟨alignment, -, rfl⟩ := Option.map_eq_some_iff.1 hread
    simp [Literal.readingOf, Literal.ownScore?, Option.filter, hscore]
  cases h with
  | sequence hds =>
    cases hds with
    | cons hfirst hrest =>
      cases hrest with
      | cons hsecond hnil =>
        cases hfirst with
        | literal hfirst =>
          cases hsecond with
          | literal hsecond =>
            cases hnil
            simp [Derivation.leaves, Derivation.leavesAll, hown hfirst, hown hsecond]

/-- Scores of 0.3 are multiplied to one above zero. -/
theorem letters_score_in_range :
    ∃ out ∈ (letterContext.resolve (letterRoot (.ofDecimal false 3 (-1))) "ab".toList).outputs,
      out.score.isNaN = false ∧ out.score.negative = false ∧ out.score.inUnit = true := by
  obtain ⟨out, hout⟩ := List.exists_mem_of_length_pos (show
    0 < (letterContext.resolve (letterRoot (.ofDecimal false 3 (-1))) "ab".toList).outputs.length by decide +kernel)
  obtain ⟨hnan, hsign, -, ⟨d, hd, heval⟩, hall⟩ := letterContext.score_in_range _ _ hout
  refine ⟨out, hout, hnan, hsign, (hall d hd heval).2 ?_⟩
  rw [letterRoot_leaves (by decide +kernel) hd]
  decide +kernel

/-- **Scores of 1e-200 pass every check, and their product is zero.** -/
theorem letters_score_zero :
    (Binary64.ofDecimal false 1 (-200)).inUnit = true ∧
    Node.check letterContext.phrases (letterRoot (.ofDecimal false 1 (-200))).node = .ok () ∧
    ∃ out ∈ (letterContext.resolve (letterRoot (.ofDecimal false 1 (-200))) "ab".toList).outputs,
      out.isComplete = true ∧ out.score.bits = 0 ∧ out.score.inUnit = false := by
  have hany : (letterContext.resolve (letterRoot (.ofDecimal false 1 (-200))) "ab".toList).outputs.any (fun out =>
      out.isComplete = true ∧ out.score.bits = 0 ∧ out.score.inUnit = false) = true := by
    decide +kernel
  obtain ⟨out, hout, hzero⟩ := List.any_eq_true.1 hany
  exact ⟨by decide +kernel, by decide +kernel, out, hout, of_decide_eq_true hzero⟩

end Typeahead
