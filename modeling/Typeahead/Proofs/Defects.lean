import Mathlib.Tactic.Linarith
import Mathlib.Tactic.NormNum
import Mathlib.Tactic.Positivity
import Typeahead.Proofs.History
import Typeahead.Proofs.Numbers
import Typeahead.Proofs.Reading

/-!
# The first defect

Sentences and extensions are checked before anything is replaced, and the check stops at the first thing that
is wrong (`Reports`): for sentences at the first node with a defect, each tree from the top down and from left to
right (`Node.reports_checkAll`), for extensions at the first phrase with one (`Session.reports_checkExtensions`).
A score is in order if the number it stands for is above zero and at most one, so what stands for no number is
not (`Binary64.inUnit_iff_inUnitInterval`). Main statement: `Desk.sentences_are_checked`.
-/

namespace Typeahead

variable {n : Nat}

/-! ## Scores as numbers -/

namespace Binary64

/-- A number above zero and at most one. -/
def InUnitInterval (x : Binary64) : Prop := ∃ value, x.value? = some value ∧ 0 < value ∧ value ≤ 1

variable {x : Binary64}

theorem value?_of_le_one (hx : x.bits.toNat ≤ one.bits.toNat) :
    x.value? = some (x.significand * 2 ^ x.power : ℚ) := by
  obtain ⟨hsign, hnan, hinf⟩ := finite_of_le_one hx
  simp [value?, hsign, hnan, hinf]

theorem significand_eq_zero (h : x.magnitude = 0) : x.significand = 0 := by
  simp [significand, exponentField, fraction, h]

/-- A number with a word above that of one is greater than one. -/
theorem one_lt_of_lt_bits (hsign : x.negative = false) (h : one.bits.toNat < x.bits.toNat) :
    1 < (x.significand * 2 ^ x.power : ℚ) := by
  have hmagnitude : x.magnitude = x.bits.toNat :=
    Nat.mod_eq_of_lt (Nat.lt_of_not_le (of_decide_eq_false hsign))
  have hsteps : (one.steps : ℚ) < x.steps := by
    refine Nat.cast_lt.2 (steps_lt ?_)
    rw [hmagnitude]
    exact h
  have hone : (one.significand * 2 ^ one.power : ℚ) = 1 := by
    have hsignificand : one.significand = 2 ^ 52 := by decide
    have hpower : one.power = -52 := by decide
    rw [hsignificand, hpower]
    norm_num
  calc (1 : ℚ) = one.steps * leastPositive := by rw [← hone, significand_mul_power]
    _ < x.steps * leastPositive := mul_lt_mul_of_pos_right hsteps leastPositive_pos
    _ = x.significand * 2 ^ x.power := x.significand_mul_power.symm

/-- **The check of a score** asks for a number above zero and at most one. -/
theorem inUnit_iff_inUnitInterval : x.inUnit = true ↔ x.InUnitInterval := by
  constructor
  · intro hunit
    have hle := (inUnit_iff.1 hunit).2
    have hpos : 0 < x.significand := Nat.pos_of_ne_zero (significand_ne_zero hunit)
    obtain ⟨k, hpower, hk⟩ := significand_le hle
    refine ⟨_, value?_of_le_one hle, by positivity, ?_⟩
    rw [hpower, zpow_neg, zpow_natCast]
    exact mul_inv_le_one_of_le₀ (by exact_mod_cast hk) (by positivity)
  · rintro ⟨value, hvalue, hpos, hle⟩
    obtain ⟨-, -, rfl⟩ := value?_eq_some hvalue
    cases hsign : x.negative with
    | true =>
      have hmagnitude : (0 : ℚ) ≤ x.significand * 2 ^ x.power := by positivity
      rw [hsign, if_pos rfl] at hpos
      linarith
    | false =>
      rw [hsign, if_neg Bool.false_ne_true, one_mul] at hpos hle
      refine inUnit_iff.2 ⟨Nat.pos_of_ne_zero fun hzero => ?_, Nat.le_of_not_lt fun hlt => ?_⟩
      · rw [significand_eq_zero (by rw [magnitude, hzero, Nat.zero_mod])] at hpos
        simp at hpos
      · exact (one_lt_of_lt_bits hsign hlt).not_ge hle

/-- What is no number, an infinity and either zero are not in the interval. -/
theorem not_inUnitInterval (h : x.isNaN = true ∨ x.isInfinite = true ∨ x.magnitude = 0) :
    ¬x.InUnitInterval := by
  rintro ⟨value, hvalue, hpos, -⟩
  obtain ⟨hnan, hinf, rfl⟩ := value?_eq_some hvalue
  rcases h with h | h | h
  · rw [h] at hnan
    cases hnan
  · rw [h] at hinf
    cases hinf
  · rw [significand_eq_zero h] at hpos
    simp at hpos

end Binary64

/-! ## The first of several things that is wrong -/

section

variable {α : Type} {wrong : α → Defect → Prop} {items later : List α} {item : α} {defect other : Defect}

def Flawless (wrong : α → Defect → Prop) (items : List α) : Prop := ∀ item ∈ items, ∀ defect, ¬wrong item defect

/-- What is wrong with the first of them that something is wrong with. -/
def FirstDefect (wrong : α → Defect → Prop) (items : List α) (defect : Defect) : Prop :=
  ∃ before item after, items = before ++ item :: after ∧ Flawless wrong before ∧ wrong item defect

theorem flawless_nil : Flawless wrong [] := fun _ hmem => absurd hmem List.not_mem_nil

theorem flawless_append : Flawless wrong (items ++ later) ↔ Flawless wrong items ∧ Flawless wrong later :=
  List.forall_mem_append

theorem FirstDefect.not_flawless (h : FirstDefect wrong items defect) : ¬Flawless wrong items := by
  obtain ⟨before, item, after, rfl, -, hwrong⟩ := h
  exact fun hflawless => hflawless item (by simp) defect hwrong

theorem firstDefect_cons : FirstDefect wrong (item :: items) defect ↔
    wrong item defect ∨ (∀ other, ¬wrong item other) ∧ FirstDefect wrong items defect := by
  constructor
  · rintro ⟨before, found, after, hitems, hbefore, hwrong⟩
    cases before with
    | nil =>
      cases hitems
      exact .inl hwrong
    | cons first before =>
      cases hitems
      have hfirst := List.forall_mem_cons.1 hbefore
      exact .inr ⟨hfirst.1, before, found, after, rfl, hfirst.2, hwrong⟩
  · rintro (hwrong | ⟨hitem, before, found, after, rfl, hbefore, hwrong⟩)
    · exact ⟨[], item, items, rfl, flawless_nil, hwrong⟩
    · exact ⟨item :: before, found, after, rfl, List.forall_mem_cons.2 ⟨hitem, hbefore⟩, hwrong⟩

theorem exists_firstDefect_iff :
    (∃ defect, FirstDefect wrong items defect) ↔ ∃ item ∈ items, ∃ defect, wrong item defect := by
  induction items with
  | nil => exact iff_of_false (fun ⟨_, h⟩ => h.not_flawless flawless_nil) (fun ⟨_, h, _⟩ => nomatch h)
  | cons item rest ih =>
    simp only [firstDefect_cons, exists_or, exists_and_left, ih, List.exists_mem_cons_iff, ← not_exists]
    exact ⟨Or.imp_right And.right, fun h => or_iff_not_imp_left.2 fun hnone => ⟨hnone, h.resolve_left hnone⟩⟩

theorem FirstDefect.append_right (h : FirstDefect wrong items defect) (later : List α) :
    FirstDefect wrong (items ++ later) defect := by
  obtain ⟨before, item, after, rfl, hbefore, hwrong⟩ := h
  exact ⟨before, item, after ++ later, by simp, hbefore, hwrong⟩

theorem FirstDefect.append_left (hitems : Flawless wrong items) (h : FirstDefect wrong later defect) :
    FirstDefect wrong (items ++ later) defect := by
  obtain ⟨before, item, after, rfl, hbefore, hwrong⟩ := h
  exact ⟨items ++ before, item, after, by simp, flawless_append.2 ⟨hitems, hbefore⟩, hwrong⟩

theorem FirstDefect.unique (hunique : ∀ item defect other, wrong item defect → wrong item other → defect = other)
    (h : FirstDefect wrong items defect) (h' : FirstDefect wrong items other) : defect = other := by
  induction items with
  | nil => exact absurd flawless_nil h.not_flawless
  | cons item rest ih =>
    rcases firstDefect_cons.1 h with hwrong | ⟨hnone, hrest⟩
    · rcases firstDefect_cons.1 h' with hwrong' | ⟨hnone', -⟩
      · exact hunique item _ _ hwrong hwrong'
      · exact absurd hwrong (hnone' _)
    · rcases firstDefect_cons.1 h' with hwrong' | ⟨-, hrest'⟩
      · exact absurd hwrong' (hnone _)
      · exact ih hrest hrest'

/-- What a check finds that stops at the first defect. -/
inductive Reports (wrong : α → Defect → Prop) (items : List α) : Except Defect Unit → Prop
  | ok : Flawless wrong items → Reports wrong items (.ok ())
  | error {defect : Defect} : FirstDefect wrong items defect → Reports wrong items (.error defect)

namespace Reports

variable {result : Except Defect Unit}

theorem flawless (h : Reports wrong items (.ok ())) : Flawless wrong items := by
  cases h
  assumption

theorem firstDefect (h : Reports wrong items (.error defect)) : FirstDefect wrong items defect := by
  cases h
  assumption

/-- After a defect nothing else is looked at. -/
theorem append_right (h : Reports wrong items (.error defect)) (later : List α) :
    Reports wrong (items ++ later) (.error defect) := .error (h.firstDefect.append_right later)

/-- While there is no defect the check goes on. -/
theorem append_left (hitems : Reports wrong items (.ok ())) (h : Reports wrong later result) :
    Reports wrong (items ++ later) result := by
  cases h with
  | ok hlater => exact .ok (flawless_append.2 ⟨hitems.flawless, hlater⟩)
  | error hlater => exact .error (hlater.append_left hitems.flawless)

theorem eq_ok_iff (h : Reports wrong items result) : result = .ok () ↔ Flawless wrong items := by
  cases h with
  | ok hflawless => exact iff_of_true rfl hflawless
  | error hfirst => exact iff_of_false nofun hfirst.not_flawless

theorem eq_error_iff (hunique : ∀ item defect other, wrong item defect → wrong item other → defect = other)
    (h : Reports wrong items result) : result = .error defect ↔ FirstDefect wrong items defect := by
  cases h with
  | ok hflawless => exact iff_of_false nofun fun hfirst => hfirst.not_flawless hflawless
  | error hfirst =>
    constructor
    · rintro ⟨⟩
      exact hfirst
    · exact fun hfirst' => congrArg Except.error (hfirst.unique hunique hfirst')

end Reports

end

/-! ## Defects of trees -/

mutual

/-- The nodes of a tree, each before its children and these from left to right. Descriptions are not looked
into. -/
def Node.parts : Node n → List (Node n)
  | .sequence label children => .sequence label children :: Node.partsAll children
  | .choice label children => .choice label children :: Node.partsAll children
  | other => [other]

def Node.partsAll : List (Node n) → List (Node n)
  | [] => []
  | node :: rest => Node.parts node ++ Node.partsAll rest

end

/-- What can be wrong with a node itself: a score that is no number above zero and up to one, and an element of a
phrase without identity. -/
inductive Node.HasDefect (book : Phrasebook n) : Node n → Defect → Prop
  | score {label : Option String} {l : Literal} {score : Binary64} (hscore : l.score = some score)
      (h : ¬score.InUnitInterval) : HasDefect book (.literal label l) (.scoreOutOfRange l.text score)
  | identity {label : Option String} {e : Element n} (h : (book e.phrase).identity = "") :
      HasDefect book (.element label e) .emptyIdentity

/-- What is asked of a node itself. -/
def Node.Proper (book : Phrasebook n) : Node n → Prop
  | .literal _ l => ∀ score, l.score = some score → score.InUnitInterval
  | .element _ e => (book e.phrase).identity ≠ ""
  | .sequence .. | .choice .. | .nothing _ => True

namespace Node

variable {book : Phrasebook n}

theorem HasDefect.unique (node : Node n) (defect other : Defect) (h : node.HasDefect book defect)
    (h' : node.HasDefect book other) : defect = other := by
  cases h with
  | score hscore =>
    cases h' with
    | score hscore' =>
      cases hscore.symm.trans hscore'
      rfl
  | identity => cases h' with | identity => rfl

theorem proper_iff {node : Node n} : node.Proper book ↔ ∀ defect, ¬node.HasDefect book defect := by
  constructor
  · rintro h defect (⟨hscore, hout⟩ | hempty)
    · exact hout (h _ hscore)
    · exact h hempty
  · intro h
    cases node with
    | literal label l => exact fun score hscore => by_contra fun hout => h _ (.score hscore hout)
    | element label e => exact fun hempty => h _ (.identity hempty)
    | sequence label children => trivial
    | choice label children => trivial
    | nothing label => trivial

theorem flawless_iff {nodes : List (Node n)} :
    Flawless (HasDefect book) nodes ↔ ∀ node ∈ nodes, node.Proper book :=
  forall₂_congr fun _ _ => proper_iff.symm

theorem parts_eq (node : Node n) : node.parts = node :: partsAll node.children := by
  cases node <;> simp [parts, partsAll, children]

theorem reports_cons_of_proper {node : Node n} {items : List (Node n)} {result : Except Defect Unit}
    (hnode : node.Proper book) (h : Reports (HasDefect book) items result) :
    Reports (HasDefect book) (node :: items) result := by
  have hsingle : Reports (HasDefect book) [node] (.ok ()) :=
    .ok (List.forall_mem_singleton.2 (proper_iff.1 hnode))
  exact hsingle.append_left h

theorem reports_cons_of_hasDefect {node : Node n} {defect : Defect} (h : node.HasDefect book defect)
    (items : List (Node n)) : Reports (HasDefect book) (node :: items) (.error defect) :=
  .error (firstDefect_cons.2 (.inl h))

theorem reports_checkAll_of {nodes : List (Node n)}
    (h : ∀ node ∈ nodes, Reports (HasDefect book) node.parts (node.check book)) :
    Reports (HasDefect book) (partsAll nodes) (checkAll book nodes) := by
  induction nodes with
  | nil =>
    rw [partsAll, checkAll]
    exact .ok flawless_nil
  | cons node rest ih =>
    obtain ⟨hnode, hrest⟩ := List.forall_mem_cons.1 h
    rw [partsAll, checkAll]
    cases hcheck : node.check book with
    | error defect =>
      rw [hcheck] at hnode
      exact hnode.append_right _
    | ok =>
      rw [hcheck] at hnode
      exact hnode.append_left (ih hrest)

/-- **The check of a tree** reports the first defect among its nodes. -/
theorem reports_check (node : Node n) : Reports (HasDefect book) node.parts (node.check book) := by
  induction node using Node.induction with
  | literal label l =>
    simp only [parts_eq, children, partsAll, check, Literal.check]
    split
    · next score hscore =>
      split
      · next hunit =>
        refine reports_cons_of_proper (fun other hother => ?_) (.ok flawless_nil)
        cases hscore.symm.trans hother
        exact Binary64.inUnit_iff_inUnitInterval.1 hunit
      · next hunit =>
        exact reports_cons_of_hasDefect (.score hscore (mt Binary64.inUnit_iff_inUnitInterval.2 hunit)) []
    · next hscore =>
      exact reports_cons_of_proper (fun score h => by cases hscore.symm.trans h) (.ok flawless_nil)
  | sequence label children ih =>
    rw [parts, check]
    exact reports_cons_of_proper trivial (reports_checkAll_of ih)
  | choice label children ih =>
    rw [parts, check]
    exact reports_cons_of_proper trivial (reports_checkAll_of ih)
  | element label e =>
    simp only [parts_eq, children, partsAll, check]
    split
    · next hempty => exact reports_cons_of_hasDefect (.identity (String.isEmpty_iff.1 hempty)) []
    · next hempty => exact reports_cons_of_proper (mt String.isEmpty_iff.2 hempty) (.ok flawless_nil)
  | nothing label =>
    simp only [parts_eq, children, partsAll, check]
    exact reports_cons_of_proper trivial (.ok flawless_nil)

theorem reports_checkAll (book : Phrasebook n) (nodes : List (Node n)) :
    Reports (HasDefect book) (partsAll nodes) (checkAll book nodes) :=
  reports_checkAll_of fun node _ => node.reports_check

end Node

/-! ## Defects of extensions -/

/-- What can be wrong with a phrase as an extension: it has no identity, or it is to add to or stand in for what
goes by its own. -/
inductive Phrase.HasDefect : Phrase n → Defect → Prop
  | identity {phrase : Phrase n} (h : phrase.identity = "") : HasDefect phrase .emptyIdentity
  | itself {phrase : Phrase n} (hidentity : phrase.identity ≠ "")
      (h : phrase.identity ∈ phrase.supplements ∨ phrase.identity ∈ phrase.overrides) :
      HasDefect phrase (.selfExtension phrase.identity)

theorem Phrase.HasDefect.unique (phrase : Phrase n) (defect other : Defect) (h : phrase.HasDefect defect)
    (h' : phrase.HasDefect other) : defect = other := by
  cases h with
  | identity hempty =>
    cases h' with
    | identity => rfl
    | itself hidentity => exact absurd hempty hidentity
  | itself hidentity =>
    cases h' with
    | identity hempty => exact absurd hempty hidentity
    | itself => rfl

theorem Phrase.exists_hasDefect_iff {phrase : Phrase n} : (∃ defect, phrase.HasDefect defect) ↔
    phrase.identity = "" ∨ phrase.identity ∈ phrase.supplements ∨ phrase.identity ∈ phrase.overrides := by
  constructor
  · rintro ⟨-, hempty | ⟨-, hself⟩⟩
    · exact .inl hempty
    · exact .inr hself
  · intro h
    by_cases hempty : phrase.identity = ""
    · exact ⟨_, .identity hempty⟩
    · exact ⟨_, .itself hempty (h.resolve_left hempty)⟩

theorem Phrase.reports_checkExtension (phrase : Phrase n) :
    Reports Phrase.HasDefect [phrase] phrase.checkExtension := by
  unfold checkExtension
  split
  · next hempty => exact .error (firstDefect_cons.2 (.inl (.identity (String.isEmpty_iff.1 hempty))))
  · next hidentity =>
    have hidentity' : phrase.identity ≠ "" := mt String.isEmpty_iff.2 hidentity
    split
    · next hself =>
      rw [Bool.or_eq_true, List.contains_iff_mem, List.contains_iff_mem] at hself
      exact .error (firstDefect_cons.2 (.inl (.itself hidentity' hself)))
    · next hself =>
      rw [Bool.or_eq_true, List.contains_iff_mem, List.contains_iff_mem] at hself
      refine .ok (List.forall_mem_singleton.2 fun defect hdefect => ?_)
      exact (Phrase.exists_hasDefect_iff.1 ⟨defect, hdefect⟩).elim hidentity' hself

/-- **The check of extensions** reports the first defect among their phrases. -/
theorem Session.reports_checkExtensions (book : Phrasebook n) (phrases : List (Fin n)) :
    Reports Phrase.HasDefect (phrases.map book) (checkExtensions book phrases) := by
  induction phrases with
  | nil => exact .ok flawless_nil
  | cons phrase rest ih =>
    have hphrase := (book phrase).reports_checkExtension
    rw [checkExtensions]
    cases hcheck : (book phrase).checkExtension with
    | error defect =>
      rw [hcheck] at hphrase
      exact hphrase.append_right (rest.map book)
    | ok =>
      rw [hcheck] at hphrase
      exact hphrase.append_left ih

/-! ## Replacing what a session holds -/

namespace Session

theorem setSentences_eq_error_iff {session : Session n} {nodes : List (Node n)} {defect : Defect} :
    session.setSentences nodes = .error defect ↔ Node.checkAll session.phrases nodes = .error defect := by
  cases hcheck : Node.checkAll session.phrases nodes <;> simp [setSentences, hcheck]

theorem exists_setSentences_eq_ok_iff {session : Session n} {nodes : List (Node n)} :
    (∃ told, session.setSentences nodes = .ok told) ↔ Node.checkAll session.phrases nodes = .ok () := by
  cases hcheck : Node.checkAll session.phrases nodes <;> simp [setSentences, hcheck]

end Session

namespace Desk

theorem session_replace_of_ok {desk : Desk n} {result : Except Defect (Session n)} {session : Session n}
    (h : result = .ok session) : (desk.replace result).session = session := by
  rw [h]
  rfl

theorem session_replace_of_error {desk : Desk n} {result : Except Defect (Session n)} {defect : Defect}
    (h : result = .error defect) : (desk.replace result).session = desk.session := by
  rw [h]
  rfl

/-- **Sentences are checked before they are used.** They replace the old ones if and only if every score in them
is a number above zero and at most one and every element in them has an identity. Otherwise what is said is what
is wrong with the first node that something is wrong with, each tree taken from the top down and from left to
right, and nothing at all is changed. Scores that are no number, infinite, or zero of either sign are refused. -/
theorem sentences_are_checked (desk : Desk n) (nodes : List (Node n)) :
    let told := desk.session.setSentences nodes
    let session := (desk.handle (.setSentences nodes)).session
    ((∃ session', told = .ok session') ↔ ∀ part ∈ Node.partsAll nodes, part.Proper desk.session.phrases) ∧
    (∀ session', told = .ok session' →
      session = session' ∧ session.sentences.map (·.node) = nodes ∧
        session = { desk.session with sentences := session.sentences, nextRoot := session.nextRoot }) ∧
    (∀ defect, told = .error defect ↔
      FirstDefect (Node.HasDefect desk.session.phrases) (Node.partsAll nodes) defect) ∧
    (∀ defect, told = .error defect → session = desk.session) ∧
    ∀ label l score, .literal label l ∈ Node.partsAll nodes → l.score = some score →
      (score.isNaN = true ∨ score.isInfinite = true ∨ score.magnitude = 0) →
      ∃ defect, told = .error defect := by
  intro told session
  have hreports := Node.reports_checkAll desk.session.phrases nodes
  have hproper : (∃ session', told = .ok session') ↔
      ∀ part ∈ Node.partsAll nodes, part.Proper desk.session.phrases := by
    rw [Session.exists_setSentences_eq_ok_iff, hreports.eq_ok_iff, Node.flawless_iff]
  refine ⟨hproper, fun session' hok => ?_, fun defect => ?_, fun defect => session_replace_of_error, ?_⟩
  · have hsession : session = session' := session_replace_of_ok hok
    rw [hsession]
    unfold told Session.setSentences at hok
    split at hok
    · cases hok
    · cases hok
      exact ⟨rfl, Session.nodes_placeFrom _ _, rfl⟩
  · rw [Session.setSentences_eq_error_iff, hreports.eq_error_iff Node.HasDefect.unique]
  · intro label l score hpart hscore hvalue
    cases htold : told with
    | error defect => exact ⟨defect, rfl⟩
    | ok session' =>
      exact absurd (hproper.1 ⟨session', htold⟩ _ hpart score hscore) (Binary64.not_inUnitInterval hvalue)

end Desk

def namelessBook : Phrasebook 1 := fun _ => ⟨"", fun _ => .ok (Node.text "x"), none, fun _ _ => .ok true, [], []⟩

/-- The literal `b` is told of, with its score of one and a half, and not the element after it. -/
theorem namelessBook_refusal :
    let desk : Desk 1 := (Desk.ofSettings namelessBook {}).handle (.setSentences [Node.text "old"])
    let misscored : Node 1 := .literal none ⟨['b'], false, some ⟨0x3ff8000000000000⟩, none⟩
    let nodes := [Node.text "a", .sequence none [.choice none [misscored], .element none ⟨0, []⟩]]
    desk.session.setSentences nodes = .error (.scoreOutOfRange ['b'] ⟨0x3ff8000000000000⟩) ∧
      (desk.handle (.setSentences nodes)).session = desk.session := by
  intro desk misscored nodes
  obtain ⟨-, -, hfirst, hunchanged, -⟩ := Desk.sentences_are_checked desk nodes
  have hscore : ¬(⟨0x3ff8000000000000⟩ : Binary64).InUnitInterval := by
    rw [← Binary64.inUnit_iff_inUnitInterval]
    decide
  have herror : desk.session.setSentences nodes = .error (.scoreOutOfRange ['b'] ⟨0x3ff8000000000000⟩) := by
    refine (hfirst _).2 ⟨[Node.text "a", nodes[1], .choice none [misscored]], misscored, [.element none ⟨0, []⟩],
      by simp [nodes, misscored, Node.partsAll, Node.parts, Node.text], ?_, .score rfl hscore⟩
    rw [Node.flawless_iff]
    rintro part (_ | ⟨_, _ | ⟨_, _ | ⟨_, hpart⟩⟩⟩)
    · exact nofun
    · trivial
    · trivial
    · cases hpart
  exact ⟨herror, hunchanged _ herror⟩

end Typeahead
