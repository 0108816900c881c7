import Mathlib.Data.List.DropRight
import Typeahead.Proofs.Interpretation

/-!
# Deleting what was typed

What becomes of an interpretation when the last characters of the input are deleted. Each literal is read
again, in one way or another, and leaves what it left before, less the deleted characters
(`Literal.read?_rdrop`); so all literals of a sentence do (`leftAfter_rdrop`). The values that filters and
value functions see are those of the sentence, which has not changed. Only the guard may object: an element
inside another of its identity is let in only while there is something left to read. So an interpretation
persists if no such element starts in what was deleted (`Session.Interprets.rdrop`). Where one does, there may
be no reading at all (`lone_bracket_is_dead_end`).
-/

namespace Typeahead

variable {n : Nat}

/-! ## Aligning a shorter input -/

section Lockstep

variable {ignoreCase : Bool} {text input : Text} {alignment : Alignment}

theorem lockstep?_rdrop (h : lockstep? ignoreCase text input = some alignment) (count : Nat) :
    ∃ shorter, lockstep? ignoreCase text (input.rdrop count) = some shorter ∧
      shorter.remaining = alignment.remaining.rdrop count := by
  rcases lockstep?_agrees h with ⟨consumed, rfl, hall⟩ | ⟨hremaining, typed, untyped, rfl, hall⟩
  · generalize alignment.remaining = rest
    by_cases hcount : count ≤ rest.length
    · have hinput : (consumed ++ rest).rdrop count = consumed ++ rest.rdrop count := by
        rw [List.rdrop, List.rdrop, List.length_append, Nat.add_sub_assoc hcount,
          List.take_length_add_append]
      rw [hinput]
      exact lockstep?_of_text hall _
    · -- the deletion goes into the text, which is now half typed
      have hinput : (consumed ++ rest).rdrop count =
          consumed.take (consumed.length + rest.length - count) := by
        rw [List.rdrop, List.length_append, List.take_append_of_le_length (by omega)]
      have hrest : rest.rdrop count = [] := by
        rw [List.rdrop, Nat.sub_eq_zero_of_le (by omega), List.take_zero]
      rw [hinput, hrest]
      have hpart := lockstep?_of_input
        (List.forall₂_take (consumed.length + rest.length - count) hall)
        (text.drop (consumed.length + rest.length - count))
      rwa [List.take_append_drop] at hpart
  · rw [hremaining, List.rdrop_nil, List.rdrop]
    have hpart := lockstep?_of_input (List.forall₂_take (input.length - count) hall)
      (typed.drop (input.length - count) ++ untyped)
    rwa [← List.append_assoc, List.take_append_drop] at hpart

/-- Where lockstep fails, a shorter input does not use up the text. -/
theorem lockstep?_remaining_shorter {start : Text} (hnone : lockstep? ignoreCase text input = none)
    (hstart : start <+: input) (h : lockstep? ignoreCase text start = some alignment) :
    alignment.remaining = [] := by
  rcases lockstep?_agrees h with ⟨consumed, rfl, hall⟩ | ⟨hremaining, -⟩
  · obtain ⟨after, rfl⟩ := hstart
    obtain ⟨longer, hlonger, -⟩ := lockstep?_of_text hall (alignment.remaining ++ after)
    rw [← List.append_assoc, hnone] at hlonger
    cases hlonger
  · exact hremaining

end Lockstep

theorem folded_isPrefix {ignoreCase : Bool} {start input : Text} (h : start <+: input) :
    folded ignoreCase start <+: folded ignoreCase input := by
  cases ignoreCase with
  | false => exact h
  | true => exact h.map foldCase

/-- The beginning of what occurs in a text occurs in it. -/
theorem contiguous?_shorter {search : Search} {ignoreCase : Bool} {text input start : Text} (hstart : start <+: input)
    (h : (contiguous? search ignoreCase text input).isSome) : (contiguous? search ignoreCase text start).isSome := by
  rw [contiguous?, Option.isSome_map, Search.isSome_find?_iff] at h ⊢
  exact (folded_isPrefix hstart).isInfix.trans h

/-- The beginning of what is scattered over a text is scattered over it. -/
theorem scatterFrom_shorter {same : Char → Char → Bool} {text input start : Text} {acc : List Bool}
    (hstart : start <+: input) (h : (scatterFrom same acc text input).isSome) :
    (scatterFrom same acc text start).isSome := by
  rw [scatterFrom_isSome_iff, List.sublistForall₂_iff] at h ⊢
  obtain ⟨found, hall, hsub⟩ := h
  obtain ⟨rest, rfl⟩ := hstart
  have htaken := List.forall₂_take start.length hall
  rw [List.take_left] at htaken
  exact ⟨_, htaken, (List.take_sublist _ _).trans hsub⟩

theorem scattered?_shorter {ignoreCase : Bool} {text input start : Text} (hstart : start <+: input)
    (h : (scattered? ignoreCase text input).isSome) : (scattered? ignoreCase text start).isSome := by
  rw [scattered?, Option.isSome_map] at h ⊢
  exact scatterFrom_shorter hstart h

theorem fuzzyAlign?_isSome {search : Search} {ignoreCase : Bool} {text input : Text}
    (hbuilds : search.builds ignoreCase input = true)
    (h : (contiguous? search ignoreCase text input).isSome ∨ (scattered? ignoreCase text input).isSome) :
    (fuzzyAlign? search ignoreCase text input).isSome := by
  unfold fuzzyAlign?
  rw [if_pos hbuilds]
  split
  · rfl
  · next hnone =>
    rcases h with hpiece | hscattered
    · rw [hnone] at hpiece
      cases hpiece
    · exact hscattered

/-- **A shorter input is aligned too**, and leaves what the longer one left, less what was deleted. -/
theorem alignWith_rdrop {search : Search} {fuzzy ignoreCase : Bool} {text input : Text}
    {alignment : Alignment} (h : alignWith search fuzzy ignoreCase text input = some alignment)
    {count : Nat} (hbuilds : search.builds ignoreCase (input.rdrop count) = true) :
    ∃ shorter, alignWith search fuzzy ignoreCase text (input.rdrop count) = some shorter ∧
      shorter.remaining = alignment.remaining.rdrop count := by
  have hstart : input.rdrop count <+: input := List.take_prefix _ _
  rcases alignWith_cases h with hlockstep | ⟨hnone, hfuzzy, hfound⟩
  · obtain ⟨shorter, hshorter, hremaining⟩ := lockstep?_rdrop hlockstep count
    exact ⟨shorter, by rw [alignWith, hshorter], hremaining⟩
  · have hremaining : alignment.remaining = [] := by
      rcases hfound with hpiece | hscattered
      · obtain ⟨start, -, rfl⟩ := Option.map_eq_some_iff.1 hpiece
        rfl
      · obtain ⟨marks, -, rfl⟩ := Option.map_eq_some_iff.1 hscattered
        rfl
    -- lockstep may do for the shorter input although it failed on the longer one
    rw [hremaining, List.rdrop_nil, alignWith]
    cases hshort : lockstep? ignoreCase text (input.rdrop count) with
    | some shorter => exact ⟨shorter, rfl, lockstep?_remaining_shorter hnone hstart hshort⟩
    | none =>
      have hsome : (fuzzyAlign? search ignoreCase text (input.rdrop count)).isSome := by
        refine fuzzyAlign?_isSome hbuilds ?_
        rcases hfound with hpiece | hscattered
        · exact .inl (contiguous?_shorter hstart (by rw [hpiece]; rfl))
        · exact .inr (scattered?_shorter hstart (by rw [hscattered]; rfl))
      obtain ⟨shorter, hshorter⟩ := Option.isSome_iff_exists.1 hsome
      exact ⟨shorter, by simp only [hfuzzy, if_true, hshorter], fuzzyAlign?_remaining hshorter⟩

/-! ## Reading a shorter input -/

/-- All patterns can be built that may be searched for while some input is read. -/
def PatternsFit (leniency : Leniency) (input : Text) : Prop :=
  ∀ piece, piece <:+ input → leniency.search.builds leniency.ignoreCase piece = true

theorem Literal.read?_rdrop {l : Literal} {leniency : Leniency} {input : Text} {out : Output}
    (h : l.read? leniency input = some out) {count : Nat}
    (hbuilds : leniency.search.builds leniency.ignoreCase (input.rdrop count) = true) :
    ∃ shorter, l.read? leniency (input.rdrop count) = some shorter ∧
      shorter.remaining = out.remaining.rdrop count := by
  obtain ⟨alignment, halign, rfl⟩ := Option.map_eq_some_iff.1 h
  obtain ⟨shorter, hshorter, hremaining⟩ := alignWith_rdrop halign hbuilds
  exact ⟨l.readingOf shorter, by rw [read?, hshorter]; rfl, hremaining⟩

theorem rdrop_suffix_rdrop {left input : Text} (h : left <:+ input) (count : Nat) :
    left.rdrop count <:+ input.rdrop count := by
  obtain ⟨before, rfl⟩ := h
  rw [List.rdrop, List.rdrop, List.length_append]
  by_cases hcount : count ≤ left.length
  · rw [Nat.add_sub_assoc hcount, List.take_length_add_append]
    exact List.suffix_append _ _
  · rw [Nat.sub_eq_zero_of_le (by omega), List.take_zero]
    exact List.nil_suffix

/-- **Literals leave the same of a shorter input**, less what was deleted. -/
theorem leftAfter_rdrop {leniency : Leniency} {literals : List Literal} {input left : Text} {count : Nat}
    (hfits : PatternsFit leniency (input.rdrop count))
    (h : leftAfter leniency literals input = some left) :
    leftAfter leniency literals (input.rdrop count) = some (left.rdrop count) := by
  induction literals generalizing input with
  | nil =>
    cases h
    rfl
  | cons l ls ih =>
    obtain ⟨out, hread, hleft⟩ := Option.bind_eq_some_iff.1 h
    obtain ⟨shorter, hshorter, hremaining⟩ := Literal.read?_rdrop hread (hfits _ (List.suffix_refl _))
    have hsuffix := rdrop_suffix_rdrop (Literal.read?_accounts hread).suffix count
    rw [leftAfter, hshorter, Option.bind_some, hremaining]
    exact ih (fun piece hpiece => hfits piece (hpiece.trans hsuffix)) hleft

/-- Every element that stands inside another of its identity is entered before so many characters of the
input have been read. -/
def Tree.ReentersBefore (tree : Tree) (leniency : Leniency) (input : Text) (count : Nat) : Prop :=
  ∀ entry ∈ tree.reentries, ∀ inner, leftAfter leniency (entry.1 ++ entry.2) input = some inner →
    input.length < count + inner.length

/-- **An interpretation persists** if no element inside another of its identity starts in what was deleted. -/
theorem Session.Interprets.rdrop {session : Session n} {tree : Tree} {input : Text} {out : Output}
    (h : session.Interprets tree input out) {count : Nat} (hcount : count ≤ input.length)
    (hfits : PatternsFit session.settings.leniency (input.rdrop count))
    (hreenters : tree.ReentersBefore session.settings.leniency input (input.length - count)) :
    ∃ shorter, session.Interprets tree (input.rdrop count) shorter := by
  have hleft : leftAfter session.settings.leniency tree.leaves input = some [] := by
    rw [Tree.leftAfter_leaves, h.reads, Option.map_some, h.complete]
  have hshort := leftAfter_rdrop hfits hleft
  rw [Tree.leftAfter_leaves, List.rdrop_nil] at hshort
  obtain ⟨shorter, hread, hremaining⟩ := Option.map_eq_some_iff.1 hshort
  refine ⟨shorter, h.sentence, hread, ⟨fun _ _ _ _ => rfl, fun entry hentry outer' inner' houter' hinner' => ?_⟩,
    hremaining⟩
  obtain ⟨after, outer, inner, -, houter, hinner, -⟩ := Tree.leftAfter_of_mem_reentries hleft hentry
  have hboth : leftAfter session.settings.leniency (entry.1 ++ entry.2) input = some inner := by
    rw [leftAfter_append, houter]
    exact hinner
  have hbefore := hreenters entry hentry inner hboth
  have hlength := (h.passes.consuming entry hentry outer inner houter hinner).2
  -- what is left of the shorter input at either place
  have houter'' : outer' = outer.rdrop count :=
    Option.some.inj (houter'.symm.trans (leftAfter_rdrop hfits houter))
  have hinner'' : inner' = inner.rdrop count := by
    have hboth' := leftAfter_rdrop hfits hboth
    rw [leftAfter_append, houter'] at hboth'
    exact Option.some.inj (hinner'.symm.trans hboth')
  subst houter'' hinner''
  have hle : inner.length ≤ outer.length := (leftAfter_suffix hinner).length_le
  have hinnerLength : (inner.rdrop count).length = inner.length - count := by
    rw [List.rdrop, List.length_take]
    omega
  have houterLength : (outer.rdrop count).length = outer.length - count := by
    rw [List.rdrop, List.length_take]
    omega
  refine ⟨List.ne_nil_of_length_pos ?_, ?_⟩ <;> omega

/-! ## Deleting in a session -/

/-- The text that is left when all but the beginning is deleted. -/
theorem rdrop_length_sub {start input : Text} (h : start <+: input) :
    input.rdrop (input.length - start.length) = start := by
  obtain ⟨rest, rfl⟩ := h
  rw [List.rdrop, List.length_append, Nat.add_sub_cancel_left, Nat.add_sub_cancel, List.take_left]

/-- An interpretation persists on the beginning of the input, with its text and its value. -/
theorem Session.Interprets.shorten {session : Session n} {tree : Tree} {start input : Text} {out : Output}
    (h : session.Interprets tree input out) (hstart : start <+: input)
    (hfits : PatternsFit session.settings.leniency start)
    (hreenters : tree.ReentersBefore session.settings.leniency input start.length) :
    ∃ kept, session.Interprets tree start kept ∧ kept.text = out.text ∧ kept.result = out.result := by
  have hlength := hstart.length_le
  have hshort := h.rdrop (Nat.sub_le input.length start.length)
  rw [rdrop_length_sub hstart, Nat.sub_sub_self hlength] at hshort
  obtain ⟨kept, hkept⟩ := hshort hfits hreenters
  obtain ⟨htext, hresult⟩ := tree.read?_shows h.reads
  obtain ⟨htext', hresult'⟩ := tree.read?_shows hkept.reads
  exact ⟨kept, hkept, htext'.trans htext.symm, hresult'.trans hresult.symm⟩

/-- **Interpretations persist while characters are deleted.** Take a session without limit in which no phrase
function gives up, an input and the beginning of it, for which all patterns fit. Both have findings. Every
output for the input has its interpretations; and if in one of them no element stands inside another of its
identity, then the session, as the first pass has left it, finds an output for the beginning that has the same
text and the same value. -/
theorem interpretations_persist (session : Session n) (hlimit : session.settings.limit = none)
    (hquiet : session.phrases.Quiet) {start input : Text} (hstart : start <+: input)
    (hfits : PatternsFit session.settings.leniency start) :
    ∃ longer shorter, (session.parse input).1 = .ok longer ∧
      ((session.parse input).2.parse start).1 = .ok shorter ∧
      (∀ out ∈ longer.outputs, ∃ tree, session.Interprets tree input out) ∧
      ∀ out ∈ longer.outputs, ∀ tree, session.Interprets tree input out → tree.reentries = [] →
        ∃ kept ∈ shorter.outputs, kept.text = out.text ∧ kept.result = out.result := by
  obtain ⟨longer, hlonger⟩ := session.exists_findings hlimit hquiet input
  have hlimit' : (session.parse input).2.settings.limit = none := hlimit
  obtain ⟨shorter, hshorter⟩ := Session.exists_findings hlimit' hquiet start
  refine ⟨longer, shorter, hlonger, hshorter, fun out => (Session.mem_outputs_iff hlimit hlonger).1, ?_⟩
  intro out _ tree htree hnever
  have hreenters : tree.ReentersBefore session.settings.leniency input start.length := by
    intro entry hentry
    rw [hnever] at hentry
    cases hentry
  obtain ⟨kept, hkept, htext, hresult⟩ := htree.shorten hstart hfits hreenters
  exact ⟨kept, (Session.mem_outputs_iff hlimit' hshorter).2 ⟨tree, hkept.after_parse input⟩, htext, hresult⟩

theorem patternsFit_of_tails {leniency : Leniency} {input : Text}
    (h : ∀ piece ∈ input.tails, leniency.search.builds leniency.ignoreCase piece = true) :
    PatternsFit leniency input :=
  fun piece hpiece => h piece ((List.mem_tails _ _).2 hpiece)

/-- A session that reads "paint" and a colour, fuzzily. -/
def paintSession : Session 1 where
  phrases := paintContext.phrases
  settings := { leniency := { fuzzy := true } }
  sentences := [paintRoot]

def roseTree : Tree :=
  .sequence none [.ofText "paint ", .element (some "colour") "Colour" .null (.choice none (.ofText "rose"))]

theorem hasTree_roseTree : HasTree paintSession.pass.context paintRoot.node roseTree := by
  refine .sequence (.cons .literal (.cons ?_ .nil))
  exact .described rfl rfl (.choice (.tail _ (.head _)) .literal) rfl rfl

/-- The end of "rose" is found in it, and so is the first letter of that end. -/
theorem paintSession_persists :
    ∃ longer shorter, (paintSession.parse "paint se".toList).1 = .ok longer ∧
      ((paintSession.parse "paint se".toList).2.parse "paint s".toList).1 = .ok shorter ∧
      ∃ kept ∈ shorter.outputs, kept.text = "paint rose".toList ∧
        kept.result = .obj [("colour", .null)] := by
  have hquiet : paintSession.phrases.Quiet := by
    rintro phrase f (h | ⟨h, -⟩ | h) <;> cases h
  have hstart : "paint s".toList <+: "paint se".toList := by decide
  have hfits : PatternsFit paintSession.settings.leniency "paint s".toList := patternsFit_of_tails (by decide +kernel)
  have hleft : (roseTree.read? paintSession.settings.leniency "paint se".toList).map (·.remaining) =
      some [] := by decide +kernel
  obtain ⟨out, hreads, hcomplete⟩ := Option.map_eq_some_iff.1 hleft
  have hrose : paintSession.Interprets roseTree "paint se".toList out :=
    ⟨⟨paintRoot, List.mem_singleton_self _, hasTree_roseTree⟩, hreads, ⟨fun _ _ _ _ => rfl, nofun⟩, hcomplete⟩
  obtain ⟨longer, shorter, hlonger, hshorter, -, hpersist⟩ :=
    interpretations_persist paintSession rfl hquiet hstart hfits
  have hout : out ∈ longer.outputs := (Session.mem_outputs_iff rfl hlonger).2 ⟨roseTree, hrose⟩
  obtain ⟨kept, hkept, htext, hresult⟩ := hpersist out hout roseTree hrose rfl
  obtain ⟨hshown, hvalue⟩ := roseTree.read?_shows hreads
  exact ⟨longer, shorter, hlonger, hshorter, kept, hkept, htext.trans hshown, hresult.trans hvalue⟩

/-! ## Dead ends -/

/-- **Beginnings of what can be read can be read**, on the way to an interpretation that stands inside itself
no later than that. Take a session without limit in which no phrase function gives up, an input and the
beginning of it, for which all patterns fit. Both have findings; and if some output for the input has an
interpretation in which every element inside another of its identity is entered before the beginning ends,
then there is an output for the beginning. -/
theorem beginning_is_read (session : Session n) (hlimit : session.settings.limit = none)
    (hquiet : session.phrases.Quiet) {start input : Text} (hstart : start <+: input)
    (hfits : PatternsFit session.settings.leniency start) :
    ∃ longer shorter, (session.parse input).1 = .ok longer ∧ (session.parse start).1 = .ok shorter ∧
      (∀ out ∈ longer.outputs, ∃ tree, session.Interprets tree input out) ∧
      ((∃ out ∈ longer.outputs, ∃ tree, session.Interprets tree input out ∧
          tree.ReentersBefore session.settings.leniency input start.length) →
        shorter.outputs ≠ []) := by
  obtain ⟨longer, hlonger⟩ := session.exists_findings hlimit hquiet input
  obtain ⟨shorter, hshorter⟩ := session.exists_findings hlimit hquiet start
  refine ⟨longer, shorter, hlonger, hshorter, fun out => (Session.mem_outputs_iff hlimit hlonger).1, ?_⟩
  rintro ⟨out, -, tree, htree, hreenters⟩
  obtain ⟨kept, hkept, -, -⟩ := htree.shorten hstart hfits hreenters
  exact List.ne_nil_of_mem ((Session.mem_outputs_iff hlimit hshorter).2 ⟨tree, hkept⟩)

def termNode : Node 1 := .element none ⟨⟨0, Nat.one_pos⟩, []⟩

/-- Any number of brackets around "x". -/
def termPhrase : Phrase 1 where
  identity := "Term"
  describe _ := .ok (.choice none [.sequence none [.text "(", termNode, .text ")"], .text "x"])

def termSession : Session 1 where
  phrases _ := termPhrase
  sentences := [⟨⟨0, []⟩, termNode⟩]

theorem termSession_quiet : termSession.phrases.Quiet := by
  rintro phrase f (h | ⟨h, -⟩ | h) <;> cases h

def Tree.ofTerm (description : Tree) : Tree := .element none "Term" description.result description

/-- The tree of "x" in so many brackets. -/
def termTree : Nat → Tree
  | 0 => .ofTerm (.choice none (.ofText "x"))
  | count + 1 =>
    .ofTerm (.choice none (.sequence none [.ofText "(", termTree count, .ofText ")"]))

theorem hasTree_termTree (count : Nat) :
    HasTree termSession.pass.context termNode (termTree count) := by
  induction count with
  | zero => exact .described rfl rfl (.choice (.tail _ (.head _)) .literal) rfl rfl
  | succ count ih =>
    refine .described rfl rfl (.choice (.head _) (.sequence ?_)) rfl rfl
    exact .cons .literal (.cons ih (.cons .literal .nil))

/-- Once "x" is typed too, an opening bracket is read. -/
theorem bracketed_term_is_read :
    ∃ longer shorter, (termSession.parse "(x)".toList).1 = .ok longer ∧
      (termSession.parse "(x".toList).1 = .ok shorter ∧ shorter.outputs ≠ [] := by
  have hfits : PatternsFit termSession.settings.leniency "(x".toList := patternsFit_of_tails (by decide +kernel)
  have hstart : "(x".toList <+: "(x)".toList := by decide
  obtain ⟨longer, shorter, hlonger, hshorter, -, hread⟩ :=
    beginning_is_read termSession rfl termSession_quiet hstart hfits
  have hleft : ((termTree 1).read? termSession.settings.leniency "(x)".toList).map (·.remaining) =
      some [] := by decide +kernel
  obtain ⟨out, hreads, hcomplete⟩ := Option.map_eq_some_iff.1 hleft
  have hterm : termSession.Interprets (termTree 1) "(x)".toList out := by
    refine ⟨⟨_, List.mem_singleton_self _, hasTree_termTree 1⟩, hreads, ⟨fun _ _ _ _ => rfl, ?_⟩, hcomplete⟩
    intro entry hentry outer inner houter hinner
    cases List.mem_singleton.1 hentry
    cases houter
    cases hinner
    decide
  have hreenters : (termTree 1).ReentersBefore termSession.settings.leniency "(x)".toList 2 := by
    intro entry hentry inner hinner
    cases List.mem_singleton.1 hentry
    cases hinner
    decide
  exact ⟨longer, shorter, hlonger, hshorter,
    hread ⟨out, (Session.mem_outputs_iff rfl hlonger).2 ⟨_, hterm⟩, _, hterm, hreenters⟩⟩

/-- The bracket alone is not: after it comes a term, and at the end of the input the guard lets no term into
another. -/
theorem lone_bracket_is_dead_end :
    termSession.settings.limit = none ∧ termSession.phrases.Quiet ∧
    "(".toList <+: "(x)".toList ∧
    PatternsFit termSession.settings.leniency "(x)".toList ∧
    PatternsFit termSession.settings.leniency "(".toList ∧
    (∃ findings, (termSession.parse "(x)".toList).1 = .ok findings ∧ findings.outputs ≠ []) ∧
    ∃ findings, (termSession.parse "(".toList).1 = .ok findings ∧ findings.outputs = [] := by
  refine ⟨rfl, termSession_quiet, by decide, patternsFit_of_tails (by decide +kernel),
    patternsFit_of_tails (by decide +kernel), ⟨_, rfl, ?_⟩, _, rfl, rfl⟩
  exact List.cons_ne_nil _ _

end Typeahead
