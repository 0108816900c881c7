import Typeahead.Proofs.Interpretation
import Typeahead.Proofs.Words

/-!
# Accepting a completion

Take any output and type its whole text. The sentence behind the output is read again, now with every literal
typed in full. Only the guard could be in the way, and it is not: literals that used up some of the input have
some text, so elements that were far enough apart in the input are so in the text
(`Session.Interprets.spaced`). Main statement: `accepted_completion_is_read`.
-/

namespace Typeahead

variable {n : Nat}

def wording (literals : List Literal) : Text := literals.flatMap (·.text)

theorem wording_append (first second : List Literal) :
    wording (first ++ second) = wording first ++ wording second := List.flatMap_append

/-! ## Literals without text -/

/-- Literals without text use up nothing. -/
theorem leftAfter_of_wording_nil {leniency : Leniency} {literals : List Literal} {input left : Text}
    (hwording : wording literals = []) (h : leftAfter leniency literals input = some left) :
    left = input := by
  induction literals generalizing input with
  | nil =>
    cases h
    rfl
  | cons l ls ih =>
    have hboth : l.text ++ wording ls = [] := hwording
    obtain ⟨htext, hrest⟩ := List.append_eq_nil_iff.1 hboth
    obtain ⟨out, hread, hleft⟩ := Option.bind_eq_some_iff.1 h
    obtain ⟨empty, hempty, hspells⟩ := l.read?_append leniency input
    rw [htext, List.nil_append, hread] at hempty
    cases hempty
    rw [ih hrest hleft, hspells.remaining]

/-- So literals that use up something have some text. -/
theorem wording_length_pos {leniency : Leniency} {literals : List Literal} {input left : Text}
    (h : leftAfter leniency literals input = some left) (hne : left ≠ input) :
    0 < (wording literals).length := by
  apply List.length_pos_of_ne_nil
  intro hnil
  exact hne (leftAfter_of_wording_nil hnil h)

/-! ## Places in the text -/

namespace Tree

mutual

theorem text_eq_wording : ∀ tree : Tree, tree.text = wording tree.leaves
  | .leaf label literal => by simp [text, leaves, wording]
  | .sequence label children => textAll_eq_wording children
  | .choice label child => text_eq_wording child
  | .element label identity value expansion => text_eq_wording expansion

theorem textAll_eq_wording : ∀ trees : List Tree, textAll trees = wording (leavesAll trees)
  | [] => rfl
  | tree :: trees => by
    rw [textAll, leavesAll, wording_append, text_eq_wording tree, textAll_eq_wording trees]

end

mutual

/-- Elements are far enough apart if they are so from those around the sentence, and where they stand inside
one another. -/
theorem spaced_of_mentions {apart : Nat → Nat → Prop} : ∀ (tree : Tree) {opened : List (String × Nat)}
    {offset : Nat},
    (∀ mention ∈ tree.mentions, ∀ start, (mention.1, start) ∈ opened →
      apart start (offset + (wording mention.2).length)) →
    (∀ entry ∈ tree.reentries, apart (offset + (wording entry.1).length)
      (offset + (wording entry.1).length + (wording entry.2).length)) →
    tree.Spaced apart opened offset
  | .leaf label literal, opened, offset, _, _ => trivial
  | .sequence label children, opened, offset, hopened, hinside =>
    spacedAll_of_mentions children hopened hinside
  | .choice label child, opened, offset, hopened, hinside => spaced_of_mentions child hopened hinside
  | .element label identity value expansion, opened, offset, hopened, hinside => by
    rw [mentions, List.forall_mem_cons] at hopened
    rw [reentries, List.forall_mem_append, List.forall_mem_map] at hinside
    refine ⟨hopened.1, spaced_of_mentions expansion (fun mention hmention start hstart => ?_) hinside.2⟩
    rcases List.mem_cons.1 hstart with heq | hstart
    · obtain ⟨hid, rfl⟩ := Prod.mk.inj heq
      exact hinside.1 mention (List.mem_filter.2 ⟨hmention, by simpa using hid⟩)
    · exact hopened.2 mention hmention start hstart

theorem spacedAll_of_mentions {apart : Nat → Nat → Prop} : ∀ (trees : List Tree)
    {opened : List (String × Nat)} {offset : Nat},
    (∀ mention ∈ mentionsAll trees, ∀ start, (mention.1, start) ∈ opened →
      apart start (offset + (wording mention.2).length)) →
    (∀ entry ∈ reentriesAll trees, apart (offset + (wording entry.1).length)
      (offset + (wording entry.1).length + (wording entry.2).length)) →
    SpacedAll apart trees opened offset
  | [], opened, offset, _, _ => trivial
  | tree :: trees, opened, offset, hopened, hinside => by
    rw [mentionsAll, List.forall_mem_append, List.forall_mem_map] at hopened
    rw [reentriesAll, List.forall_mem_append, List.forall_mem_map] at hinside
    have hlater (literals : List Literal) : offset + (wording (tree.leaves ++ literals)).length =
        offset + tree.text.length + (wording literals).length := by
      rw [wording_append, text_eq_wording, List.length_append, Nat.add_assoc]
    simp only [hlater] at hopened hinside
    exact ⟨spaced_of_mentions tree hopened.1 hinside.1, spacedAll_of_mentions trees hopened.2 hinside.2⟩

end

end Tree

/-- **Far enough apart in the input, far enough apart in the text.** -/
theorem Session.Interprets.spaced {session : Session n} {tree : Tree} {input : Text} {out : Output}
    (h : session.Interprets tree input out) : tree.Spaced (Apart tree.text.length) [] 0 := by
  have hleft : leftAfter session.settings.leniency tree.leaves input = some [] := by
    rw [Tree.leftAfter_leaves, h.reads, Option.map_some, h.complete]
  refine tree.spaced_of_mentions nofun fun entry hentry => ?_
  obtain ⟨after, outer, inner, hleaves, houter, hinner, hafter⟩ :=
    Tree.leftAfter_of_mem_reentries hleft hentry
  obtain ⟨hsome, hlength⟩ := h.passes.consuming entry hentry outer inner houter hinner
  -- the guard has seen that some input went between the two, and that some was still to come
  have hbetween : 0 < (wording entry.2).length :=
    wording_length_pos hinner fun heq => hlength (congrArg List.length heq)
  have hcoming : 0 < (wording after).length := wording_length_pos hafter (Ne.symm hsome)
  rw [Tree.text_eq_wording, hleaves, wording_append, wording_append]
  simp only [Apart, List.length_append]
  omega

/-! ## A reading that was typed in full -/

theorem Output.words_of_typed {out : Output} (h : ∀ segment ∈ out.segments, segment.typed = true) :
    out.matched = out.text ∧ out.suggestion = [] ∧ out.completion = [] := by
  have hwords : ∀ word ∈ wordsOf out.segments, whollyTyped word = true := by
    intro word hword
    refine List.all_eq_true.2 fun segment hsegment => ?_
    exact h segment (flatten_wordsOf out.segments ▸ List.mem_flatten.2 ⟨word, hword, hsegment⟩)
  have hdrop : (wordsOf out.segments).dropWhile whollyTyped = [] := List.dropWhile_eq_nil_iff.2 hwords
  have htapering : Tapering (wordsOf out.segments) := by simp [Tapering, hdrop]
  rw [suggestion_of_tapering htapering, completion_of_tapering htapering, hdrop, matched_eq_takeWhile,
    List.takeWhile_eq_self_iff.2 hwords, textOf, flatten_wordsOf]
  exact ⟨rfl, rfl, rfl⟩

/-! ## Accepting an output -/

/-- **Accepting a completion is always valid.** Unless a phrase function gives up, a session without limit has
findings for every input; and for each output found, the session as the pass has left it has findings for the
text of the output. Among these is an output with the same text and the same value that was typed in full: all
of its words are matched, and nothing is suggested any more. -/
theorem accepted_completion_is_read (session : Session n) (hlimit : session.settings.limit = none)
    (hquiet : session.phrases.Quiet) (input : Text) :
    ∃ findings, (session.parse input).1 = .ok findings ∧ ∀ out ∈ findings.outputs,
      ∃ accepted, ((session.parse input).2.parse out.text).1 = .ok accepted ∧
        ∃ typed ∈ accepted.outputs, typed.text = out.text ∧ typed.result = out.result ∧
          (∀ segment ∈ typed.segments, segment.typed = true) ∧
          typed.matched = out.text ∧ typed.suggestion = [] ∧ typed.completion = [] := by
  obtain ⟨findings, hfindings⟩ := session.exists_findings hlimit hquiet input
  refine ⟨findings, hfindings, fun out hout => ?_⟩
  obtain ⟨tree, htree⟩ := (Session.mem_outputs_iff hlimit hfindings).1 hout
  obtain ⟨htext, hresult⟩ := tree.read?_shows htree.reads
  obtain ⟨sentence, hsentence, hhas⟩ := htree.sentence
  obtain ⟨d, hd, hspells⟩ := hhas.derives_text htree.spaced
  have hlimit' : (session.parse input).2.settings.limit = none := hlimit
  obtain ⟨accepted, haccepted⟩ := Session.exists_findings hlimit' hquiet tree.text
  have hmem : d.eval tree.text ∈ accepted.outputs :=
    (Session.mem_outputs_iff_derives hlimit' haccepted).2 ⟨sentence, hsentence, d, hd, rfl, hspells.remaining⟩
  obtain ⟨hmatched, hsuggestion, hcompletion⟩ := Output.words_of_typed hspells.typed
  rw [htext, hresult]
  exact ⟨accepted, haccepted, d.eval tree.text, hmem, hspells.text, hspells.result, hspells.typed,
    hmatched.trans hspells.text, hsuggestion, hcompletion⟩

/-- "na", and then either "nopeman" or the same again. -/
def chantPhrase : Phrase 1 where
  identity := "Chant"
  describe _ := .ok (.sequence none
    [.text "na", .choice none [.text "nopeman", .element none ⟨⟨0, Nat.one_pos⟩, []⟩]])

def chantSession : Session 1 where
  phrases _ := chantPhrase
  settings := { leniency := { fuzzy := true } }
  sentences := [⟨⟨0, []⟩, .element none ⟨⟨0, Nat.one_pos⟩, []⟩⟩]

/-- The end of "nopeman" is found after two rounds; with the whole of it typed, the chant is read again. -/
theorem chant_is_accepted :
    ∃ findings, (chantSession.parse "nanaman".toList).1 = .ok findings ∧
      findings.outputs.map (·.text) = ["nananopeman".toList] ∧ ∀ out ∈ findings.outputs,
        ∃ accepted, ((chantSession.parse "nanaman".toList).2.parse out.text).1 = .ok accepted ∧
          ∃ typed ∈ accepted.outputs, typed.text = out.text ∧ typed.result = out.result ∧
            (∀ segment ∈ typed.segments, segment.typed = true) ∧
            typed.matched = out.text ∧ typed.suggestion = [] ∧ typed.completion = [] := by
  have hquiet : chantSession.phrases.Quiet := by
    rintro phrase f (h | ⟨h, -⟩ | h) <;> cases h
  obtain ⟨findings, hfindings, haccepted⟩ :=
    accepted_completion_is_read chantSession rfl hquiet "nanaman".toList
  refine ⟨findings, hfindings, ?_, haccepted⟩
  rw [(Session.parse_eq_ok hfindings).2]
  decide +kernel

end Typeahead
