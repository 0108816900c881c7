import Typeahead.Output.Ranking
import Typeahead.Proofs.Numbers

/-!
# Ranked readings

A ranking of readings is a permutation of them in which no reading stands above a better one, and readings with
the same score stand as they stood (`IsRanking`). A list of readings has one ranking: below the first reading of
a score there is no room for a choice, because two different scores are never level (`Binary64.rank_injective`).
What `rank` gives is that ranking, so that ranking again, or ranking parts first, changes nothing.

Main statement: `readings_are_ranked`.
-/

namespace Typeahead

variable {outputs ranked : List Output}

/-- No reading stands above one with a better score. -/
def Descending (outputs : List Output) : Prop := outputs.Pairwise fun a b => b.score.NotAbove a.score

/-- The readings with a score, as they stand. -/
def withScore (score : Binary64) (outputs : List Output) : List Output := outputs.filter (·.score = score)

structure IsRanking (outputs ranked : List Output) : Prop where
  perm : ranked.Perm outputs
  descending : Descending ranked
  stable : ∀ score, withScore score ranked = withScore score outputs

theorem mem_withScore {score : Binary64} {out : Output} :
    out ∈ withScore score outputs ↔ out ∈ outputs ∧ out.score = score := by
  rw [withScore, List.mem_filter, decide_eq_true_eq]

@[simp]
theorem withScore_append (score : Binary64) (a b : List Output) :
    withScore score (a ++ b) = withScore score a ++ withScore score b := List.filter_append ..

theorem withScore_cons_self (out : Output) (outputs : List Output) :
    withScore out.score (out :: outputs) = out :: withScore out.score outputs :=
  List.filter_cons_of_pos (decide_eq_true rfl)

theorem withScore_cons_ne {score : Binary64} {out : Output} (h : out.score ≠ score) :
    withScore score (out :: outputs) = withScore score outputs :=
  List.filter_cons_of_neg (by simpa using h)

/-! ## There is one ranking -/

/-- The first reading has a score that no reading in the list is better than. -/
theorem Descending.notAbove_head {first out : Output} (h : Descending (first :: outputs))
    (hmem : out ∈ first :: outputs) : out.score.rank ≤ first.score.rank := by
  rcases List.mem_cons.1 hmem with rfl | hmem
  · exact le_rfl
  · exact Binary64.notAbove_iff.1 (List.rel_of_pairwise_cons h hmem)

/-- A list in descending order is told by the readings of each score. -/
theorem Descending.ext {a b : List Output} (ha : Descending a) (hb : Descending b)
    (hsame : ∀ score, withScore score a = withScore score b) : a = b := by
  induction a generalizing b with
  | nil =>
    cases b with
    | nil => rfl
    | cons y b =>
      have hnone := hsame y.score
      rw [withScore_cons_self] at hnone
      cases hnone
  | cons x a ih =>
    have hx := hsame x.score
    rw [withScore_cons_self] at hx
    have hxmem : x ∈ b := (mem_withScore.1 (hx ▸ List.mem_cons_self)).1
    cases b with
    | nil => cases hxmem
    | cons y b =>
      have hy := hsame y.score
      rw [withScore_cons_self y] at hy
      have hymem : y ∈ x :: a := (mem_withScore.1 (hy ▸ List.mem_cons_self)).1
      -- each head is a member of the other list, so neither head is better than the other
      have hscore : x.score = y.score :=
        Binary64.rank_injective (le_antisymm (hb.notAbove_head hxmem) (ha.notAbove_head hymem))
      rw [hscore, withScore_cons_self y] at hx
      obtain ⟨rfl, htail⟩ := List.cons.inj hx
      refine congrArg (x :: ·) (ih ha.of_cons hb.of_cons fun score => ?_)
      by_cases h : x.score = score
      · exact h ▸ htail
      · have hrest := hsame score
        rwa [withScore_cons_ne h, withScore_cons_ne h] at hrest

/-! ## What is ranked -/

theorem ranksBefore_trans (a b c : Output) (hab : a.ranksBefore b = true) (hbc : b.ranksBefore c = true) :
    a.ranksBefore c = true :=
  decide_eq_true ((of_decide_eq_true hbc).trans (of_decide_eq_true hab))

theorem ranksBefore_total (a b : Output) : (a.ranksBefore b || b.ranksBefore a) = true := by
  rw [Bool.or_eq_true]
  exact (le_total b.score.rank a.score.rank).imp decide_eq_true decide_eq_true

theorem descending_rank (outputs : List Output) : Descending (rank outputs) :=
  (List.pairwise_mergeSort ranksBefore_trans ranksBefore_total outputs).imp fun h =>
    Binary64.notAbove_iff.2 (of_decide_eq_true h)

/-- Readings with the same score keep their order. -/
theorem withScore_rank (score : Binary64) (outputs : List Output) :
    withScore score (rank outputs) = withScore score outputs := by
  -- none of them stands before another for its score, so they are in order as they stand
  have hlevel : (withScore score outputs).Pairwise fun a b => a.ranksBefore b = true := by
    refine List.pairwise_of_forall_mem_list fun a ha b hb => decide_eq_true (le_of_eq ?_)
    rw [(mem_withScore.1 ha).2, (mem_withScore.1 hb).2]
  have hkept : (withScore score outputs).Sublist (rank outputs) :=
    List.sublist_mergeSort ranksBefore_trans ranksBefore_total hlevel List.filter_sublist
  have hfound : (withScore score outputs).Sublist (withScore score (rank outputs)) := by
    simpa [withScore, List.filter_filter] using hkept.filter (·.score = score)
  have hcount : (withScore score (rank outputs)).length = (withScore score outputs).length :=
    ((rank_perm outputs).filter _).length_eq
  exact (hfound.eq_of_length hcount.symm).symm

theorem isRanking_rank (outputs : List Output) : IsRanking outputs (rank outputs) where
  perm := rank_perm outputs
  descending := descending_rank outputs
  stable score := withScore_rank score outputs

theorem IsRanking.eq_rank (h : IsRanking outputs ranked) : ranked = rank outputs :=
  h.descending.ext (descending_rank outputs) fun score => (h.stable score).trans (withScore_rank score outputs).symm

theorem rank_congr {a b : List Output} (h : ∀ score, withScore score a = withScore score b) : rank a = rank b :=
  (descending_rank a).ext (descending_rank b) fun score => by rw [withScore_rank, withScore_rank, h]

/-- **Readings are ranked.** What `rank` gives is the one permutation of the readings in which scores never rise
in the total order of words and readings with the same score keep their order. To rank what is ranked changes
nothing, and two lists may be ranked before they are put together. -/
theorem readings_are_ranked :
    (∀ outputs ranked : List Output, IsRanking outputs ranked ↔ ranked = rank outputs) ∧
      (∀ outputs, rank (rank outputs) = rank outputs) ∧
      ∀ a b, rank (a ++ b) = rank (rank a ++ rank b) := by
  refine ⟨?_, ?_, ?_⟩
  · intro outputs ranked
    constructor
    · exact IsRanking.eq_rank
    · rintro rfl
      exact isRanking_rank outputs
  · intro outputs
    apply rank_congr
    intro score
    exact withScore_rank score outputs
  · intro a b
    apply rank_congr
    intro score
    simp only [withScore_append, withScore_rank]

-- what stands for no number has a place by its sign, and the zeros are not level
example : (rank ([⟨0x7ff8000000000000⟩, ⟨0x8000000000000000⟩, ⟨0⟩, ⟨0xfff8000000000000⟩, .one].map
    (⟨.obj [], [], [], ·⟩))).map (·.score) =
      [⟨0x7ff8000000000000⟩, .one, ⟨0⟩, ⟨0x8000000000000000⟩, ⟨0xfff8000000000000⟩] := by cbv

end Typeahead
