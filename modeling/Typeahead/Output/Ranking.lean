import Typeahead.Output

/-!
# Ranking

Readings in descending order of score, by the total order of all binary64 words. The sort is stable:
readings with the same score keep their order.

| here | there |
| --- | --- |
| `rank` | `rank` |
-/

namespace Typeahead

def Output.ranksBefore (a b : Output) : Bool := decide (b.score.rank ≤ a.score.rank)

/-- Order readings by descending score. -/
def rank (outputs : List Output) : List Output := outputs.mergeSort Output.ranksBefore

theorem rank_perm (outputs : List Output) : (rank outputs).Perm outputs :=
  List.mergeSort_perm outputs _

end Typeahead
