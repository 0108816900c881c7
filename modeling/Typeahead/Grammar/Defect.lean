import Typeahead.Decimal
import Typeahead.Grammar
import Typeahead.Text.Quoted

/-!
# Defects of a grammar

What can be wrong with a tree or an extension before it is used. Only the tree itself is looked at, from
the top down and from left to right; descriptions are not, since they may unfold without end.

| here | there |
| --- | --- |
| `Defect` | `GrammarError` |
| `Node.check` | `validate` |
| `Phrase.checkExtension` | `validate_extension` |
-/

namespace Typeahead

inductive Defect where
  | scoreOutOfRange (text : Text) (score : Binary64)
  | emptyIdentity
  | selfExtension (identity : String)
  deriving DecidableEq

/-- Scores are written out in full, without an exponent and without a bare zero after the point. -/
def scoreLayout : Layout := ⟨none, none, false, false, .up⟩

def Defect.message : Defect → String
  | .scoreOutOfRange text score =>
    "literal " ++ quoted text ++ " has score " ++ scoreLayout.render score ++
      ", expected a value in (0, 1]"
  | .emptyIdentity => "phrase identity must not be empty"
  | .selfExtension identity =>
    "extension " ++ quoted identity.toList ++ " cannot supplement or override itself"

/-- A literal's own score must lie above zero and be at most one. -/
def Literal.check (literal : Literal) : Except Defect Unit :=
  match literal.score with
  | some score => if score.inUnit then .ok () else .error (.scoreOutOfRange literal.text score)
  | none => .ok ()

mutual

/-- The first defect of a tree. -/
def Node.check {n : Nat} (book : Phrasebook n) : Node n → Except Defect Unit
  | .literal _ l => l.check
  | .sequence _ children => Node.checkAll book children
  | .choice _ children => Node.checkAll book children
  | .element _ e => if (book e.phrase).identity.isEmpty then .error .emptyIdentity else .ok ()
  | .nothing _ => .ok ()

/-- The first defect of a list of trees. -/
def Node.checkAll {n : Nat} (book : Phrasebook n) : List (Node n) → Except Defect Unit
  | [] => .ok ()
  | node :: rest =>
    match Node.check book node with
    | .error defect => .error defect
    | .ok () => Node.checkAll book rest

end

/-- An extension needs an identity, and must leave that alone. -/
def Phrase.checkExtension {n : Nat} (phrase : Phrase n) : Except Defect Unit :=
  if phrase.identity.isEmpty then .error .emptyIdentity
  else if phrase.supplements.contains phrase.identity || phrase.overrides.contains phrase.identity then
    .error (.selfExtension phrase.identity)
  else .ok ()

end Typeahead
