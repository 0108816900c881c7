import Typeahead.Output
import Typeahead.Search

/-!
# Aligning input with a text

An alignment says which characters of a text were typed, what of the input is left over, and how good the
fit is. Text and input are first walked in lockstep. If they disagree, a lenient match looks for all of
the input inside the text: in one piece, the leftmost one, or else scattered, every character at the first
place after the one before.

| here | there |
| --- | --- |
| `Leniency` | `MatchFlags` |
| `stripShared`, `lockstep?` | `shared_prefix`, and the first two branches of `match_literal` |
| `contiguous?` | the search in `fuzzy_align` |
| `scatterFrom`, `scattered?` | `scattered_align` |
| `fuzzyAlign?` | `fuzzy_align`, with the pattern that `PatternCache::get` gives for the input |
| `alignWith` | `match_literal`, up to the reading |
| `segmentsOf` | `SegmentRun::push`, over and over, and `SegmentRun::finish` |
-/

namespace Typeahead

/-- How forgiving a comparison is, and by which search input is looked for in one piece. -/
structure Leniency where
  ignoreCase : Bool := false
  /-- Treat every literal as fuzzy. -/
  fuzzy : Bool := false
  [search : Search]

structure Alignment where
  /-- For each character of the text, whether it was typed. -/
  marks : List Bool
  remaining : Text
  score : Binary64

/-! ## Lockstep -/

/-- What is left of text and input after the longest beginning on which they agree. -/
def stripShared (same : Char → Char → Bool) : Text → Text → Text × Text
  | c :: text, d :: input => if same c d then stripShared same text input else (c :: text, d :: input)
  | text, input => (text, input)

/-- The lockstep alignment: it exists when text or input is used up. -/
def lockstep? (ignoreCase : Bool) (text input : Text) : Option Alignment :=
  match stripShared (sameLetter ignoreCase) text input with
  | ([], rest) => some ⟨List.replicate text.length true, rest, .one⟩
  | (untyped, []) =>
    let typed := text.length - untyped.length
    some ⟨List.replicate typed true ++ List.replicate untyped.length false, [], .one⟩
  | _ => none

/-! ## In one piece -/

/-- The alignment in one piece: best at the very start of the text. -/
def contiguous? (search : Search) (ignoreCase : Bool) (text input : Text) : Option Alignment :=
  (search.find? ignoreCase text input).map fun start =>
    { marks := List.replicate start false ++ List.replicate input.length true ++
        List.replicate (text.length - start - input.length) false
      remaining := []
      score := if start = 0 then .one else .half }

/-! ## Scattered -/

/-- Walk over the text and give each character of the input the first place that fits. The marks so far
are in `acc`, last one first. -/
def scatterFrom (same : Char → Char → Bool) (acc : List Bool) : Text → Text → Option (List Bool)
  | text, [] => some (acc.reverse ++ List.replicate text.length false)
  | [], _ :: _ => none
  | c :: text, wanted :: input =>
    if same c wanted then scatterFrom same (true :: acc) text input
    else scatterFrom same (false :: acc) text (wanted :: input)

/-- The marks gathered before stand in front of those still to come. -/
theorem scatterFrom_eq_map (same : Char → Char → Bool) (acc : List Bool) (text input : Text) :
    scatterFrom same acc text input =
      (scatterFrom same [] text input).map (acc.reverse ++ ·) := by
  induction text generalizing acc input with
  | nil => cases input <;> simp [scatterFrom]
  | cons c text ih =>
    cases input with
    | nil => simp [scatterFrom]
    | cons wanted input =>
      simp only [scatterFrom]
      split
      · rw [ih [true], ih (true :: acc)]
        simp [Function.comp_def]
      · rw [ih [false], ih (false :: acc)]
        simp [Function.comp_def]

def scattered? (ignoreCase : Bool) (text input : Text) : Option Alignment :=
  (scatterFrom (sameLetter ignoreCase) [] text input).map fun marks => ⟨marks, [], .quarter⟩

/-! ## The best alignment -/

/-- All of the input inside the text: in one piece if it can be searched for, else scattered. -/
def fuzzyAlign? (search : Search) (ignoreCase : Bool) (text input : Text) : Option Alignment :=
  match if search.builds ignoreCase input then contiguous? search ignoreCase text input else none with
  | some alignment => some alignment
  | none => scattered? ignoreCase text input

/-- Lockstep first, then, if allowed, fuzzily. -/
def alignWith (search : Search) (fuzzy ignoreCase : Bool) (text input : Text) : Option Alignment :=
  match lockstep? ignoreCase text input with
  | some alignment => some alignment
  | none => if fuzzy then fuzzyAlign? search ignoreCase text input else none

/-- Put a character in front of runs: it joins the first run if that has the same mark. -/
def joinRun (entry : Char × Bool) : List (Text × Bool) → List (Text × Bool)
  | [] => [([entry.1], entry.2)]
  | (text, mark) :: runs =>
    if mark = entry.2 then (entry.1 :: text, mark) :: runs
    else ([entry.1], entry.2) :: (text, mark) :: runs

/-- A text cut where its marks change. -/
def runsOf (text : Text) (marks : List Bool) : List (Text × Bool) :=
  (text.zip marks).foldr joinRun []

theorem flatMap_joinRun (entry : Char × Bool) (runs : List (Text × Bool)) :
    (joinRun entry runs).flatMap (·.1) = entry.1 :: runs.flatMap (·.1) := by
  match runs with
  | [] => simp [joinRun]
  | (text, mark) :: runs =>
    simp only [joinRun]
    split <;> simp

/-- Nothing is lost by cutting into runs. -/
theorem flatMap_runsOf (text : Text) (marks : List Bool) (h : marks.length = text.length) :
    (runsOf text marks).flatMap (·.1) = text := by
  induction text generalizing marks with
  | nil => simp [runsOf]
  | cons c text ih =>
    match marks with
    | [] => simp at h
    | mark :: marks =>
      have hrest := ih marks (by simpa using h)
      simp only [runsOf, List.zip_cons_cons, List.foldr_cons, flatMap_joinRun] at hrest ⊢
      rw [hrest]

/-- The runs as segments of one word. -/
def segmentsOf (text : Text) (marks : List Bool) : List Segment :=
  match runsOf text marks with
  | [] => []
  | (first, typed) :: rest =>
    ⟨first, typed, true⟩ :: rest.map fun run => ⟨run.1, run.2, false⟩

end Typeahead
