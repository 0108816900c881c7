/-!
# Recursion traces

The phrases being expanded along one path, innermost first, each with the count of characters that were
left when it was entered. A phrase may be entered again only while it consumes input.

| here | there |
| --- | --- |
| `Frame` | `RecursionKey` |
| `Trace` | `Trace`, from `frames` |
| `Trace.admits` | `Trace::admits` |
-/

namespace Typeahead

/-- A phrase being expanded. -/
structure Frame where
  identity : String
  /-- Characters left when the phrase was entered. -/
  remaining : Nat
  deriving DecidableEq

/-- The frames of one path, innermost first. -/
abbrev Trace := List Frame

/-- Whether a frame on the path stands in the way of another: the same phrase, with as much left, or with
nothing left to consume. -/
def Frame.blocks (frame next : Frame) : Bool :=
  frame.identity == next.identity && (frame.remaining == next.remaining || next.remaining == 0)

def Trace.admits (trace : Trace) (next : Frame) : Bool := !trace.any (·.blocks next)

/-- A longer path admits no more. -/
theorem Trace.admits_of_subset {trace longer : Trace} {next : Frame} (h : trace ⊆ longer)
    (ha : longer.admits next = true) : trace.admits next = true := by
  simp only [Trace.admits, Bool.not_eq_true', List.any_eq_false] at ha ⊢
  exact fun frame hf => ha frame (h hf)

end Typeahead
