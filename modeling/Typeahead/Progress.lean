import Typeahead.Run

/-!
# Progress of a pass

What a pass leaves behind as it goes: counts of the work done, the pass in which each node was last
visited, and the elements whose description has been built. All of it is a fold over the events of the
runs that were pulled.

| here | there |
| --- | --- |
| `Metrics` | `PassMetrics`, as `Counters::snapshot` gives it |
| `Metrics.record` | `Counters::visit`, `literal_attempt`, `prune`, `filter`, `depth` |
| `Freshness` | `FreshnessTracker` |
| `beginPass`, `mark`, `clear` | `begin_pass`, `mark_visited`, `clear` |
| `lastVisited?`, `isFresh`, `visitedCount` | `last_visited`, `is_fresh`, `visited_count` |
| `noteDescribed` | `Element::description`, when it builds one |
| `Run.pull`, `Run.drain` | `next`, `collect` |
-/

namespace Typeahead

/-- Counts of the work done. -/
structure Metrics where
  outputs : Nat := 0
  /-- Nodes tried, each time counted. -/
  nodes : Nat := 0
  literals : Nat := 0
  pruned : Nat := 0
  filtered : Nat := 0
  /-- Most phrases ever open at once. -/
  depth : Nat := 0
  deriving DecidableEq

def Metrics.record (metrics : Metrics) : Event → Metrics
  | .visit _ => { metrics with nodes := metrics.nodes + 1 }
  | .attempt => { metrics with literals := metrics.literals + 1 }
  | .prune => { metrics with pruned := metrics.pruned + 1 }
  | .enter path => { metrics with depth := max metrics.depth path.length }
  | .describe _ => metrics
  | .reject => { metrics with filtered := metrics.filtered + 1 }
  | .emit => { metrics with outputs := metrics.outputs + 1 }

/-- When nodes were last visited. Passes are counted in epochs. -/
structure Freshness where
  epoch : Nat := 0
  /-- Each visited node with the epoch of its last visit. -/
  marks : List (Address × Nat) := []

namespace Freshness

/-- Start a pass: marks of earlier ones are no longer fresh. -/
def beginPass (freshness : Freshness) : Freshness := { freshness with epoch := freshness.epoch + 1 }

def mark (freshness : Freshness) (address : Address) : Freshness :=
  { freshness with
    marks := (address, freshness.epoch) :: freshness.marks.filter fun entry => entry.1 ≠ address }

/-- The epoch of a node's last visit. -/
def lastVisited? (freshness : Freshness) (address : Address) : Option Nat :=
  freshness.marks.lookup address

/-- A mark is found again, and leaves all others as they were. -/
theorem lastVisited?_mark (freshness : Freshness) (address other : Address) :
    (freshness.mark address).lastVisited? other =
      if other = address then some freshness.epoch else freshness.lastVisited? other := by
  simp only [lastVisited?, mark, List.lookup_cons]
  by_cases h : other = address
  · simp [h]
  · have hne : (other == address) = false := by simpa using h
    simp only [hne, h, if_false]
    induction freshness.marks with
    | nil => rfl
    | cons entry rest ih =>
      obtain ⟨key, epoch⟩ := entry
      by_cases hk : key = address
      · simpa [hk, List.lookup_cons, hne] using ih
      · simp only [List.filter_cons, ne_eq, hk, not_false_eq_true, decide_true, if_true,
          List.lookup_cons, ih]

def isFresh (freshness : Freshness) (address : Address) : Bool :=
  freshness.lastVisited? address == some freshness.epoch

def visitedCount (freshness : Freshness) : Nat :=
  freshness.marks.countP fun entry => entry.2 == freshness.epoch

/-- Forget all marks; epochs go on counting. -/
def clear (freshness : Freshness) : Freshness := { freshness with marks := [] }

end Freshness

/-- What a pass has done so far. -/
structure Progress where
  freshness : Freshness := {}
  /-- Elements whose description has been built. -/
  described : List Address := []
  metrics : Metrics := {}

namespace Progress

/-- Note that an element's description is built. -/
def noteDescribed (described : List Address) (address : Address) : List Address :=
  if address ∈ described then described else address :: described

theorem mem_noteDescribed {described : List Address} {address other : Address} :
    other ∈ noteDescribed described address ↔ other = address ∨ other ∈ described := by
  unfold noteDescribed
  split <;> simp_all

theorem nodup_noteDescribed {described : List Address} (h : described.Nodup) (address : Address) :
    (noteDescribed described address).Nodup := by
  unfold noteDescribed
  split
  · exact h
  · exact List.nodup_cons.2 ⟨‹_›, h⟩

def record (progress : Progress) (event : Event) : Progress where
  metrics := progress.metrics.record event
  freshness :=
    match event with
    | .visit address => progress.freshness.mark address
    | _ => progress.freshness
  described :=
    match event with
    | .describe address => noteDescribed progress.described address
    | _ => progress.described

end Progress

/-- What one pull on a run gives. -/
inductive Pulled (α : Type) where
  | output (a : α) (rest : Run α)
  | exhausted
  | fault (fault : Fault)

namespace Run

variable {α : Type}

/-- Go on to the next output, or to the end. -/
def pull (run : Run α) (progress : Progress) : Pulled α × Progress :=
  match run with
  | .done => (.exhausted, progress)
  | .fault f => (.fault f, progress)
  | .event e rest => (rest ()).pull (progress.record e)
  | .output a rest => (.output a (rest ()), progress)

/-- Go on to the end, with the outputs so far in `acc`, last one first. -/
def drainOnto (run : Run α) (acc : List α) (progress : Progress) : Except Fault (List α) × Progress :=
  match run with
  | .done => (.ok acc.reverse, progress)
  | .fault f => (.error f, progress)
  | .event e rest => (rest ()).drainOnto acc (progress.record e)
  | .output a rest => (rest ()).drainOnto (a :: acc) progress

def drain (run : Run α) (progress : Progress) : Except Fault (List α) × Progress :=
  run.drainOnto [] progress

theorem drainOnto_progress (run : Run α) (acc : List α) (progress : Progress) :
    (run.drainOnto acc progress).2 = run.events.foldl Progress.record progress := by
  induction run generalizing acc progress with
  | done => rfl
  | fault f => rfl
  | event e rest ih => exact ih () acc _
  | output a rest ih => exact ih () _ progress

end Run

end Typeahead
