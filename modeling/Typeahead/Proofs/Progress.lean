import Mathlib.Data.List.Dedup
import Typeahead.Proofs.Run

/-!
# What events add up to

Progress is a fold over events, and its parts do not depend on much of them. Counts add up, and only the
greatest depth counts, so work that is done in shares can be counted share by share and in any order
(`Metrics.join`, `Metrics.ofEvents_perm`). A node is fresh exactly if it was visited since the epoch began
(`Progress.Begun.foldl`), and the count of fresh nodes is the number of such nodes
(`Progress.Begun.visitedCount_foldl`). All other nodes keep the mark they had (`Progress.lastVisited?_foldl`).
-/

namespace Typeahead

/-! ## Counts -/

namespace Metrics

attribute [ext] Metrics

/-- The counts of two shares of work taken together: they add up, and the greater depth counts. -/
def join (first second : Metrics) : Metrics where
  outputs := first.outputs + second.outputs
  nodes := first.nodes + second.nodes
  literals := first.literals + second.literals
  pruned := first.pruned + second.pruned
  filtered := first.filtered + second.filtered
  depth := max first.depth second.depth

/-- The counts of many shares of work taken together. -/
def total (shares : List Metrics) : Metrics := shares.foldr join {}

def ofEvents (events : List Event) : Metrics := events.foldl record {}

theorem join_zero (metrics : Metrics) : metrics.join {} = metrics := by simp [join]

theorem zero_join (metrics : Metrics) : join {} metrics = metrics := by simp [join]

theorem join_assoc (a b c : Metrics) : (a.join b).join c = a.join (b.join c) := by
  ext <;> simp only [join] <;> omega

theorem join_left_comm (a b c : Metrics) : a.join (b.join c) = b.join (a.join c) := by
  ext <;> simp only [join] <;> omega

/-- Counting an event adds the counts of that event. -/
theorem record_eq_join (metrics : Metrics) (e : Event) : metrics.record e = metrics.join (ofEvents [e]) := by
  cases e <;> simp [ofEvents, record, join]

theorem foldl_record (metrics : Metrics) (events : List Event) :
    events.foldl record metrics = metrics.join (ofEvents events) := by
  induction events generalizing metrics with
  | nil => exact (join_zero metrics).symm
  | cons e later ih =>
    rw [ofEvents, List.foldl_cons, List.foldl_cons, ih, ih, record_eq_join, record_eq_join {}, zero_join,
      join_assoc]

theorem ofEvents_append (first second : List Event) :
    ofEvents (first ++ second) = (ofEvents first).join (ofEvents second) := by
  rw [ofEvents, List.foldl_append, foldl_record]
  rfl

theorem ofEvents_cons (e : Event) (later : List Event) :
    ofEvents (e :: later) = (ofEvents [e]).join (ofEvents later) :=
  ofEvents_append [e] later

theorem ofEvents_perm {events events' : List Event} (h : events.Perm events') :
    ofEvents events = ofEvents events' := by
  induction h with
  | nil => rfl
  | cons e _ ih => rw [ofEvents_cons, ih, ← ofEvents_cons]
  | swap e e' later =>
    rw [ofEvents_cons, ofEvents_cons e, join_left_comm, ← ofEvents_cons, ← ofEvents_cons]
  | trans _ _ ih ih' => exact ih.trans ih'

theorem ofEvents_flatMap {α : Type} (items : List α) (events : α → List Event) :
    ofEvents (items.flatMap events) = total (items.map fun item => ofEvents (events item)) := by
  induction items with
  | nil => rfl
  | cons item rest ih =>
    rw [List.flatMap_cons, ofEvents_append, ih]
    rfl

end Metrics

/-! ## Marks -/

namespace Freshness

/-- Marks that passes can have left: one for each node, and none of an epoch to come. -/
structure Sound (freshness : Freshness) : Prop where
  nodup : (freshness.marks.map Prod.fst).Nodup
  le_epoch : ∀ entry ∈ freshness.marks, entry.2 ≤ freshness.epoch

variable {freshness : Freshness}

theorem sound_empty : Sound {} := ⟨List.nodup_nil, by simp⟩

theorem Sound.mark (h : freshness.Sound) (address : Address) : (freshness.mark address).Sound where
  nodup := by
    rw [Freshness.mark, List.map_cons, List.nodup_cons]
    refine ⟨fun hmem => ?_, h.nodup.sublist (List.filter_sublist.map Prod.fst)⟩
    obtain ⟨entry, hentry, heq⟩ := List.mem_map.1 hmem
    have hne := (List.mem_filter.1 hentry).2
    simp [heq] at hne
  le_epoch := List.forall_mem_cons.2
    ⟨Nat.le_refl _, fun entry hentry => h.le_epoch entry (List.mem_filter.1 hentry).1⟩

theorem Sound.beginPass (h : freshness.Sound) : freshness.beginPass.Sound where
  nodup := h.nodup
  le_epoch entry hentry := Nat.le_succ_of_le (h.le_epoch entry hentry)

theorem Sound.clear : freshness.clear.Sound := ⟨List.nodup_nil, by simp [Freshness.clear]⟩

/-- Each node has one mark, that of its last visit. -/
theorem Sound.lastVisited?_eq_some (h : freshness.Sound) {address : Address} {epoch : Nat} :
    freshness.lastVisited? address = some epoch ↔ (address, epoch) ∈ freshness.marks := by
  rw [lastVisited?, List.lookup_eq_some_iff]
  constructor
  · rintro ⟨before, after, hmarks, -⟩
    simp [hmarks]
  · intro hmem
    obtain ⟨before, after, hmarks⟩ := List.append_of_mem hmem
    have hnodup := h.nodup
    rw [hmarks, List.map_append, List.map_cons, List.nodup_middle, List.nodup_cons] at hnodup
    refine ⟨before, after, hmarks, fun entry hentry => bne_iff_ne.2 fun heq => hnodup.1 ?_⟩
    exact List.mem_append_left _ (List.mem_map.2 ⟨entry, hentry, heq.symm⟩)

theorem Sound.isFresh_beginPass (h : freshness.Sound) (address : Address) :
    freshness.beginPass.isFresh address = false := by
  rw [isFresh, beq_eq_false_iff_ne]
  intro hlast
  have hle := h.le_epoch _ (h.beginPass.lastVisited?_eq_some.1 hlast)
  simp only [Freshness.beginPass] at hle
  omega

theorem isFresh_mark {address other : Address} :
    (freshness.mark address).isFresh other = true ↔ other = address ∨ freshness.isFresh other = true := by
  rw [isFresh, lastVisited?_mark]
  split
  · next h => simp [h, Freshness.mark]
  · next h => simp [h, Freshness.mark, isFresh]

/-- **The count of fresh nodes** is the length of any list that has each of them once. -/
theorem Sound.visitedCount_eq_length (h : freshness.Sound) {nodes : List Address} (hnodup : nodes.Nodup)
    (hmem : ∀ address, address ∈ nodes ↔ freshness.isFresh address = true) :
    freshness.visitedCount = nodes.length := by
  have hmarked : ((freshness.marks.filter (·.2 == freshness.epoch)).map Prod.fst).Perm nodes := by
    refine (List.perm_ext_iff_of_nodup (h.nodup.sublist (List.filter_sublist.map _)) hnodup).2 fun address => ?_
    rw [hmem, isFresh, beq_iff_eq, h.lastVisited?_eq_some]
    simp
  rw [visitedCount, List.countP_eq_length_filter, ← List.length_map Prod.fst, hmarked.length_eq]

end Freshness

/-- The nodes that are visited in some events, each time listed. -/
def visits (events : List Event) : List Address :=
  events.filterMap fun
    | .visit address => some address
    | _ => none

theorem mem_visits {events : List Event} {address : Address} :
    address ∈ visits events ↔ .visit address ∈ events := by
  simp only [visits, List.mem_filterMap]
  constructor
  · rintro ⟨e, he, heq⟩
    cases e <;> cases heq
    exact he
  · exact fun h => ⟨_, h, rfl⟩

theorem Metrics.nodes_ofEvents (events : List Event) : (ofEvents events).nodes = (visits events).length := by
  induction events with
  | nil => rfl
  | cons e later ih =>
    rw [ofEvents_cons, join, ih]
    cases e <;> simp [ofEvents, record, visits, Nat.add_comm]

namespace Progress

theorem metrics_foldl (events : List Event) (progress : Progress) :
    (events.foldl record progress).metrics = progress.metrics.join (.ofEvents events) := by
  rw [← Metrics.foldl_record]
  induction events generalizing progress with
  | nil => rfl
  | cons e later ih => exact ih (progress.record e)

theorem sound_record {progress : Progress} (h : progress.freshness.Sound) (e : Event) :
    (progress.record e).freshness.Sound := by
  cases e with
  | visit address => exact h.mark address
  | _ => exact h

theorem sound_foldl {progress : Progress} (h : progress.freshness.Sound) (events : List Event) :
    (events.foldl record progress).freshness.Sound := by
  induction events generalizing progress with
  | nil => exact h
  | cons e later ih => exact ih (sound_record h e)

theorem epoch_foldl (events : List Event) (progress : Progress) :
    (events.foldl record progress).freshness.epoch = progress.freshness.epoch := by
  induction events generalizing progress with
  | nil => rfl
  | cons e later ih =>
    rw [List.foldl_cons, ih]
    cases e <;> rfl

/-- A node that was visited has the mark of the epoch, and every other one the mark it had. -/
theorem lastVisited?_foldl (events : List Event) (progress : Progress) (address : Address) :
    (events.foldl record progress).freshness.lastVisited? address =
      if .visit address ∈ events then some progress.freshness.epoch
      else progress.freshness.lastVisited? address := by
  induction events generalizing progress with
  | nil => simp
  | cons e later ih =>
    rw [List.foldl_cons, ih]
    cases e with
    | visit visited =>
      simp only [record, Freshness.lastVisited?_mark, List.mem_cons, Event.visit.injEq]
      by_cases hvisited : address = visited <;> simp [hvisited, Freshness.mark]
    | _ => simp [record]

/-- A node is fresh if it was so before or was visited. -/
theorem isFresh_foldl (events : List Event) (progress : Progress) (address : Address) :
    (events.foldl record progress).freshness.isFresh address = true ↔
      .visit address ∈ events ∨ progress.freshness.isFresh address = true := by
  induction events generalizing progress with
  | nil => simp
  | cons e later ih =>
    rw [List.foldl_cons, ih, List.mem_cons]
    cases e with
    | visit visited =>
      simp only [record, Freshness.isFresh_mark, Event.visit.injEq]
      tauto
    | _ => simp [record]

/-- A description is built if it was so before or was called for. -/
theorem mem_described_foldl (events : List Event) (progress : Progress) (address : Address) :
    address ∈ (events.foldl record progress).described ↔
      .describe address ∈ events ∨ address ∈ progress.described := by
  induction events generalizing progress with
  | nil => simp
  | cons e later ih =>
    rw [List.foldl_cons, ih, List.mem_cons]
    cases e with
    | describe built =>
      simp only [record, mem_noteDescribed, Event.describe.injEq]
      tauto
    | _ => simp [record]

/-- A pass has only begun: nothing is counted yet, and no node is fresh. -/
def Begun (progress : Progress) : Prop :=
  progress.metrics = {} ∧ ∀ address, progress.freshness.isFresh address = false

/-- From the beginning of a pass, counts are those of the events, and the fresh nodes those visited. -/
theorem Begun.foldl {progress : Progress} (h : progress.Begun) (events : List Event) :
    (events.foldl record progress).metrics = .ofEvents events ∧
      ∀ address, (events.foldl record progress).freshness.isFresh address = true ↔ .visit address ∈ events := by
  refine ⟨?_, fun address => ?_⟩
  · rw [metrics_foldl, h.1, Metrics.zero_join]
  · simp [isFresh_foldl, h.2]

/-- From the beginning of a pass, the count of fresh nodes is that of the nodes visited. -/
theorem Begun.visitedCount_foldl {progress : Progress} (h : progress.Begun) (hsound : progress.freshness.Sound)
    (events : List Event) :
    (events.foldl record progress).freshness.visitedCount = (visits events).dedup.length := by
  refine (sound_foldl hsound events).visitedCount_eq_length (List.nodup_dedup _) fun address => ?_
  rw [List.mem_dedup, mem_visits, (h.foldl events).2]

end Progress

end Typeahead
