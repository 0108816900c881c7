import Typeahead.Literal.Shelf
import Typeahead.Proofs.History
import Typeahead.Proofs.Laziness
import Typeahead.Proofs.Survey

/-!
# Streams side by side

Streams of one pass share its counts, its marks, its built descriptions and the patterns it keeps, and may be
pulled in any order. Still each of them gives what it would give alone: a pull on one leaves the others where
they are (`Streams.exists_pullsTo`). The events of all pulls are those of the single streams, shuffled
(`Streams.events_pullAll`), so counts add up and marks are those of any of the streams. Main statement:
`streams_keep_apart`.
-/

namespace Typeahead

variable {n : Nat}

/-! ## Readings handed out are counted -/

namespace Run

/-- As many outputs are counted as there are, at every point of a run. -/
def CountsOutputs (run : Run Output) : Prop :=
  ∀ count, (Metrics.ofEvents (run.take count).events).outputs = (run.outputs.take count).length

theorem CountsOutputs.take {run : Run Output} (h : run.CountsOutputs) (limit : Nat) :
    (run.take limit).CountsOutputs := by
  intro count
  rw [take_take, outputs_take, List.take_take]
  exact h (min count limit)

theorem countsOutputs_handOut {run : Run Output} (h : Survey.Covers (· ≠ .emit) run) :
    (run.bind Pass.handOut).CountsOutputs := by
  have hskip (e : Event) (he : e ≠ .emit) (later : List Event) :
      (Metrics.ofEvents (e :: later)).outputs = (Metrics.ofEvents later).outputs := by
    rw [Metrics.ofEvents_cons]
    cases e with
    | emit => exact absurd rfl he
    | _ => exact Nat.zero_add _
  intro count
  induction run generalizing count with
  | done => cases count <;> rfl
  | fault f => cases count <;> rfl
  | event e rest ih =>
    cases count with
    | zero => rfl
    | succ count => exact (hskip e h.1 _).trans (ih () h.2 (count + 1))
  | output a rest ih =>
    by_cases hcomplete : a.isComplete = true
    · cases count with
      | zero => simp [take_zero, events, Metrics.ofEvents]
      | succ count =>
        simp only [bind, Pass.handOut, hcomplete, if_true, append, Run.pure, take, events, outputs,
          List.take_succ_cons, List.length_cons]
        rw [Metrics.ofEvents_cons, ← ih () h.2 count, Nat.add_comm]
        rfl
    · simpa only [bind, Pass.handOut, hcomplete, Bool.false_eq_true, if_false, append] using ih () h.2 count

end Run

/-- Reading a node hands nothing out. -/
theorem Context.survey_emit (ctx : Context n) : Survey ctx (fun _ => True) (· ≠ .emit) := by
  constructor <;> simp

theorem Pass.countsOutputs_stream (pass : Pass n) (input : Text) : (pass.stream input).CountsOutputs := by
  have hunlimited : (pass.unlimited input).CountsOutputs :=
    Run.countsOutputs_handOut <| Run.always_ofList fun sentence _ =>
      pass.context.survey_emit.resolveTraced trivial [] input
  unfold Pass.stream
  split
  · exact hunlimited.take _
  · exact hunlimited

theorem Pass.fault?_stream {pass : Pass n} (h : pass.context.phrases.Quiet) (input : Text) :
    (pass.stream input).fault? = none := by
  unfold Pass.stream
  split
  · exact Run.fault?_take (Pass.fault?_unlimited h input) _
  · exact Pass.fault?_unlimited h input

/-! ## Pulls on streams side by side -/

/-- How a part of one share goes to the front of all shares. -/
theorem perm_flatMap_of_eq_append {α β : Type} {items : List α} (hnodup : items.Nodup) {item : α}
    (hitem : item ∈ items) {f g : α → List β} {front : List β} (hfront : f item = front ++ g item)
    (hsame : ∀ other, other ≠ item → f other = g other) :
    (items.flatMap f).Perm (front ++ items.flatMap g) := by
  obtain ⟨before, after, rfl⟩ := List.append_of_mem hitem
  rw [List.nodup_middle, List.nodup_cons, List.mem_append, not_or] at hnodup
  have hrest {others : List α} (hnot : item ∉ others) : others.flatMap f = others.flatMap g :=
    List.flatMap_congr fun other hother => hsame other (ne_of_mem_of_not_mem hother hnot)
  rw [List.flatMap_append, List.flatMap_append, List.flatMap_cons, List.flatMap_cons, hfront,
    hrest hnodup.1.1, hrest hnodup.1.2, List.append_assoc]
  exact List.perm_append_comm_assoc _ _ _

namespace Streams

/-- The stream at a place; where there is none, nothing comes. -/
def runAt (streams : Streams) (place : Nat) : Run Output := streams.runs.getD place .done

theorem runAt_set {streams : Streams} {place : Nat} (h : place < streams.runs.length) (rest : Run Output)
    (progress : Progress) (other : Nat) :
    (Streams.mk (streams.runs.set place rest) progress).runAt other =
      if other = place then rest else streams.runAt other := by
  simp only [runAt, List.getD_eq_getElem?_getD, List.getElem?_set]
  by_cases hother : other = place
  · subst hother
    simp [h]
  · simp [hother, Ne.symm hother]

/-- What a pull on streams that end well comes to: the next output of its stream, and the events up to it.
The stream goes on from there, and the others stay where they are. -/
structure PullsTo (streams : Streams) (place : Nat) (after : Streams) : Prop where
  eq : streams.pull place = (.ok (streams.runAt place).outputs.head?, after)
  progress : after.progress = ((streams.runAt place).take 1).events.foldl Progress.record streams.progress
  fault? : ∀ run ∈ after.runs, run.fault? = none
  length : after.runs.length = streams.runs.length
  others : ∀ other, other ≠ place → after.runAt other = streams.runAt other
  outputs : (after.runAt place).outputs = (streams.runAt place).outputs.tail
  events : ∀ count, ((streams.runAt place).take (count + 1)).events =
    ((streams.runAt place).take 1).events ++ ((after.runAt place).take count).events

/-- A pull that leaves its stream in a certain state. -/
theorem pullsTo_set {streams : Streams} (h : ∀ run ∈ streams.runs, run.fault? = none) {place : Nat}
    (hplace : place < streams.runs.length) {rest : Run Output} (hrest : rest.fault? = none)
    (hpull : streams.pull place = (.ok (streams.runAt place).outputs.head?,
      ⟨streams.runs.set place rest,
        ((streams.runAt place).take 1).events.foldl Progress.record streams.progress⟩))
    (houtputs : rest.outputs = (streams.runAt place).outputs.tail)
    (hevents : ∀ count, ((streams.runAt place).take (count + 1)).events =
      ((streams.runAt place).take 1).events ++ (rest.take count).events) :
    ∃ after, PullsTo streams place after := by
  refine ⟨_, hpull, rfl, fun run hrun => ?_, List.length_set, fun other hother => ?_, ?_, ?_⟩
  · rcases List.mem_or_eq_of_mem_set hrun with hmem | rfl
    · exact h run hmem
    · exact hrest
  · rw [runAt_set hplace, if_neg hother]
  · rw [runAt_set hplace, if_pos rfl, houtputs]
  · rw [runAt_set hplace, if_pos rfl]
    exact hevents

/-- **One pull.** -/
theorem exists_pullsTo {streams : Streams} (h : ∀ run ∈ streams.runs, run.fault? = none) (place : Nat) :
    ∃ after, PullsTo streams place after := by
  cases hrun : streams.runs[place]? with
  | none =>
    have hdone : streams.runAt place = .done := by simp [runAt, List.getD_eq_getElem?_getD, hrun]
    refine ⟨streams, ?_, ?_, h, rfl, fun _ _ => rfl, ?_, fun count => ?_⟩
    · simp [Streams.pull, hrun, hdone, Run.outputs]
    · simp [hdone, Run.take, Run.events]
    · simp [hdone, Run.outputs]
    · cases count <;> simp [hdone, Run.take, Run.events]
  | some run =>
    have hat : streams.runAt place = run := by simp [runAt, List.getD_eq_getElem?_getD, hrun]
    obtain ⟨hplace, -⟩ := List.getElem?_eq_some_iff.1 hrun
    rcases Run.pull_cases (h run (List.mem_of_getElem? hrun)) streams.progress with
      ⟨houtputs, hpull, hevents⟩ | ⟨a, rest, houtputs, hfault, hpull, hevents⟩
    -- the stream is over, and stays so
    · have hover : (Run.done : Run Output).fault? = none := rfl
      refine pullsTo_set h hplace hover ?_ ?_ fun count => ?_
      · simp [Streams.pull, hrun, hat, hpull, houtputs, hevents 0]
      · rw [hat, houtputs]
        rfl
      · rw [hat, hevents count, hevents 0]
        cases count <;> simp [Run.take, Run.events]
    · refine pullsTo_set h hplace hfault ?_ ?_ fun count => ?_
      · simp [Streams.pull, hrun, hat, hpull, houtputs]
      · rw [hat, houtputs]
        rfl
      · rw [hat, hevents count]

/-- What the pulls on one stream gave, in order. -/
def answersOf {α : Type} (place : Nat) (schedule : List Nat) (answers : List α) : List α :=
  ((schedule.zip answers).filter (·.1 == place)).map (·.2)

/-- **Any schedule** gives each stream its own outputs one after the other, and then nothing any more. -/
theorem answersOf_pullAll {streams : Streams} (h : ∀ run ∈ streams.runs, run.fault? = none)
    (schedule : List Nat) (place : Nat) :
    answersOf place schedule (streams.pullAll schedule).1 =
      (List.range (schedule.count place)).map fun i => .ok (streams.runAt place).outputs[i]? := by
  induction schedule generalizing streams with
  | nil => rfl
  | cons first later ih =>
    obtain ⟨after, hafter⟩ := exists_pullsTo h first
    have hlater := ih hafter.fault?
    simp only [answersOf] at hlater
    simp only [pullAll, hafter.eq, answersOf, List.zip_cons_cons]
    by_cases hfirst : first = place
    · subst hfirst
      rw [List.filter_cons_of_pos (by simp), List.map_cons, hlater, List.count_cons_self,
        List.range_succ_eq_map, List.map_cons, List.map_map, hafter.outputs]
      simp [Function.comp_def, List.head?_eq_getElem?]
    · rw [List.filter_cons_of_neg (by simpa using hfirst), hlater, List.count_cons_of_ne hfirst,
        hafter.others _ (Ne.symm hfirst)]

/-- **The events of any schedule** are those of the single streams, shuffled: of each stream those through as
many outputs as it was pulled. -/
theorem events_pullAll {streams : Streams} (h : ∀ run ∈ streams.runs, run.fault? = none) (schedule : List Nat) :
    ∃ events : List Event,
      events.Perm ((List.range streams.runs.length).flatMap fun place =>
        ((streams.runAt place).take (schedule.count place)).events) ∧
      (streams.pullAll schedule).2.progress = events.foldl Progress.record streams.progress := by
  induction schedule generalizing streams with
  | nil => exact ⟨[], by simp [Run.take_zero, Run.events], rfl⟩
  | cons first later ih =>
    obtain ⟨after, hafter⟩ := exists_pullsTo h first
    obtain ⟨events, hperm, hprogress⟩ := ih hafter.fault?
    refine ⟨((streams.runAt first).take 1).events ++ events, ?_, ?_⟩
    · refine (hperm.append_left _).trans ?_
      rw [hafter.length]
      by_cases hfirst : first < streams.runs.length
      · have hmem := List.mem_range.2 hfirst
        refine (perm_flatMap_of_eq_append List.nodup_range hmem ?_ fun other hother => ?_).symm
        · rw [List.count_cons_self, hafter.events]
        · rw [List.count_cons_of_ne (Ne.symm hother), hafter.others other hother]
      · have hdone : streams.runAt first = .done := by
          simp [runAt, List.getD_eq_getElem?_getD, List.getElem?_eq_none (Nat.le_of_not_lt hfirst)]
        rw [hdone]
        refine .of_eq (List.flatMap_congr fun place hplace => ?_)
        have hne : place ≠ first := fun heq => hfirst (heq ▸ List.mem_range.1 hplace)
        rw [List.count_cons_of_ne (Ne.symm hne), hafter.others place hne]
    · simp only [pullAll, hafter.eq, hprogress, hafter.progress, List.foldl_append]

/-- How many pulls gave an output. -/
def given (answers : List (Except Fault (Option Output))) : Nat :=
  answers.countP fun
    | .ok (some _) => true
    | _ => false

/-- What is left of a stream counts its outputs as the stream did. -/
theorem PullsTo.countsOutputs {streams after : Streams} {place : Nat} (h : PullsTo streams place after)
    (hcounts : (streams.runAt place).CountsOutputs) : (after.runAt place).CountsOutputs := by
  intro count
  have hall := hcounts (count + 1)
  have hfirst := hcounts 1
  rw [h.events, Metrics.ofEvents_append] at hall
  simp only [Metrics.join] at hall
  rw [h.outputs]
  cases houtputs : (streams.runAt place).outputs with
  | nil =>
    rw [houtputs] at hall
    simpa using (Nat.add_eq_zero_iff.1 hall).2
  | cons out later =>
    rw [houtputs] at hall hfirst
    simp only [List.take_succ_cons, List.take_zero, List.length_cons, List.length_nil, List.tail_cons] at *
    omega

/-- **Outputs are counted as they are given.** -/
theorem outputs_pullAll {streams : Streams} (h : ∀ run ∈ streams.runs, run.fault? = none)
    (hcounts : ∀ place, (streams.runAt place).CountsOutputs) (schedule : List Nat) :
    (streams.pullAll schedule).2.progress.metrics.outputs =
      streams.progress.metrics.outputs + given (streams.pullAll schedule).1 := by
  induction schedule generalizing streams with
  | nil => rfl
  | cons first later ih =>
    obtain ⟨after, hafter⟩ := exists_pullsTo h first
    have hcountsAfter (place : Nat) : (after.runAt place).CountsOutputs := by
      by_cases hplace : place = first
      · subst hplace
        exact hafter.countsOutputs (hcounts place)
      · rw [hafter.others place hplace]
        exact hcounts place
    have hfirst := hcounts first 1
    simp only [pullAll, hafter.eq, ih hafter.fault? hcountsAfter, hafter.progress, Progress.metrics_foldl,
      Metrics.join, hfirst, given, List.countP_cons]
    cases (streams.runAt first).outputs with
    | nil => simp
    | cons out rest => simp [Nat.add_assoc, Nat.add_comm]

end Streams

/-! ## The streams of a pass -/

namespace Streams

variable {pass : Pass n} {inputs : List Text}

theorem runAt_ofInputs {place : Nat} (h : place < inputs.length) :
    (ofInputs pass inputs).runAt place = pass.stream (inputs.getD place []) := by
  simp [ofInputs, runAt, List.getD_eq_getElem?_getD, h]

theorem fault?_ofInputs (h : pass.context.phrases.Quiet) (inputs : List Text) :
    ∀ run ∈ (ofInputs pass inputs).runs, run.fault? = none := by
  intro run hrun
  obtain ⟨input, -, rfl⟩ := List.mem_map.1 hrun
  exact Pass.fault?_stream h input

theorem countsOutputs_ofInputs (place : Nat) : ((ofInputs pass inputs).runAt place).CountsOutputs := by
  by_cases hplace : place < inputs.length
  · rw [runAt_ofInputs hplace]
    exact pass.countsOutputs_stream _
  · have hdone : (ofInputs pass inputs).runAt place = .done := by
      simp [ofInputs, runAt, List.getD_eq_getElem?_getD, hplace]
    rw [hdone]
    intro count
    cases count <;> rfl

end Streams

/-- **Streams keep apart.** Take a session with any history in which no phrase function gives up, a pass of it
with a stream for each of some inputs, and any schedule of pulls on them. Compare each stream with one that is
pulled as often alone, in a pass of its own that has only begun, whatever its epoch and whatever descriptions
are built by then.

- Each stream gives the same outputs in the same order as the one alone, the limit being its own.
- The count of outputs is the number of pulls that gave one.
- All counts are those of the streams alone taken together: the sums, and for the depth the greatest.
- The fresh nodes are those that are fresh for any of the streams alone.
- The patterns that the pass keeps make no difference to any literal, in whatever order literals are tried.

Every beginning of a schedule is a schedule, so all of this holds after each pull. -/
theorem streams_keep_apart (book : Phrasebook n) (hquiet : book.Quiet) (settings : Settings)
    (requests : List (Request n)) (inputs : List Text) (schedule : List Nat) (begun : Nat → Progress)
    (hbegun : ∀ place, (begun place).Begun) :
    let pass := ((Desk.ofSettings book settings).handleAll requests).session.pass
    let shared := (Streams.ofInputs pass inputs).pullAll schedule
    let alone (place : Nat) :=
      (Streams.ofInputs { pass with progress := begun place } [inputs.getD place []]).pullAll
        (List.replicate (schedule.count place) 0)
    (∀ place < inputs.length, Streams.answersOf place schedule shared.1 = (alone place).1) ∧
    shared.2.progress.metrics.outputs = Streams.given shared.1 ∧
    shared.2.progress.metrics =
      Metrics.total ((List.range inputs.length).map fun place => (alone place).2.progress.metrics) ∧
    (∀ address, shared.2.progress.freshness.isFresh address = true ↔
      ∃ place < inputs.length, (alone place).2.progress.freshness.isFresh address = true) ∧
    ∀ attempts, Shelf.readAll pass.context.leniency [] attempts =
      attempts.map fun attempt => attempt.1.read? pass.context.leniency attempt.2 := by
  intro pass shared alone
  have hnew : (Desk.ofSettings book settings).session.Sound := Session.sound_new book settings
  have hbook : pass.context.phrases.Quiet := by
    rw [show pass.context.phrases = book from (Desk.configuration_handleAll hnew requests).1]
    exact hquiet
  have hfault := Streams.fault?_ofInputs hbook inputs
  -- each stream alone, as a share of the stream in the pass
  have halone (place : Nat) := Streams.pullAll_replicate
    (Pass.fault?_stream hbook (inputs.getD place [])) (begun place) (schedule.count place)
  have hshare (place : Nat) (hplace : place < inputs.length) :
      (alone place).2.progress = (((Streams.ofInputs pass inputs).runAt place).take
        (schedule.count place)).events.foldl Progress.record (begun place) := by
    rw [Streams.runAt_ofInputs hplace]
    exact (halone place).2
  -- all that happens in the pass is what happens in the shares
  obtain ⟨events, hperm, hprogress⟩ := Streams.events_pullAll hfault schedule
  have hbegan : pass.progress.Begun := (Desk.sound_handleAll hnew requests).begun_pass
  obtain ⟨hmetrics, hfresh⟩ : shared.2.progress.metrics = .ofEvents events ∧
      ∀ address, shared.2.progress.freshness.isFresh address = true ↔ .visit address ∈ events := by
    rw [show shared.2.progress = _ from hprogress]
    exact hbegan.foldl events
  rw [show (Streams.ofInputs pass inputs).runs.length = inputs.length from List.length_map _] at hperm
  refine ⟨fun place hplace => ?_, ?_, ?_, fun address => ?_, Shelf.readAll_eq _⟩
  · rw [Streams.answersOf_pullAll hfault, Streams.runAt_ofInputs hplace]
    exact (halone place).1.symm
  · rw [Streams.outputs_pullAll hfault Streams.countsOutputs_ofInputs]
    exact Nat.zero_add _
  · rw [hmetrics, Metrics.ofEvents_perm hperm, Metrics.ofEvents_flatMap]
    congr 1
    refine List.map_congr_left fun place hplace => ?_
    rw [hshare place (List.mem_range.1 hplace), ((hbegun place).foldl _).1]
  · rw [hfresh, hperm.mem_iff, List.mem_flatMap]
    constructor
    · rintro ⟨place, hplace, hvisit⟩
      rw [List.mem_range] at hplace
      refine ⟨place, hplace, ?_⟩
      rw [hshare place hplace, ((hbegun place).foldl _).2]
      exact hvisit
    · rintro ⟨place, hplace, hvisit⟩
      rw [hshare place hplace, ((hbegun place).foldl _).2] at hvisit
      exact ⟨place, List.mem_range.2 hplace, hvisit⟩

/-- Two inputs read side by side, after "paint" was read once: each stream goes its own way, the second one
ends early, and three of the five pulls give something. -/
theorem paint_streams_keep_apart :
    let requests : List (Request 1) := [.setSentences [paintRoot.node], .parse "paint".toList]
    let pass := ((Desk.ofSettings paintContext.phrases {}).handleAll requests).session.pass
    let shared := (Streams.ofInputs pass ["paint r".toList, "paint ro".toList]).pullAll [0, 1, 1, 0, 0]
    (Streams.answersOf 0 [0, 1, 1, 0, 0] shared.1).map (fun answer => answer.toOption.map (·.map (·.text))) =
        [some (some "paint red".toList), some (some "paint rose".toList), some none] ∧
      shared.2.progress.metrics = { outputs := 3, nodes := 12, literals := 6, depth := 1 } := by
  intro requests pass shared
  have hquiet : paintContext.phrases.Quiet := by
    rintro phrase f (h | ⟨h, -⟩ | h) <;> cases h
  have hbegun (_ : Nat) : Progress.Begun {} := ⟨rfl, fun _ => rfl⟩
  obtain ⟨hanswers, -, hmetrics, -⟩ := streams_keep_apart paintContext.phrases hquiet {} requests
    ["paint r".toList, "paint ro".toList] [0, 1, 1, 0, 0] (fun _ => {}) hbegun
  rw [hanswers 0 (by decide), hmetrics]
  decide +kernel

end Typeahead
