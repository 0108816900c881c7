import Typeahead.Proofs.Exploration

/-!
# Laziness

Pulling on a stream does exactly the work that leads up to the next output. The measure is the journal of an
eager search (`Pass.explore`), in which descriptions that are there already are not built again
(`Pass.journal`). After so many pulls the journal has happened through as many outputs, and no further; a limit
ends the stream right after the last output it allows. Main statement: `pulls_follow_journal`.
-/

namespace Typeahead

variable {n : Nat}

/-! ## Parts of a journal -/

namespace Journal

/-- The journal through so many outputs: nothing for none, and all of it if there are fewer. -/
def upTo : Journal → Nat → Journal
  | _, 0 => []
  | [], _ + 1 => []
  | .event e :: later, count + 1 => .event e :: upTo later (count + 1)
  | .found out :: later, count + 1 => .found out :: upTo later count

/-- What a journal comes to when some descriptions are there already: none is built a second time. -/
def given (described : List Address) : Journal → Journal
  | [] => []
  | .event (.describe here) :: later =>
    if here ∈ described then given described later
    else .event (.describe here) :: given (here :: described) later
  | entry :: later => entry :: given described later

@[simp] theorem events_event (e : Event) (later : Journal) :
    Journal.events (.event e :: later) = e :: later.events := rfl

@[simp] theorem events_found (out : Output) (later : Journal) :
    Journal.events (.found out :: later) = later.events := rfl

@[simp] theorem outputs_event (e : Event) (later : Journal) :
    Journal.outputs (.event e :: later) = later.outputs := rfl

@[simp] theorem outputs_found (out : Output) (later : Journal) :
    Journal.outputs (.found out :: later) = out :: later.outputs := rfl

theorem upTo_of_lt {journal : Journal} {count : Nat} (h : journal.outputs.length < count) :
    journal.upTo count = journal := by
  induction journal generalizing count with
  | nil => cases count <;> rfl
  | cons entry later ih =>
    obtain ⟨count, rfl⟩ : ∃ k, count = k + 1 := ⟨count - 1, by omega⟩
    cases entry with
    | event e => rw [upTo, ih h]
    | found out =>
      rw [outputs_found, List.length_cons] at h
      rw [upTo, ih (by omega)]

theorem upTo_given (journal : Journal) (described : List Address) (count : Nat) :
    (journal.given described).upTo count = (journal.upTo count).given described := by
  induction journal generalizing described count with
  | nil => cases count <;> rfl
  | cons entry later ih =>
    cases count with
    | zero => cases h : given described (entry :: later) <;> rfl
    | succ count =>
      cases entry with
      | found out => simp only [given, upTo, ih]
      | event e =>
        cases e with
        | describe here =>
          simp only [given, upTo]
          split
          · exact ih described (count + 1)
          · simp only [upTo, ih]
        | _ => simp only [given, upTo, ih]

theorem outputs_given (journal : Journal) (described : List Address) :
    (journal.given described).outputs = journal.outputs := by
  induction journal generalizing described with
  | nil => rfl
  | cons entry later ih =>
    cases entry with
    | found out => simp only [given, outputs_found, ih]
    | event e =>
      cases e with
      | describe here =>
        simp only [given]
        split
        · simp only [outputs_event, ih]
        · simp only [outputs_event, ih]
      | _ => simp only [given, outputs_event, ih]

end Journal

theorem Progress.record_describe_of_mem {progress : Progress} {here : Address}
    (h : here ∈ progress.described) : progress.record (.describe here) = progress := by
  simp [Progress.record, Metrics.record, noteDescribed, h]

theorem Progress.described_record_describe {progress : Progress} {here : Address}
    (h : here ∉ progress.described) :
    (progress.record (.describe here)).described = here :: progress.described := by
  simp [Progress.record, noteDescribed, h]

/-- Progress does not tell whether a description is called for again. -/
theorem Journal.foldl_record_given (journal : Journal) (progress : Progress) :
    (journal.given progress.described).events.foldl Progress.record progress =
      journal.events.foldl Progress.record progress := by
  induction journal generalizing progress with
  | nil => rfl
  | cons entry later ih =>
    cases entry with
    | found out => exact ih progress
    | event e =>
      cases e with
      | describe here =>
        simp only [given, events_event, List.foldl_cons]
        split
        · next hmem =>
          rw [Progress.record_describe_of_mem hmem]
          exact ih progress
        -- from here on it counts as described, on both sides
        · next hmem =>
          rw [events_event, List.foldl_cons, ← Progress.described_record_describe hmem]
          exact ih _
      | _ => exact ih (progress.record _)

/-! ## The journal of a run -/

namespace Run

theorem log_event (e : Event) (rest : Unit → Run Output) :
    (Run.event e rest).log = .event e :: (rest ()).log := rfl

theorem log_output (out : Output) (rest : Unit → Run Output) :
    (Run.output out rest).log = .found out :: (rest ()).log := rfl

theorem events_log (run : Run Output) : run.log.events = run.events := by
  induction run with
  | done => rfl
  | fault f => rfl
  | event e rest ih => rw [log_event, Journal.events_event, events, ih ()]
  | output out rest ih => rw [log_output, Journal.events_found, events, ih ()]

theorem outputs_log (run : Run Output) : run.log.outputs = run.outputs := by
  induction run with
  | done => rfl
  | fault f => rfl
  | event e rest ih => rw [log_event, Journal.outputs_event, outputs, ih ()]
  | output out rest ih => rw [log_output, Journal.outputs_found, outputs, ih ()]

theorem log_take (run : Run Output) (count : Nat) : (run.take count).log = run.log.upTo count := by
  induction run generalizing count with
  | done => cases count <;> rfl
  | fault f => cases count <;> rfl
  | event e rest ih =>
    cases count with
    | zero => rfl
    | succ count => rw [take, log_event, log_event, ih (), Journal.upTo]
  | output out rest ih =>
    cases count with
    | zero => rfl
    | succ count => rw [take, log_output, log_output, ih (), Journal.upTo]

theorem take_take {α : Type} (run : Run α) (first second : Nat) :
    (run.take first).take second = run.take (min second first) := by
  induction run generalizing first second with
  | done => cases first <;> cases second <;> simp [take]
  | fault f => cases first <;> cases second <;> simp [take]
  | event e rest ih =>
    cases first with
    | zero => cases second <;> simp [take]
    | succ first =>
      cases second with
      | zero => simp [take_zero]
      | succ second => simp only [take, ih, Nat.add_min_add_right]
  | output a rest ih =>
    cases first with
    | zero => cases second <;> simp [take]
    | succ first =>
      cases second with
      | zero => simp [take_zero]
      | succ second => simp only [take, ih, Nat.add_min_add_right]

theorem fault?_take {α : Type} {run : Run α} (h : run.fault? = none) (count : Nat) :
    (run.take count).fault? = none := by
  induction run generalizing count with
  | done => cases count <;> rfl
  | fault f => simp [fault?] at h
  | event e rest ih =>
    cases count with
    | zero => rfl
    | succ count => exact ih () h (count + 1)
  | output a rest ih =>
    cases count with
    | zero => rfl
    | succ count => exact ih () h count

/-- **One pull.** On a run that ends well, it goes on to the end if there is no output left; otherwise to the
next output, and the events of later pulls are those of the rest. -/
theorem pull_cases {α : Type} {run : Run α} (h : run.fault? = none) (progress : Progress) :
    (run.outputs = [] ∧ run.pull progress = (.exhausted, run.events.foldl Progress.record progress) ∧
      ∀ count, (run.take (count + 1)).events = run.events) ∨
    ∃ a rest, run.outputs = a :: rest.outputs ∧ rest.fault? = none ∧
      run.pull progress = (.output a rest, (run.take 1).events.foldl Progress.record progress) ∧
      ∀ count, (run.take (count + 1)).events = (run.take 1).events ++ (rest.take count).events := by
  induction run generalizing progress with
  | done => exact .inl ⟨rfl, rfl, fun _ => rfl⟩
  | fault f => simp [fault?] at h
  -- an event belongs to the pull that goes on to the output after it
  | event e rest ih =>
    rcases ih () h (progress.record e) with ⟨houtputs, hpull, hevents⟩ | ⟨a, last, houtputs, hfault, hpull, hevents⟩
    · refine .inl ⟨houtputs, hpull, fun count => ?_⟩
      rw [take, events, events, hevents count]
    · refine .inr ⟨a, last, houtputs, hfault, hpull, fun count => ?_⟩
      rw [take, take, events, events, hevents count, List.cons_append]
  | output a rest ih =>
    refine .inr ⟨a, rest (), rfl, h, ?_, fun count => ?_⟩
    · rw [pull, take, events, take_zero]
      rfl
    · rw [take, take, events, events, take_zero]
      rfl

end Run

/-! ## Pulling on streams -/

/-- Pull on streams in the order of a list of places. Gives all answers, and the streams afterwards. -/
def Streams.pullAll (streams : Streams) : List Nat → List (Except Fault (Option Output)) × Streams
  | [] => ([], streams)
  | place :: later =>
    let (answer, after) := streams.pull place
    let (answers, last) := after.pullAll later
    (answer :: answers, last)

/-- **Any number of pulls** on a single stream that ends well: its outputs one after the other, and then
nothing any more; and the events of as many outputs. -/
theorem Streams.pullAll_replicate {run : Run Output} (h : run.fault? = none) (progress : Progress)
    (count : Nat) :
    ((Streams.mk [run] progress).pullAll (List.replicate count 0)).1 =
        (List.range count).map (fun i => .ok run.outputs[i]?) ∧
      ((Streams.mk [run] progress).pullAll (List.replicate count 0)).2.progress =
        (run.take count).events.foldl Progress.record progress := by
  induction count generalizing run progress with
  | zero => exact ⟨rfl, by rw [Run.take_zero]; rfl⟩
  | succ count ih =>
    rw [List.replicate_succ, List.range_succ_eq_map, List.map_cons, List.map_map]
    rcases Run.pull_cases h progress with ⟨houtputs, hpull, hevents⟩ | ⟨a, rest, houtputs, hfault, hpull, hevents⟩
    -- the stream is over: the pulls that follow find the empty run in its place
    · have hstep : (Streams.mk [run] progress).pull 0 =
          (.ok none, ⟨[.done], run.events.foldl Progress.record progress⟩) := by
        simp only [Streams.pull, List.getElem?_cons_zero, hpull, List.set_cons_zero]
      obtain ⟨hanswers, hprogress⟩ := @ih .done rfl (run.events.foldl Progress.record progress)
      have hdone : (Run.done.take count : Run Output).events = [] := by cases count <;> rfl
      simp only [Streams.pullAll, hstep, hanswers, hprogress, hevents count, houtputs, hdone]
      exact ⟨rfl, rfl⟩
    · have hstep : (Streams.mk [run] progress).pull 0 =
          (.ok (some a), ⟨[rest], (run.take 1).events.foldl Progress.record progress⟩) := by
        simp only [Streams.pull, List.getElem?_cons_zero, hpull, List.set_cons_zero]
      obtain ⟨hanswers, hprogress⟩ := ih hfault ((run.take 1).events.foldl Progress.record progress)
      simp only [Streams.pullAll, hstep, hanswers, hprogress, hevents count, houtputs, List.foldl_append, and_true]
      rfl

/-! ## Pulling on the stream of a pass -/

/-- What happens while input is read in a pass, from first to last, with the descriptions that are there
already. -/
def Pass.journal (pass : Pass n) (input : Text) : Journal :=
  (pass.explore input).given pass.progress.described

theorem Pass.foldl_events_take {pass : Pass n} (hquiet : pass.context.phrases.Quiet) (input : Text)
    (count : Nat) :
    ((pass.unlimited input).take count).events.foldl Progress.record pass.progress =
      ((pass.journal input).upTo count).events.foldl Progress.record pass.progress := by
  have hlog := Pass.log_unlimited (Pass.fault?_unlimited hquiet input)
  rw [← Run.events_log, Run.log_take, hlog, Pass.journal, Journal.upTo_given, Journal.foldl_record_given]

theorem Pass.outputs_journal {pass : Pass n} (hquiet : pass.context.phrases.Quiet) (input : Text) :
    (pass.journal input).outputs = (pass.unlimited input).outputs := by
  have hlog := Pass.log_unlimited (Pass.fault?_unlimited hquiet input)
  rw [Pass.journal, Journal.outputs_given, ← hlog, Run.outputs_log]

/-- **Laziness is exact.** Take a pass in which no phrase function gives up, whatever it has done so far, and
the journal of an eager search for an input.

- A stream is the journal of the search, entry by entry, as far as the limit goes.
- Creating a stream does nothing, whatever the limit.
- Without limit, the pulls give the outputs of the journal one after the other and then nothing any more; after
  so many pulls, exactly that part of the journal has happened which goes through as many outputs.
- That is all of it once a pull has given nothing, so no further pull does anything.
- With a limit, the pulls give the first so many of these outputs and then nothing any more; what has happened
  after a number of pulls is what happens without limit in as many pulls, or in the limit's number of pulls if
  that is less. -/
theorem pulls_follow_journal (pass : Pass n) (hquiet : pass.context.phrases.Quiet) (input : Text) :
    let journal := pass.journal input
    let stream (limit : Option Nat) := { pass with limit }.stream input
    let streams (limit : Option Nat) := Streams.ofInputs { pass with limit } [input]
    let after (limit : Option Nat) (pulls : Nat) := (streams limit).pullAll (List.replicate pulls 0)
    ((stream none).log = pass.explore input ∧
      ∀ limit, (stream (some limit)).log = (pass.explore input).upTo limit) ∧
    (∀ limit, (streams limit).progress = pass.progress) ∧
    (∀ pulls, (after none pulls).1 = (List.range pulls).map (fun i => .ok journal.outputs[i]?) ∧
      (after none pulls).2.progress = (journal.upTo pulls).events.foldl Progress.record pass.progress) ∧
    (∀ pulls, journal.outputs.length < pulls → journal.upTo pulls = journal) ∧
    ∀ limit pulls,
      (after (some limit) pulls).1 =
          (List.range pulls).map (fun i => .ok (journal.outputs.take limit)[i]?) ∧
        (after (some limit) pulls).2.progress = (after none (min pulls limit)).2.progress := by
  intro journal stream streams after
  have hfault : (pass.unlimited input).fault? = none := Pass.fault?_unlimited hquiet input
  have hlog : (pass.unlimited input).log = pass.explore input := Pass.log_unlimited hfault
  have hnone (pulls : Nat) := Streams.pullAll_replicate hfault pass.progress pulls
  refine ⟨⟨hlog, fun limit => ?_⟩, fun limit => rfl, fun pulls => ?_, fun pulls => Journal.upTo_of_lt,
    fun limit pulls => ?_⟩
  · rw [← hlog]
    exact Run.log_take _ limit
  · refine ⟨(hnone pulls).1.trans ?_, (hnone pulls).2.trans (Pass.foldl_events_take hquiet input pulls)⟩
    rw [Pass.outputs_journal hquiet]
  · have hsome := Streams.pullAll_replicate (Run.fault?_take hfault limit) pass.progress pulls
    refine ⟨hsome.1.trans ?_, hsome.2.trans ?_⟩
    · rw [Run.outputs_take, Pass.outputs_journal hquiet]
    · rw [Run.take_take]
      exact (hnone (min pulls limit)).2.symm

def paintPass : Pass 1 := ⟨paintContext, [paintRoot], none, {}⟩

/-- With a limit of one, "rose" is never looked at, however often one pulls. -/
theorem paintPass_stops_at_red :
    let pulled := (Streams.ofInputs { paintPass with limit := some 1 } ["paint r".toList]).pullAll
      (List.replicate 3 0)
    pulled.1.map (fun answer => answer.toOption.map (·.map (·.text))) =
        [some (some "paint red".toList), some none, some none] ∧
      pulled.2.progress.metrics = { outputs := 1, nodes := 5, literals := 2, depth := 1 } := by
  have hquiet : paintPass.context.phrases.Quiet := by
    rintro phrase f (h | ⟨h, -⟩ | h) <;> cases h
  obtain ⟨-, -, hpulls, -, hlimit⟩ := pulls_follow_journal paintPass hquiet "paint r".toList
  obtain ⟨hanswers, hprogress⟩ := hlimit 1 3
  rw [(hpulls (min 3 1)).2] at hprogress
  dsimp only at hanswers hprogress ⊢
  rw [hanswers, hprogress]
  decide +kernel

end Typeahead
