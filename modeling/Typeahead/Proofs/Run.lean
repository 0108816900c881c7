import Typeahead.Progress

/-!
# Joined runs

How the three views of a run (events, outputs, fault) go through joining and extending. A run that ends
well shows all of its parts, so its outputs are those of the parts in order (`outputs_bind`,
`outputs_ofList`). What is to hold of everything in a run, whether it ends well or not, is said with
`Run.Always`.
-/

namespace Typeahead.Run

variable {α β γ : Type}

/-! ## Runs that end well -/

@[simp] theorem outputs_ofOption (option : Option α) : (ofOption option).outputs = option.toList := by
  cases option <;> rfl

@[simp] theorem fault?_map (f : α → β) (run : Run α) : (run.map f).fault? = run.fault? := by
  induction run with
  | done => rfl
  | fault => rfl
  | event e rest ih => exact ih ()
  | output a rest ih => exact ih ()

theorem fault?_append_eq_none {run : Run α} {next : Unit → Run α} :
    (run.append next).fault? = none ↔ run.fault? = none ∧ (next ()).fault? = none := by
  induction run with
  | done => simp [append, fault?]
  | fault f => simp [append, fault?]
  | event e rest ih => exact ih ()
  | output a rest ih => exact ih ()

theorem fault?_bind_eq_none {run : Run α} {k : α → Run β} :
    (run.bind k).fault? = none ↔ run.fault? = none ∧ ∀ a ∈ run.outputs, (k a).fault? = none := by
  induction run with
  | done => simp [bind, fault?, outputs]
  | fault f => simp [bind, fault?]
  | event e rest ih => exact ih ()
  | output a rest ih =>
    simp only [bind, fault?_append_eq_none, ih (), fault?, outputs, List.mem_cons, forall_eq_or_imp]
    exact and_left_comm

theorem fault?_ofList_eq_none {items : List β} {run : β → Run α} :
    (ofList items run).fault? = none ↔ ∀ item ∈ items, (run item).fault? = none := by
  induction items with
  | nil => simp [ofList, fault?]
  | cons item rest ih => simp [ofList, fault?_append_eq_none, ih]

theorem outputs_bind {run : Run α} {k : α → Run β} (h : (run.bind k).fault? = none) :
    (run.bind k).outputs = run.outputs.flatMap fun a => (k a).outputs := by
  induction run with
  | done => rfl
  | fault f => simp [bind, fault?] at h
  | event e rest ih => exact ih () h
  | output a rest ih =>
    obtain ⟨hfirst, hrest⟩ := fault?_append_eq_none.1 h
    simp only [bind, outputs, List.flatMap_cons]
    rw [outputs_append _ _ hfirst, ih () hrest]

theorem outputs_ofList {items : List β} {run : β → Run α} (h : (ofList items run).fault? = none) :
    (ofList items run).outputs = items.flatMap fun item => (run item).outputs := by
  induction items with
  | nil => rfl
  | cons item rest ih =>
    obtain ⟨hfirst, hrest⟩ := fault?_append_eq_none.1 h
    simp only [ofList, List.flatMap_cons]
    rw [outputs_append _ _ hfirst, ih hrest]

/-- Draining a run gives its outputs if it ends well, and its fault if it does not. -/
theorem drainOnto_outcome (run : Run α) (acc : List α) (progress : Progress) :
    (run.drainOnto acc progress).1 =
      match run.fault? with
      | none => .ok (acc.reverse ++ run.outputs)
      | some f => .error f := by
  induction run generalizing acc progress with
  | done => simp [drainOnto, fault?, outputs]
  | fault f => rfl
  | event e rest ih => exact ih () acc _
  | output a rest ih =>
    simp only [drainOnto, ih (), fault?, outputs]
    split <;> simp

theorem drain_eq_ok_iff {run : Run α} {progress : Progress} {found : List α} :
    (run.drain progress).1 = .ok found ↔ run.fault? = none ∧ run.outputs = found := by
  rw [drain, drainOnto_outcome]
  split
  · next h => simp [h]
  · next h => simp [h]

/-! ## Laws of joining -/

theorem append_assoc (run : Run α) (next last : Unit → Run α) :
    (run.append next).append last = run.append fun _ => (next ()).append last := by
  induction run with
  | done => rfl
  | fault f => rfl
  | event e rest ih => exact congrArg (Run.event e) (funext fun _ => ih ())
  | output a rest ih => exact congrArg (Run.output a) (funext fun _ => ih ())

theorem append_done (run : Run α) : (run.append fun _ => .done) = run := by
  induction run with
  | done => rfl
  | fault f => rfl
  | event e rest ih => exact congrArg (Run.event e) (funext fun _ => ih ())
  | output a rest ih => exact congrArg (Run.output a) (funext fun _ => ih ())

theorem append_bind (run : Run α) (next : Unit → Run α) (k : α → Run β) :
    (run.append next).bind k = (run.bind k).append fun _ => (next ()).bind k := by
  induction run with
  | done => rfl
  | fault f => rfl
  | event e rest ih => exact congrArg (Run.event e) (funext fun _ => ih ())
  | output a rest ih => simp only [append, bind, ih (), append_assoc]

theorem bind_assoc (run : Run α) (k : α → Run β) (l : β → Run γ) :
    (run.bind k).bind l = run.bind fun a => (k a).bind l := by
  induction run with
  | done => rfl
  | fault f => rfl
  | event e rest ih => exact congrArg (Run.event e) (funext fun _ => ih ())
  | output a rest ih => simp only [bind, append_bind, ih ()]

theorem take_zero (run : Run α) : run.take 0 = .done := by cases run <;> rfl

theorem pure_bind (a : α) (k : α → Run β) : (pure a).bind k = k a := append_done (k a)

theorem ofList_append (items later : List β) (run : β → Run α) :
    ofList (items ++ later) run = (ofList items run).append fun _ => ofList later run := by
  induction items with
  | nil => rfl
  | cons item rest ih => simp only [List.cons_append, ofList, ih, append_assoc]

theorem ofList_map (f : γ → β) (items : List γ) (run : β → Run α) :
    ofList (items.map f) run = ofList items fun item => run (f item) := by
  induction items with
  | nil => rfl
  | cons item rest ih => simp only [List.map_cons, ofList, ih]

theorem ofList_bind (items : List β) (run : β → Run α) (k : α → Run γ) :
    (ofList items run).bind k = ofList items fun item => (run item).bind k := by
  induction items with
  | nil => rfl
  | cons item rest ih => simp only [ofList, append_bind, ih]

/-! ## Equal extensions -/

/-- Only what is done with the outputs matters. -/
theorem bind_congr {run : Run α} {k k' : α → Run β} (h : ∀ a ∈ run.outputs, k a = k' a) :
    run.bind k = run.bind k' := by
  induction run with
  | done => rfl
  | fault f => rfl
  | event e rest ih => simp only [bind, ih () h]
  | output a rest ih =>
    simp only [outputs, List.mem_cons, forall_eq_or_imp] at h
    simp only [bind, h.1, ih () h.2]

theorem ofList_congr {items : List β} {run run' : β → Run α} (h : ∀ item ∈ items, run item = run' item) :
    ofList items run = ofList items run' := by
  induction items with
  | nil => rfl
  | cons item rest ih =>
    rw [List.forall_mem_cons] at h
    simp only [ofList, h.1, ih h.2]

/-! ## What holds throughout a run -/

/-- Every event, the fault and every output of a run are as they should be. -/
def Always (event : Event → Prop) (fault : Fault → Prop) (output : α → Prop) : Run α → Prop
  | .done => True
  | .fault f => fault f
  | .event e rest => event e ∧ (rest ()).Always event fault output
  | .output a rest => output a ∧ (rest ()).Always event fault output

variable {event : Event → Prop} {fault : Fault → Prop} {output : α → Prop} {output' : β → Prop}

theorem Always.events {run : Run α} (h : run.Always event fault output) : ∀ e ∈ run.events, event e := by
  induction run with
  | done => simp [Run.events]
  | fault f => simp [Run.events]
  | event e rest ih =>
    simp only [Run.events, List.mem_cons, forall_eq_or_imp]
    exact ⟨h.1, ih () h.2⟩
  | output a rest ih => exact ih () h.2

theorem Always.outputs {run : Run α} (h : run.Always event fault output) :
    ∀ a ∈ run.outputs, output a := by
  induction run with
  | done => simp [Run.outputs]
  | fault f => simp [Run.outputs]
  | event e rest ih => exact ih () h.2
  | output a rest ih =>
    simp only [Run.outputs, List.mem_cons, forall_eq_or_imp]
    exact ⟨h.1, ih () h.2⟩

theorem Always.fault? {run : Run α} (h : run.Always event fault output) :
    ∀ f, run.fault? = some f → fault f := by
  induction run with
  | done => simp [Run.fault?]
  | fault g => intro f hf; cases hf; exact h
  | event e rest ih => exact ih () h.2
  | output a rest ih => exact ih () h.2

theorem always_pure {a : α} (h : output a) : (pure a).Always event fault output := ⟨h, trivial⟩

theorem always_ofOption {option : Option α} (h : ∀ a, option = some a → output a) :
    (ofOption option).Always event fault output := by
  cases option with
  | none => trivial
  | some a => exact always_pure (h a rfl)

theorem Always.imp {run : Run α} {weaker : α → Prop} (h : run.Always event fault output)
    (himp : ∀ a, output a → weaker a) : run.Always event fault weaker := by
  induction run with
  | done => trivial
  | fault f => exact h
  | event e rest ih => exact ⟨h.1, ih () h.2⟩
  | output a rest ih => exact ⟨himp a h.1, ih () h.2⟩

theorem Always.append {run : Run α} {next : Unit → Run α} (h : run.Always event fault output)
    (hnext : (next ()).Always event fault output) : (run.append next).Always event fault output := by
  induction run with
  | done => exact hnext
  | fault f => exact h
  | event e rest ih => exact ⟨h.1, ih () h.2⟩
  | output a rest ih => exact ⟨h.1, ih () h.2⟩

theorem Always.bind {run : Run α} {k : α → Run β} (h : run.Always event fault output)
    (hk : ∀ a, output a → (k a).Always event fault output') : (run.bind k).Always event fault output' := by
  induction run with
  | done => trivial
  | fault f => exact h
  | event e rest ih => exact ⟨h.1, ih () h.2⟩
  | output a rest ih => exact (hk a h.1).append (ih () h.2)

theorem Always.map {run : Run α} {f : α → β} (h : run.Always event fault output)
    (hf : ∀ a, output a → output' (f a)) : (run.map f).Always event fault output' := by
  induction run with
  | done => trivial
  | fault f => exact h
  | event e rest ih => exact ⟨h.1, ih () h.2⟩
  | output a rest ih => exact ⟨hf a h.1, ih () h.2⟩

theorem always_ofList {items : List β} {run : β → Run α}
    (h : ∀ item ∈ items, (run item).Always event fault output) :
    (ofList items run).Always event fault output := by
  induction items with
  | nil => trivial
  | cons item rest ih =>
    simp only [List.mem_cons, forall_eq_or_imp] at h
    exact h.1.append (ih h.2)

/-! ## Pulling -/

/-- What the last of `count + 1` pulls in a row gives. -/
def pullOn (run : Run α) (progress : Progress) : Nat → Pulled α × Progress
  | 0 => run.pull progress
  | count + 1 =>
    match run.pull progress with
    | (.output _ rest, progress) => pullOn rest progress count
    | ended => ended

theorem pull_of_outputs_nil {run : Run α} (houtputs : run.outputs = []) (hfault : run.fault? = none)
    (progress : Progress) : (run.pull progress).1 = .exhausted := by
  induction run generalizing progress with
  | done => rfl
  | fault f => simp [Run.fault?] at hfault
  | event e rest ih => exact ih () houtputs hfault _
  | output a rest ih => simp [Run.outputs] at houtputs

theorem pull_of_outputs_cons {run : Run α} {a : α} {later : List α} (houtputs : run.outputs = a :: later)
    (progress : Progress) :
    ∃ rest, (run.pull progress).1 = .output a rest ∧ rest.outputs = later ∧ rest.fault? = run.fault? := by
  induction run generalizing progress with
  | done => simp [Run.outputs] at houtputs
  | fault f => simp [Run.outputs] at houtputs
  | event e rest ih => exact ih () houtputs _
  | output b rest ih =>
    simp only [Run.outputs, List.cons.injEq] at houtputs
    obtain ⟨rfl, rfl⟩ := houtputs
    exact ⟨rest (), rfl, rfl, rfl⟩

theorem pullOn_length_outputs {run : Run α} (h : run.fault? = none) (progress : Progress) :
    (run.pullOn progress run.outputs.length).1 = .exhausted := by
  induction houtputs : run.outputs generalizing run progress with
  | nil => exact pull_of_outputs_nil houtputs h progress
  | cons a later ih =>
    obtain ⟨rest, hpull, hrest, hfault⟩ := pull_of_outputs_cons houtputs progress
    obtain ⟨progress', hstep⟩ : ∃ progress', run.pull progress = (.output a rest, progress') :=
      ⟨_, Prod.ext hpull rfl⟩
    simp only [List.length_cons, pullOn, hstep]
    exact ih (hfault.trans h) progress' hrest

/-- What every event of a run keeps, pulling keeps; and the rest of the run is as the run was. -/
theorem Always.pull (inv : Progress → Prop) {run : Run α} (h : run.Always event fault output)
    (hrecord : ∀ e progress, event e → inv progress → inv (progress.record e)) {progress : Progress}
    (hinv : inv progress) :
    inv (run.pull progress).2 ∧
      ∀ a rest, (run.pull progress).1 = .output a rest → rest.Always event fault output := by
  induction run generalizing progress with
  | done => exact ⟨hinv, nofun⟩
  | fault f => exact ⟨hinv, nofun⟩
  | event e rest ih => exact ih () h.2 (hrecord e progress h.1 hinv)
  | output a rest ih =>
    refine ⟨hinv, fun b rest' heq => ?_⟩
    cases heq
    exact h.2

theorem Always.pullOn (inv : Progress → Prop) {run : Run α} (h : run.Always event fault output)
    (hrecord : ∀ e progress, event e → inv progress → inv (progress.record e)) {progress : Progress}
    (hinv : inv progress) (count : Nat) : inv (run.pullOn progress count).2 := by
  induction count generalizing run progress with
  | zero => exact (h.pull inv hrecord hinv).1
  | succ count ih =>
    obtain ⟨hafter, hrest⟩ := h.pull inv hrecord hinv
    simp only [Run.pullOn]
    split
    · next a rest progress' heq =>
      rw [heq] at hafter hrest
      exact ih (hrest a rest rfl) hafter
    · exact hafter

end Typeahead.Run
