import Mathlib.Data.String.Basic
import Typeahead.Proofs.Enumeration
import Typeahead.Proofs.Provenance

/-!
# The value of a sequence

A sequence gathers the values of its children into one object, from left to right. A child whose value is an object
adds all fields of it; any other value but `null` is added under the position of its child; `null` adds nothing. So
under each name stands what the last child that adds something there has added. Main statement:
`Context.sequence_merges_children`.
-/

namespace Typeahead

/-! ## Fields put in one after the other -/

namespace Fields

variable {α : Type}

theorem get?_append (fields later : Fields α) (name : String) :
    get? (fields ++ later) name = (get? fields name).or (get? later name) := by
  induction fields with
  | nil => rfl
  | cons entry rest ih =>
    obtain ⟨key, a⟩ := entry
    simp only [List.cons_append, get?]
    by_cases hkey : key = name
    · simp [hkey]
    · simpa [hkey] using ih

/-- **Look-up after insertions**: the last entry of a name wins, and the old things stay under all other names. -/
theorem get?_insertAll (fields : Fields α) (entries : List (String × α)) (name : String) :
    (fields.insertAll entries).get? name = (get? entries.reverse name).or (fields.get? name) := by
  induction entries generalizing fields with
  | nil => simp [insertAll]
  | cons entry rest ih =>
    obtain ⟨key, a⟩ := entry
    have hstep : fields.insertAll ((key, a) :: rest) = (fields.insert key a).insertAll rest := rfl
    rw [hstep, ih, get?_insert, List.reverse_cons, get?_append, Option.or_assoc]
    by_cases hkey : key = name
    · simp [get?, hkey]
    · simp [get?, hkey]

/-- Names in ascending order; so no name occurs twice. -/
def Ascending (fields : Fields α) : Prop := fields.Pairwise fun entry later => entry.1 < later.1

theorem mem_insert {fields : Fields α} {name : String} {a : α} {entry : String × α}
    (h : entry ∈ fields.insert name a) : entry.1 = name ∨ entry ∈ fields := by
  induction fields with
  | nil =>
    simp only [insert, List.mem_singleton] at h
    exact .inl (by rw [h])
  | cons first rest ih =>
    obtain ⟨key, b⟩ := first
    unfold insert at h
    by_cases hkey : key = name
    · simp only [hkey, if_true, List.mem_cons] at h
      rcases h with rfl | h
      · exact .inl rfl
      · exact .inr (List.mem_cons_of_mem _ h)
    · by_cases hbefore : name < key
      · simp only [hkey, hbefore, if_false, if_true, List.mem_cons] at h
        rcases h with rfl | h
        · exact .inl rfl
        · exact .inr (List.mem_cons.2 h)
      · simp only [hkey, hbefore, if_false, List.mem_cons] at h
        rcases h with rfl | h
        · exact .inr List.mem_cons_self
        · exact (ih h).imp_right (List.mem_cons_of_mem _)

theorem ascending_insert {fields : Fields α} (h : fields.Ascending) (name : String) (a : α) :
    (fields.insert name a).Ascending := by
  induction fields with
  | nil => simp [insert, Ascending]
  | cons first rest ih =>
    obtain ⟨key, b⟩ := first
    obtain ⟨hfirst, hrest⟩ := List.pairwise_cons.1 h
    unfold insert
    by_cases hkey : key = name
    · subst hkey
      rw [if_pos rfl]
      exact List.pairwise_cons.2 ⟨hfirst, hrest⟩
    · rw [if_neg hkey]
      by_cases hbefore : name < key
      · rw [if_pos hbefore]
        refine List.pairwise_cons.2 ⟨fun entry hentry => ?_, h⟩
        rcases List.mem_cons.1 hentry with rfl | hlater
        · exact hbefore
        · exact lt_trans hbefore (hfirst entry hlater)
      · rw [if_neg hbefore]
        refine List.pairwise_cons.2 ⟨fun entry hentry => ?_, ih hrest⟩
        rcases mem_insert hentry with hname | hlater
        · rw [hname]
          exact lt_of_le_of_ne (not_lt.1 hbefore) hkey
        · exact hfirst entry hlater

theorem ascending_insertAll {fields : Fields α} (h : fields.Ascending) (entries : List (String × α)) :
    (fields.insertAll entries).Ascending := by
  induction entries generalizing fields with
  | nil => exact h
  | cons entry rest ih => exact ih (ascending_insert h entry.1 entry.2)

theorem get?_eq_find? (fields : Fields α) (name : String) :
    get? fields name = (fields.find? (·.1 = name)).map (·.2) := by
  induction fields with
  | nil => rfl
  | cons entry rest ih =>
    obtain ⟨key, a⟩ := entry
    by_cases hkey : key = name
    · simp [get?, hkey]
    · simpa [get?, hkey] using ih

end Fields

/-! ## What children add -/

/-- What the value of the child at a position adds under a name. -/
def contributed (position : Nat) (value : Value) (name : String) : Option Value :=
  match value with
  | .obj fields => (fields.filter (·.1 = name)).getLast?.map (·.2)
  | .null => none
  | other => if toString position = name then some other else none

theorem get?_contribution (position : Nat) (value : Value) (name : String) :
    Fields.get? (Output.contribution position value).reverse name = contributed position value name := by
  cases value with
  | obj fields =>
    rw [Fields.get?_eq_find?, contributed, List.getLast?_eq_head?_reverse, ← List.filter_reverse, List.head?_filter]
    rfl
  | null => rfl
  | _ => rfl

/-- What is added last under a name by values in a row, the first of them at a position. -/
def lastContributed (name : String) : Nat → List Value → Option Value
  | _, [] => none
  | position, value :: rest => (lastContributed name (position + 1) rest).or (contributed position value name)

section

variable {first : Value} {rest : List Value} {P : Nat → Value → Prop}

theorem forall_getElem?_cons :
    (∀ i value, (first :: rest)[i]? = some value → P i value) ↔
      P 0 first ∧ ∀ i value, rest[i]? = some value → P (i + 1) value := by
  constructor
  · intro h
    exact ⟨h 0 first rfl, fun i value hvalue => h (i + 1) value hvalue⟩
  · rintro ⟨hfirst, hrest⟩ i value hvalue
    cases i with
    | zero =>
      cases hvalue
      exact hfirst
    | succ i => exact hrest i value hvalue

theorem exists_getElem?_cons :
    (∃ i value, (first :: rest)[i]? = some value ∧ P i value) ↔
      P 0 first ∨ ∃ i value, rest[i]? = some value ∧ P (i + 1) value := by
  constructor
  · rintro ⟨i, value, hvalue, hP⟩
    cases i with
    | zero =>
      cases hvalue
      exact .inl hP
    | succ i => exact .inr ⟨i, value, hvalue, hP⟩
  · rintro (hfirst | ⟨i, value, hvalue, hP⟩)
    · exact ⟨0, first, rfl, hfirst⟩
    · exact ⟨i + 1, value, hvalue, hP⟩

end

section

variable {name : String} {values : List Value}

theorem lastContributed_eq_none_iff {position : Nat} :
    lastContributed name position values = none ↔
      ∀ i value, values[i]? = some value → contributed (position + i) value name = none := by
  induction values generalizing position with
  | nil => simp [lastContributed]
  | cons first rest ih =>
    rw [lastContributed, Option.or_eq_none_iff, ih, forall_getElem?_cons, and_comm]
    simp only [Nat.add_right_comm, Nat.add_zero, Nat.add_assoc]

/-- What is added last is added by one child and by none after it. -/
theorem lastContributed_eq_some_iff {position : Nat} {v : Value} :
    lastContributed name position values = some v ↔
      ∃ i value, values[i]? = some value ∧ contributed (position + i) value name = some v ∧
        ∀ j later, values[j]? = some later → i < j → contributed (position + j) later name = none := by
  induction values generalizing position with
  | nil => simp [lastContributed]
  | cons first rest ih =>
    rw [lastContributed, Option.or_eq_some_iff, ih, lastContributed_eq_none_iff, exists_getElem?_cons, or_comm]
    have hshift (i : Nat) : position + 1 + i = position + (i + 1) := by omega
    simp only [forall_getElem?_cons, hshift]
    simp [and_comm]

end

/-- Fields that hold, under each name, what the last of some values adds there. -/
structure Merges (values : List Value) (fields : Fields Value) : Prop where
  ascending : fields.Ascending
  present : ∀ name v, fields.get? name = some v ↔
    ∃ i value, values[i]? = some value ∧ contributed i value name = some v ∧
      ∀ j later, values[j]? = some later → i < j → contributed j later name = none
  absent : ∀ name, fields.get? name = none ↔
    ∀ i value, values[i]? = some value → contributed i value name = none

theorem Merges.of_get? {values : List Value} {fields : Fields Value} (hascending : fields.Ascending)
    (h : ∀ name, fields.get? name = lastContributed name 0 values) : Merges values fields where
  ascending := hascending
  present name v := by
    rw [h, lastContributed_eq_some_iff]
    simp only [Nat.zero_add]
  absent name := by
    rw [h, lastContributed_eq_none_iff]
    simp only [Nat.zero_add]

/-! ## Sequences -/

/-- One step of a sequence: what the child adds stands in front of what was there. -/
theorem Output.get?_fields_merge (acc : Output) (position : Nat) (child : Output) (name : String) :
    Fields.get? (acc.merge position child).fields name =
      (contributed position child.result name).or (Fields.get? acc.fields name) := by
  rw [← get?_contribution, ← Fields.get?_insertAll]
  rfl

namespace Derivation

/-- The values of a sequence's children, each read on what the one before has left. -/
def resultsAll : List Derivation → Text → List Value
  | [], _ => []
  | d :: ds, input => (d.eval input).result :: resultsAll ds (d.eval input).remaining

/-- All steps of a sequence, from a position on. The object only grows by what the children add. -/
theorem evalAll_fields (ds : List Derivation) (position : Nat) {acc : Output}
    (hacc : acc.result = .obj acc.fields) (hascending : Fields.Ascending acc.fields) :
    (evalAll ds position acc).result = .obj (evalAll ds position acc).fields ∧
    Fields.Ascending (evalAll ds position acc).fields ∧
    ∀ name, Fields.get? (evalAll ds position acc).fields name =
      (lastContributed name position (resultsAll ds acc.remaining)).or (Fields.get? acc.fields name) := by
  induction ds generalizing position acc with
  | nil =>
    rw [evalAll]
    exact ⟨hacc, hascending, fun name => by rw [resultsAll, lastContributed, Option.none_or]⟩
  | cons d ds ih =>
    rw [evalAll]
    have hmerged : Fields.Ascending (acc.merge position (d.eval acc.remaining)).fields :=
      Fields.ascending_insertAll hascending _
    obtain ⟨hobject, hascends, hget⟩ := ih (position + 1) rfl hmerged
    refine ⟨hobject, hascends, fun name => ?_⟩
    rw [hget, Output.get?_fields_merge, resultsAll, lastContributed, Option.or_assoc, Output.remaining_merge]

/-- **A sequence merges the values of its children.** -/
theorem evalAll_merges (ds : List Derivation) (input : Text) :
    ∃ fields, (evalAll ds 0 (.seed input)).result = .obj fields ∧ Merges (resultsAll ds input) fields := by
  have hseed : Fields.Ascending (Output.seed input).fields := List.Pairwise.nil
  obtain ⟨hobject, hascending, hget⟩ := evalAll_fields ds 0 rfl hseed
  refine ⟨_, hobject, .of_get? hascending fun name => ?_⟩
  have hnone : Fields.get? (Output.seed input).fields name = none := rfl
  rw [hget, hnone, Option.or_none]
  rfl

end Derivation

namespace Context

variable {n : Nat} (ctx : Context n)

/-- **The value of a sequence is what its children add, and later ones win.** Take any sequence on any path, with any
input.

- Each output is the reading of one derivation for each child, with a name put over it if there is one.
- The value of such a reading is an object, however many children there are. Under each name stands what the last
  child that adds something there has added, also where the position of one child is a field of another; a name is
  missing exactly if no child adds anything under it.
- If the run ends well, each way to read all of the children gives one output, and that output is told by its own
  derivations alone. -/
theorem sequence_merges_children (label : Option String) (children : List (Node n)) (here : Address) (trace : Trace)
    (input : Text) :
    (∀ out ∈ (ctx.resolveTraced ⟨here, .sequence label children⟩ trace input).outputs,
      ∃ ds, DerivesAll ctx children trace input ds ∧
        out = (Derivation.evalAll ds 0 (.seed input)).labelIf label) ∧
    (∀ ds, DerivesAll ctx children trace input ds →
      ∃ fields, (Derivation.evalAll ds 0 (.seed input)).result = .obj fields ∧
        Merges (Derivation.resultsAll ds input) fields) ∧
    ((ctx.resolveTraced ⟨here, .sequence label children⟩ trace input).fault? = none →
      ∃ all : List (List Derivation), all.Nodup ∧ (∀ ds, ds ∈ all ↔ DerivesAll ctx children trace input ds) ∧
        (ctx.resolveTraced ⟨here, .sequence label children⟩ trace input).outputs =
          all.map fun ds => (Derivation.evalAll ds 0 (.seed input)).labelIf label) := by
  refine ⟨fun out hout => ?_, fun ds _ => Derivation.evalAll_merges ds input, fun hfault => ?_⟩
  · obtain ⟨d, hd, rfl⟩ := (ctx.yields_resolveTraced _ trace input).outputs out hout
    cases hd with
    | sequence hds => exact ⟨_, hds, by rw [Derivation.eval]⟩
  · rw [ctx.resolveTraced_eq] at hfault ⊢
    simp only [Node.read, Run.outputs, outputs_putLabel, Run.fault?, fault?_putLabel] at hfault ⊢
    have hread (child : Node n) (here : Address) (rest : Text) :=
      enumerates_read (fun here label e rest _ => ctx.enumerates_expand trace rest here label e) child here
        (List.suffix_refl rest)
    obtain ⟨all, houtputs, hall, hprecedes⟩ :=
      lists_readSequence (fun child _ here rest _ => hread child here rest) 0 here (List.suffix_refl input) hfault
    refine ⟨all, hprecedes.imp fun hlt heq => ?_, hall, ?_⟩
    · exact absurd (heq ▸ hlt.lt) (List.lt_irrefl _)
    · rw [houtputs, List.map_map]
      rfl

end Context

def tallyContext : Context 0 := { phrases := nofun, registry := {}, leniency := {} }

/-- Three literals: the value of the first one has a field with the name of the second one's position, and the last
one has no value. -/
def tallyChildren : List (Node 0) :=
  [.literal none { text := "a".toList, value := some (.obj [("1", .str "first"), ("b", .int 1)]) },
    .literal none { text := "b".toList, value := some (.int 2) },
    .literal none { text := "c".toList }]

/-- The second child takes the place of the field that the first one has added. -/
theorem tally_merges_children :
    (∃ out ∈ (tallyContext.resolveTraced ⟨⟨0, []⟩, .sequence (some "tally") tallyChildren⟩ [] "ab".toList).outputs,
      out.result = .obj [("tally", .obj [("1", .int 2), ("b", .int 1)])] ∧
      ∃ ds, DerivesAll tallyContext tallyChildren [] "ab".toList ds ∧
        out = (Derivation.evalAll ds 0 (.seed "ab".toList)).labelIf (some "tally") ∧
        ∃ fields, (Derivation.evalAll ds 0 (.seed "ab".toList)).result = .obj fields ∧
          Merges (Derivation.resultsAll ds "ab".toList) fields) ∧
      ∃ all : List (List Derivation), all.Nodup ∧
        (∀ ds, ds ∈ all ↔ DerivesAll tallyContext tallyChildren [] "ab".toList ds) := by
  obtain ⟨hderived, hmerges, hall⟩ :=
    tallyContext.sequence_merges_children (some "tally") tallyChildren ⟨0, []⟩ [] "ab".toList
  have hresults : (tallyContext.resolveTraced ⟨⟨0, []⟩, .sequence (some "tally") tallyChildren⟩ []
      "ab".toList).outputs.map (·.result) = [.obj [("tally", .obj [("1", .int 2), ("b", .int 1)])]] := by
    rfl
  obtain ⟨out, hout, hresult⟩ := List.mem_map.1 (hresults ▸ List.mem_singleton_self _)
  obtain ⟨ds, hds, heval⟩ := hderived out hout
  obtain ⟨all, hnodup, hmem, -⟩ := hall rfl
  exact ⟨⟨out, hout, hresult, ds, hds, heval, hmerges ds hds⟩, all, hnodup, hmem⟩

end Typeahead
