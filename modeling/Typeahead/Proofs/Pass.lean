import Typeahead.Proofs.Reading
import Typeahead.Session.Pass

/-!
# What a pass finds

The findings of a whole pass are the outputs of its stream, if the stream ends well (`parse_eq_ok`). Without
a limit these are the readings of all sentences that leave nothing of the input (`mem_outputs_unlimited`).
-/

namespace Typeahead

variable {n : Nat}

namespace Pass

theorem fault?_handOut (out : Output) : (handOut out).fault? = none := by
  rw [handOut]
  split <;> rfl

theorem outputs_handOut (out : Output) :
    (handOut out).outputs = if out.isComplete then [out] else [] := by
  rw [handOut]
  split <;> rfl

theorem fault?_unlimited_eq_none {pass : Pass n} {input : Text} :
    (pass.unlimited input).fault? = none ↔
      ∀ sentence ∈ pass.sentences, (pass.context.resolve sentence input).fault? = none := by
  rw [unlimited, Run.fault?_bind_eq_none, Run.fault?_ofList_eq_none]
  exact and_iff_left fun out _ => fault?_handOut out

theorem mem_outputs_unlimited {pass : Pass n} {input : Text} {out : Output}
    (h : (pass.unlimited input).fault? = none) :
    out ∈ (pass.unlimited input).outputs ↔
      ∃ sentence ∈ pass.sentences, out ∈ (pass.context.resolve sentence input).outputs ∧
        out.isComplete = true := by
  have hsentences := (Run.fault?_bind_eq_none.1 h).1
  rw [unlimited, Run.outputs_bind h, Run.outputs_ofList hsentences]
  simp only [List.mem_flatMap, outputs_handOut]
  constructor
  · rintro ⟨found, ⟨sentence, hsentence, hfound⟩, hout⟩
    split at hout
    · next hcomplete =>
      cases List.mem_singleton.1 hout
      exact ⟨sentence, hsentence, hfound, hcomplete⟩
    · cases hout
  · rintro ⟨sentence, hsentence, hfound, hcomplete⟩
    refine ⟨out, ⟨sentence, hsentence, hfound⟩, ?_⟩
    rw [if_pos hcomplete]
    exact List.mem_singleton_self out

theorem fault?_unlimited {pass : Pass n} (h : pass.context.phrases.Quiet) (input : Text) :
    (pass.unlimited input).fault? = none :=
  fault?_unlimited_eq_none.2 fun sentence _ => pass.context.fault?_resolveTraced h sentence [] input

end Pass

namespace Session

theorem stream_of_no_limit {session : Session n} (hlimit : session.settings.limit = none) (input : Text) :
    session.pass.stream input = session.pass.unlimited input := by
  simp only [Pass.stream, pass, hlimit]

/-- A pass that ends well finds what its stream gives out. -/
theorem parse_eq_ok {session : Session n} {input : Text} {findings : Findings}
    (h : (session.parse input).1 = .ok findings) :
    (session.pass.stream input).fault? = none ∧
      findings.outputs = (session.pass.stream input).outputs := by
  simp only [parse] at h
  cases hdrain : ((session.pass.stream input).drain session.pass.progress).1 with
  | error f => simp [hdrain, Except.map] at h
  | ok outputs =>
    obtain ⟨hfault, houtputs⟩ := Run.drain_eq_ok_iff.1 hdrain
    simp only [hdrain, Except.map, Except.ok.injEq] at h
    subst h
    exact ⟨hfault, houtputs.symm⟩

theorem exists_parse_eq_ok {session : Session n} {input : Text}
    (h : (session.pass.stream input).fault? = none) :
    ∃ findings, (session.parse input).1 = .ok findings := by
  have hdrain : ((session.pass.stream input).drain session.pass.progress).1 = .ok _ :=
    Run.drain_eq_ok_iff.2 ⟨h, rfl⟩
  simp only [parse, hdrain, Except.map]
  exact ⟨_, rfl⟩

end Session

end Typeahead
