import Typeahead.Proofs.Defects
import Typeahead.Proofs.Persistence

/-!
# Extensions keep their elements

When the active extensions are replaced, those of phrases that stay active are taken from the old list, which
loses its order while it is searched. What counts is how many there are of each phrase: of these as many stay as
are still asked for (`Session.countP_renew`). All others are new, with numbers that were never given out
(`Session.Renewal`). Main statement: `extensions_are_renewed`.
-/

namespace Typeahead

variable {n : Nat}

namespace Session

/-! ## The pool while it is searched -/

section

variable {pool rest : List (Extension n)} {phrase : Fin n} {kept : Extension n}

theorem reuse?_eq_none (h : reuse? pool phrase = none) : phrase ∉ pool.map (·.phrase) := by
  unfold reuse? at h
  split at h
  · next place hplace =>
    obtain ⟨hlt, -⟩ := List.findIdx?_eq_some_iff_getElem.1 hplace
    simp [List.getElem?_eq_getElem hlt] at h
  · next hnone =>
    intro hmem
    obtain ⟨extension, hextension, rfl⟩ := List.mem_map.1 hmem
    simpa using List.findIdx?_eq_none_iff.1 hnone extension hextension

/-- What is reused is the extension that there is, if there is one only. -/
theorem reuse?_of_perm {extension : Extension n} (hperm : pool.Perm (extension :: rest))
    (hnodup : ((extension :: rest).map (·.phrase)).Nodup) :
    ∃ pool', reuse? pool extension.phrase = some (extension, pool') ∧ pool'.Perm rest := by
  cases hreuse : reuse? pool extension.phrase with
  | none => exact absurd ((hperm.map _).mem_iff.2 List.mem_cons_self) (reuse?_eq_none hreuse)
  | some found =>
    obtain ⟨kept, pool'⟩ := found
    obtain ⟨hphrase, hpool⟩ := reuse?_eq_some hreuse
    have hmem : kept ∈ extension :: rest := hperm.mem_iff.1 (hpool.mem_iff.2 List.mem_cons_self)
    cases List.inj_on_of_nodup_map hnodup hmem List.mem_cons_self hphrase
    exact ⟨pool', rfl, (hpool.symm.trans hperm).cons_inv⟩

end

/-! ## What is renewed -/

/-- **As many stay as are asked for.** The extensions of a phrase with numbers below the next one are those from
the pool. -/
theorem countP_renew {first root : Nat} (pool : List (Extension n)) (phrases : List (Fin n))
    (hpool : ∀ extension ∈ pool, extension.root < first) (hroot : first ≤ root) (phrase : Fin n) :
    (renew pool root phrases).1.countP (fun extension => extension.phrase = phrase ∧ extension.root < first) =
      min ((pool.map (·.phrase)).count phrase) (phrases.count phrase) := by
  fun_induction renew pool root phrases with
  | case1 => simp
  | case2 pool root other rest kept pool' hreuse renewed next heq ih =>
    obtain ⟨hphrase, hperm⟩ := reuse?_eq_some hreuse
    have hold := fun extension hextension => hpool extension (hperm.mem_iff.2 hextension)
    have hrest := ih (fun extension hextension => hold extension (List.mem_cons_of_mem kept hextension)) hroot
    rw [heq] at hrest
    rw [(hperm.map _).count_eq, List.map_cons, List.countP_cons, List.count_cons, List.count_cons, hrest, hphrase]
    have hkept : kept.root < first := hold kept List.mem_cons_self
    by_cases hother : other = phrase <;> simp [hother, hkept]
  | case3 pool root other rest hreuse renewed next heq ih =>
    have hrest := ih hpool (Nat.le_succ_of_le hroot)
    rw [heq] at hrest
    have hnew : ¬root < first := Nat.not_lt.2 hroot
    rw [List.countP_cons, List.count_cons, hrest]
    by_cases hother : other = phrase
    · rw [← hother, List.count_eq_zero.2 (reuse?_eq_none hreuse)]
      simp [hnew]
    · simp [hother]

/-- Extensions of different phrases are all found again. -/
theorem renew_of_perm {pool extensions : List (Extension n)} (hperm : pool.Perm extensions)
    (hnodup : (extensions.map (·.phrase)).Nodup) (root : Nat) :
    renew pool root (extensions.map (·.phrase)) = (extensions, root) := by
  induction extensions generalizing pool with
  | nil => rfl
  | cons extension rest ih =>
    obtain ⟨pool', hreuse, hrest⟩ := reuse?_of_perm hperm hnodup
    simp only [List.map_cons, renew, hreuse, ih hrest (List.nodup_cons.1 hnodup).2]

/-- The old extensions and the new phrases say what the new extensions are. -/
structure Renewal (session : Session n) (phrases : List (Fin n)) (after : Session n) : Prop where
  /-- Nothing but the extensions is replaced, so descriptions and marks stay. -/
  frame : after = { session with extensions := after.extensions, nextRoot := after.nextRoot }
  /-- There is one for each phrase, in order. -/
  requested : after.extensions.map (·.phrase) = phrases
  /-- No element is used twice. -/
  nodup_roots : after.roots.Nodup
  /-- Of each phrase as many are old ones as there were and are to be. -/
  kept : ∀ phrase,
    after.extensions.countP (fun extension => extension.phrase = phrase ∧ extension ∈ session.extensions) =
      min ((session.extensions.map (·.phrase)).count phrase) (phrases.count phrase)
  /-- What stands in those stays where it is. -/
  stands : ∀ placed, session.Stands placed → placed.address.root ∈ after.roots → after.Stands placed
  /-- All others have numbers of their own, from the next one on. -/
  created : ∀ extension ∈ after.extensions, extension ∉ session.extensions → session.nextRoot ≤ extension.root

variable {session after : Session n} {phrases : List (Fin n)}

theorem mem_renew {extension : Extension n}
    (h : extension ∈ (renew session.extensions session.nextRoot phrases).1) :
    extension ∈ session.extensions ∨ session.nextRoot ≤ extension.root := by
  obtain ⟨left, created, hperm, hcreated, -⟩ := perm_renew session.extensions session.nextRoot phrases
  refine (List.mem_append.1 (hperm.mem_iff.1 (List.mem_append_left left h))).imp_right fun hnew => ?_
  have hroot := List.mem_map_of_mem (f := (·.root)) hnew
  rw [hcreated] at hroot
  exact (List.mem_range'_1.1 hroot).1

theorem Sound.lt_nextRoot_of_mem_extensions (h : session.Sound) {extension : Extension n}
    (hextension : extension ∈ session.extensions) : extension.root < session.nextRoot :=
  h.lt_nextRoot _ (List.mem_append_right _ (List.mem_map_of_mem hextension))

/-- **Replacing extensions** renews them. -/
theorem Sound.renewal (h : session.Sound) (hset : session.setExtensions phrases = .ok after) :
    session.Renewal phrases after := by
  obtain ⟨hkeeps, hdescribed⟩ := keeps_setExtensions hset
  have hsound := h.setExtensions hset
  have hafter : after = { session with
      extensions := (renew session.extensions session.nextRoot phrases).1,
      nextRoot := (renew session.extensions session.nextRoot phrases).2 } := by
    unfold Session.setExtensions at hset
    split at hset
    · cases hset
    · cases hset
      rfl
  have hextensions := congrArg Session.extensions hafter
  refine ⟨?_, ?_, hsound.nodup_roots, fun phrase => ?_, fun placed hstands hroot => ?_, fun extension hmem hnew => ?_⟩
  · rw [hafter]
  · rw [hextensions, phrases_renew]
  · -- the old ones are those with a number below the next one
    have hcount := countP_renew session.extensions phrases
      (fun extension => h.lt_nextRoot_of_mem_extensions) (Nat.le_refl session.nextRoot) phrase
    rw [hextensions, ← hcount]
    refine List.countP_congr fun extension hmem => ?_
    have hold : extension ∈ session.extensions ↔ extension.root < session.nextRoot :=
      ⟨h.lt_nextRoot_of_mem_extensions, fun hlt => (mem_renew hmem).resolve_right (Nat.not_le.2 hlt)⟩
    simp only [hold]
  · rw [Stands, hdescribed]
    exact hkeeps.standing h hstands hroot
  · rw [hextensions] at hmem
    exact (mem_renew hmem).resolve_left hnew

theorem setExtensions_eq_error_iff {defect : Defect} :
    session.setExtensions phrases = .error defect ↔
      FirstDefect Phrase.HasDefect (phrases.map session.phrases) defect := by
  rw [← (reports_checkExtensions session.phrases phrases).eq_error_iff Phrase.HasDefect.unique]
  cases hcheck : checkExtensions session.phrases phrases <;> simp [setExtensions, hcheck]

/-- **To ask again for extensions of different phrases** changes nothing. -/
theorem Sound.setExtensions_again (h : session.Sound) (hnodup : (session.extensions.map (·.phrase)).Nodup) :
    session.setExtensions (session.extensions.map (·.phrase)) = .ok session := by
  simp only [Session.setExtensions, h.extensions, renew_of_perm (List.Perm.refl _) hnodup]

end Session

/-- **Extensions that stay active keep their elements.** Take a session after any acts. Extensions of the phrases
it is given are refused if and only if one of these has no identity or is to add to or stand in for what goes by
its own; what is said is what is wrong with the first such phrase, and nothing is changed. Else the extensions are
renewed: they are those asked for, in order; of each phrase as many are old ones as there were and are to be, each
with its number and what is built of it; and all others have numbers that no session before had in use and no
built description has. In particular, to ask again for what there is changes nothing if all phrases differ. -/
theorem extensions_are_renewed (book : Phrasebook n) (settings : Settings) (acts : List (Act n))
    (phrases : List (Fin n)) :
    let desk := (Desk.ofSettings book settings).performAll acts
    let session := desk.session
    let told := session.setExtensions phrases
    let after := (desk.handle (.setExtensions phrases)).session
    ((∃ defect, told = .error defect) ↔ ∃ phrase ∈ phrases, (book phrase).identity = "" ∨
      (book phrase).identity ∈ (book phrase).supplements ∨ (book phrase).identity ∈ (book phrase).overrides) ∧
    (∀ defect, told = .error defect ↔ FirstDefect Phrase.HasDefect (phrases.map book) defect) ∧
    (∀ defect, told = .error defect → after = session) ∧
    (∀ renewed, told = .ok renewed → after = renewed ∧ session.Renewal phrases renewed ∧
      ∀ extension ∈ renewed.extensions, extension ∉ session.extensions →
        (∀ here ∈ renewed.described, here.root ≠ extension.root) ∧
        ∀ earlier later, acts = earlier ++ later →
          extension.root ∉ ((Desk.ofSettings book settings).performAll earlier).session.roots) ∧
    ((session.extensions.map (·.phrase)).Nodup →
      session.setExtensions (session.extensions.map (·.phrase)) = .ok session) := by
  intro desk session told after
  have hnew := Desk.tended_ofSettings book settings
  obtain ⟨htended, hkeeps⟩ := Desk.tended_performAll hnew acts
  have hbook : session.phrases = book := hkeeps.phrases
  have herror (defect : Defect) : told = .error defect ↔ FirstDefect Phrase.HasDefect (phrases.map book) defect := by
    rw [← hbook]
    exact Session.setExtensions_eq_error_iff
  refine ⟨?_, herror, fun defect => Desk.session_replace_of_error, fun renewed hok => ?_,
    htended.sound.setExtensions_again⟩
  · simp only [herror, exists_firstDefect_iff, Phrase.exists_hasDefect_iff, List.mem_map,
      exists_exists_and_eq_and]
  · have hrenewal := htended.sound.renewal hok
    refine ⟨Desk.session_replace_of_ok hok, hrenewal, fun extension hextension hcreated =>
      ⟨fun here hhere heq => ?_, ?_⟩⟩
    · rw [hrenewal.frame] at hhere
      exact Nat.not_lt.2 (hrenewal.created extension hextension hcreated) (heq ▸ htended.lt_nextRoot here hhere)
    · rintro earlier later rfl hused
      obtain ⟨hbefore, -⟩ := Desk.tended_performAll hnew earlier
      obtain ⟨-, hlater⟩ := Desk.tended_performAll hbefore later
      have hdesk : ((Desk.ofSettings book settings).performAll earlier).performAll later = desk :=
        List.foldl_append.symm
      rw [hdesk] at hlater
      have hlt : extension.root < session.nextRoot :=
        Nat.lt_of_lt_of_le (hbefore.sound.lt_nextRoot _ hused) hlater.nextRoot
      exact Nat.not_lt.2 (hrenewal.created extension hextension hcreated) hlt

def plainBook : Phrasebook 3 := fun phrase =>
  ⟨["A", "B", "C"][phrase], fun _ => .ok (Node.text "x"), none, fun _ _ => .ok true, [], []⟩

/-- Of two extensions of one phrase with another one between them, both stay when three are asked for, and the third
gets a new number. The last one of the pool has moved forward when the one between them is looked for. -/
theorem plainBook_renewal :
    let desk := (Desk.ofSettings plainBook {}).performAll [.request (.setExtensions [0, 1, 0])]
    ∃ renewed, desk.session.setExtensions [0, 0, 2, 0, 1] = .ok renewed ∧
      renewed.extensions = [⟨0, 0⟩, ⟨2, 0⟩, ⟨3, 2⟩, ⟨4, 0⟩, ⟨1, 1⟩] ∧
      desk.session.Renewal [0, 0, 2, 0, 1] renewed := by
  intro desk
  obtain ⟨-, -, -, hrenewed, -⟩ :=
    extensions_are_renewed plainBook {} [.request (.setExtensions [0, 1, 0])] [0, 0, 2, 0, 1]
  exact ⟨_, rfl, by decide +kernel, (hrenewed _ rfl).2.1⟩

end Typeahead
