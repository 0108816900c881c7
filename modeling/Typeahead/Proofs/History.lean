import Mathlib.Data.List.Perm.Basic
import Typeahead.Proofs.Progress
import Typeahead.Session.Desk

/-!
# Sessions after any history

What holds of a session whatever was asked of it before (`Session.Sound`): its marks are sound, its sentences
and extensions hang from roots of their own, and they have no defect. Every request keeps this
(`Desk.sound_handle`), so it holds after every list of requests (`Desk.sound_handleAll`).
-/

namespace Typeahead

variable {n : Nat}

/-! ## The extension pool -/

namespace Session

/-- Taking a member out keeps the others, in some order. -/
theorem perm_swapRemove {α : Type} {items : List α} {place : Nat} (h : place < items.length) :
    items.Perm (items[place] :: swapRemove items place) := by
  rcases List.eq_nil_or_concat' items with rfl | ⟨init, last, rfl⟩
  · simp at h
  · rw [List.length_append, List.length_singleton] at h
    rcases Nat.lt_succ_iff_lt_or_eq.1 h with hlt | rfl
    · have hinit : (init[place] :: init.set place last).Perm (last :: init) :=
        calc (init[place] :: init.set place last).Perm (init[place] :: last :: init.eraseIdx place) :=
              (List.set_perm_cons_eraseIdx hlt last).cons _
          _ |>.Perm (last :: init[place] :: init.eraseIdx place) := .swap ..
          _ |>.Perm (last :: init) := (List.getElem_cons_eraseIdx_perm hlt).cons _
      simpa [swapRemove, List.getElem_append_left hlt, List.set_append_left _ _ hlt] using
        (List.perm_append_singleton last init).trans hinit.symm
    · simp [swapRemove]

/-- What is reused is an extension of the phrase from the pool; the others stay in it. -/
theorem reuse?_eq_some {pool rest : List (Extension n)} {phrase : Fin n} {kept : Extension n}
    (h : reuse? pool phrase = some (kept, rest)) : kept.phrase = phrase ∧ pool.Perm (kept :: rest) := by
  unfold reuse? at h
  split at h
  · next place hplace =>
    obtain ⟨hlt, hphrase, -⟩ := List.findIdx?_eq_some_iff_getElem.1 hplace
    simp only [List.getElem?_eq_getElem hlt, Option.map_some, Option.some.injEq, Prod.mk.injEq] at h
    obtain ⟨rfl, rfl⟩ := h
    exact ⟨beq_iff_eq.1 hphrase, perm_swapRemove hlt⟩
  · cases h

theorem phrases_renew (pool : List (Extension n)) (root : Nat) (phrases : List (Fin n)) :
    (renew pool root phrases).1.map (·.phrase) = phrases := by
  fun_induction renew pool root phrases with
  | case1 => rfl
  | case2 pool root phrase rest kept pool' hreuse renewed next heq ih =>
    rw [heq] at ih
    rw [List.map_cons, (reuse?_eq_some hreuse).1, ih]
  | case3 pool root phrase rest hreuse renewed next heq ih =>
    rw [heq] at ih
    rw [List.map_cons, ih]

/-- **Renewal.** What is renewed and what is left of the pool is the pool and what was newly made, and the
new ones are numbered one after the other. -/
theorem perm_renew (pool : List (Extension n)) (root : Nat) (phrases : List (Fin n)) :
    ∃ left created : List (Extension n), ((renew pool root phrases).1 ++ left).Perm (pool ++ created) ∧
      created.map (·.root) = List.range' root created.length ∧
      (renew pool root phrases).2 = root + created.length := by
  fun_induction renew pool root phrases with
  | case1 pool root => exact ⟨pool, [], by simp, rfl, rfl⟩
  | case2 pool root phrase rest kept pool' hreuse renewed next heq ih =>
    obtain ⟨left, created, hperm, hroots, hnext⟩ := ih
    rw [heq] at hperm hnext
    refine ⟨left, created, ?_, hroots, hnext⟩
    exact (hperm.cons kept).trans ((reuse?_eq_some hreuse).2.symm.append_right created)
  | case3 pool root phrase rest hreuse renewed next heq ih =>
    obtain ⟨left, created, hperm, hroots, hnext⟩ := ih
    rw [heq] at hperm hnext
    refine ⟨left, ⟨root, phrase⟩ :: created, ?_, ?_, ?_⟩
    · exact (hperm.cons _).trans List.perm_middle.symm
    · rw [List.map_cons, hroots, List.length_cons, List.range'_succ]
    · rw [hnext, List.length_cons]
      omega

/-! ## Sentences -/

theorem nodes_placeFrom (root : Nat) (nodes : List (Node n)) :
    (placeFrom root nodes).map (·.node) = nodes := by
  induction nodes generalizing root with
  | nil => rfl
  | cons node rest ih => rw [placeFrom, List.map_cons, ih]

theorem roots_placeFrom (root : Nat) (nodes : List (Node n)) :
    (placeFrom root nodes).map (·.address.root) = List.range' root nodes.length := by
  induction nodes generalizing root with
  | nil => rfl
  | cons node rest ih => rw [placeFrom, List.map_cons, ih, List.length_cons, List.range'_succ]

theorem steps_placeFrom (root : Nat) (nodes : List (Node n)) :
    ∀ sentence ∈ placeFrom root nodes, sentence.address.steps = [] := by
  induction nodes generalizing root with
  | nil => exact nofun
  | cons node rest ih => exact List.forall_mem_cons.2 ⟨rfl, ih (root + 1)⟩

/-! ## What every session has -/

/-- The serial numbers of all roots in use, sentences first. -/
def roots (session : Session n) : List Nat :=
  session.sentences.map (·.address.root) ++ session.extensions.map (·.root)

/-- What a session keeps to, whatever is asked of it. -/
structure Sound (session : Session n) : Prop where
  freshness : session.freshness.Sound
  /-- Every sentence and every extension has a root of its own. -/
  nodup_roots : session.roots.Nodup
  lt_nextRoot : ∀ root ∈ session.roots, root < session.nextRoot
  at_root : ∀ sentence ∈ session.sentences, sentence.address.steps = []
  sentences : Node.checkAll session.phrases (session.sentences.map (·.node)) = .ok ()
  extensions : checkExtensions session.phrases (session.extensions.map (·.phrase)) = .ok ()

theorem sound_new (phrases : Phrasebook n) (settings : Settings) :
    Sound ({ phrases, settings } : Session n) where
  freshness := Freshness.sound_empty
  nodup_roots := List.nodup_nil
  lt_nextRoot := nofun
  at_root := nofun
  sentences := by simp only [List.map_nil, Node.checkAll]
  extensions := rfl

theorem Sound.begun_pass {session : Session n} (h : session.Sound) : session.pass.progress.Begun :=
  ⟨rfl, h.freshness.isFresh_beginPass⟩

/-- Numbers handed out from now on are not in use. -/
theorem nodup_append_range' {used : List Nat} (hnodup : used.Nodup) {next : Nat}
    (hlt : ∀ root ∈ used, root < next) (count : Nat) : (used ++ List.range' next count).Nodup := by
  refine List.nodup_append.2 ⟨hnodup, List.nodup_range', fun root hroot fresh hfresh heq => ?_⟩
  have hused := hlt root hroot
  have hfresh := (List.mem_range'_1.1 hfresh).1
  omega

theorem Sound.setSentences {session session' : Session n} (h : session.Sound) {nodes : List (Node n)}
    (hset : session.setSentences nodes = .ok session') : session'.Sound := by
  unfold Session.setSentences at hset
  split at hset
  · cases hset
  · next hcheck =>
    cases hset
    have hextensions := List.nodup_append.1 h.nodup_roots |>.2.1
    have hlt : ∀ root ∈ session.extensions.map (·.root), root < session.nextRoot :=
      fun root hroot => h.lt_nextRoot root (List.mem_append_right _ hroot)
    refine ⟨h.freshness, ?_, ?_, steps_placeFrom _ _, ?_, h.extensions⟩
    · rw [roots, roots_placeFrom]
      exact List.nodup_append_comm.1 (nodup_append_range' hextensions hlt nodes.length)
    · intro root hroot
      rw [roots, roots_placeFrom, List.mem_append, List.mem_range'_1] at hroot
      dsimp only
      rcases hroot with hroot | hroot
      · exact hroot.2
      · exact Nat.lt_add_right _ (hlt root hroot)
    · rw [nodes_placeFrom]
      exact hcheck

theorem Sound.setExtensions {session session' : Session n} (h : session.Sound) {phrases : List (Fin n)}
    (hset : session.setExtensions phrases = .ok session') : session'.Sound := by
  unfold Session.setExtensions at hset
  split at hset
  · cases hset
  · next hcheck =>
    cases hset
    obtain ⟨left, created, hperm, hcreated, hnext⟩ := perm_renew session.extensions session.nextRoot phrases
    -- the roots after renewal are among the old ones and the new numbers
    have hroots : (session.sentences.map (·.address.root) ++
        ((renew session.extensions session.nextRoot phrases).1 ++ left).map (·.root)).Perm
        (session.roots ++ List.range' session.nextRoot created.length) := by
      rw [roots, List.append_assoc, ← hcreated, ← List.map_append]
      exact (hperm.map _).append_left _
    rw [List.map_append, ← List.append_assoc] at hroots
    refine ⟨h.freshness, ?_, ?_, h.at_root, h.sentences, ?_⟩
    · have hall := hroots.nodup_iff.2 (nodup_append_range' h.nodup_roots h.lt_nextRoot created.length)
      exact (List.nodup_append.1 hall).1
    · intro root hroot
      have hmem := hroots.mem_iff.1 (List.mem_append_left _ hroot)
      rw [List.mem_append, List.mem_range'_1] at hmem
      simp only [hnext]
      rcases hmem with hmem | hmem
      · exact Nat.lt_add_right _ (h.lt_nextRoot root hmem)
      · exact hmem.2
    · rw [phrases_renew]
      exact hcheck

end Session

/-! ## What every request keeps -/

theorem Run.sound_pull {α : Type} (run : Run α) {progress : Progress} (h : progress.freshness.Sound) :
    (run.pull progress).2.freshness.Sound := by
  induction run generalizing progress with
  | done => exact h
  | fault f => exact h
  | event e rest ih => exact ih () (Progress.sound_record h e)
  | output a rest ih => exact h

theorem Run.sound_drain {α : Type} (run : Run α) {progress : Progress} (h : progress.freshness.Sound) :
    (run.drain progress).2.freshness.Sound := by
  rw [Run.drain, Run.drainOnto_progress]
  exact Progress.sound_foldl h run.events

theorem Streams.sound_pull {streams : Streams} (h : streams.progress.freshness.Sound) (place : Nat) :
    (streams.pull place).2.progress.freshness.Sound := by
  unfold Streams.pull
  split
  · exact h
  · next run _ =>
    have hpulled := run.sound_pull h
    split <;> next hpull => rw [hpull] at hpulled; exact hpulled

/-- The requests that replace a part of the session. -/
def Request.replaces : Request n → Bool
  | .setSentences _ | .setExtensions _ | .setSettings _ => true
  | _ => false

namespace Session

/-- Finding a node changes nothing but what is built. -/
theorem exists_locate_eq (session : Session n) (anchor : Anchor) (steps : List Step) :
    ∃ described, (session.locate anchor steps).2 = { session with described } := by
  unfold locate
  split
  · exact ⟨session.described, rfl⟩
  · exact ⟨_, rfl⟩

theorem exists_resolveAt_eq {session : Session n} (h : session.freshness.Sound) (anchor : Anchor)
    (steps : List Step) (input : Text) (count : Option Nat) :
    ∃ freshness described, freshness.Sound ∧
      (session.resolveAt anchor steps input count).2 = { session with freshness, described } := by
  obtain ⟨described, hlocated⟩ := (session.absorb session.pass.progress).exists_locate_eq anchor steps
  unfold resolveAt
  dsimp only
  split
  · exact ⟨_, _, h.beginPass, hlocated⟩
  · exact ⟨_, _, h.beginPass, hlocated⟩
  · rw [hlocated]
    exact ⟨_, _, Run.sound_drain _ h.beginPass, rfl⟩

end Session

namespace Desk

/-- **A request that replaces nothing** changes marks and built descriptions only. -/
theorem exists_session_handle_eq {desk : Desk n} (h : desk.session.freshness.Sound) {request : Request n}
    (hrequest : request.replaces = false) :
    ∃ freshness described, freshness.Sound ∧
      (desk.handle request).session = { desk.session with freshness, described } := by
  cases request with
  | setSentences nodes => cases hrequest
  | setExtensions phrases => cases hrequest
  | setSettings settings => cases hrequest
  | parse input => exact ⟨_, _, Run.sound_drain _ h.beginPass, rfl⟩
  | openPass inputs => exact ⟨_, _, h.beginPass, rfl⟩
  | pull pass place =>
    simp only [handle, pull]
    split
    · exact ⟨_, _, h, rfl⟩
    · exact ⟨_, _, Streams.sound_pull h place, rfl⟩
  | resolveAt anchor steps input count => exact Session.exists_resolveAt_eq h anchor steps input count
  | locate anchor steps =>
    obtain ⟨described, hlocated⟩ := desk.session.exists_locate_eq anchor steps
    exact ⟨_, described, h, hlocated⟩
  | mark address => exact ⟨_, _, h.mark address, rfl⟩
  | clearFreshness => exact ⟨_, _, Freshness.Sound.clear, rfl⟩
  | beginEpoch => exact ⟨_, _, h.beginPass, rfl⟩

theorem sound_replace {desk : Desk n} (h : desk.session.Sound) {result : Except Defect (Session n)}
    (hresult : ∀ session, result = .ok session → session.Sound) : (desk.replace result).session.Sound := by
  cases result with
  | error defect => exact h
  | ok session => exact hresult session rfl

/-- **Every request keeps a session sound.** -/
theorem sound_handle {desk : Desk n} (h : desk.session.Sound) (request : Request n) :
    (desk.handle request).session.Sound := by
  cases hrequest : request.replaces with
  | false =>
    obtain ⟨freshness, described, hfreshness, heq⟩ := exists_session_handle_eq h.freshness hrequest
    rw [heq]
    exact ⟨hfreshness, h.nodup_roots, h.lt_nextRoot, h.at_root, h.sentences, h.extensions⟩
  | true =>
    cases request with
    | setSentences nodes => exact sound_replace h fun session => h.setSentences
    | setExtensions phrases => exact sound_replace h fun session => h.setExtensions
    | setSettings settings =>
      exact ⟨h.freshness, h.nodup_roots, h.lt_nextRoot, h.at_root, h.sentences, h.extensions⟩
    | _ => cases hrequest

/-- **After any history** a session is sound. -/
theorem sound_handleAll {desk : Desk n} (h : desk.session.Sound) (requests : List (Request n)) :
    (desk.handleAll requests).session.Sound := by
  induction requests generalizing desk with
  | nil => exact h
  | cons request later ih => exact ih (sound_handle h request)

end Desk

/-! ## What has been set -/

/-- What a session has been told: settings, sentences, and the phrases of its extensions. -/
structure Configuration (n : Nat) where
  settings : Settings
  sentences : List (Node n) := []
  extensions : List (Fin n) := []

def Session.configuration (session : Session n) : Configuration n :=
  ⟨session.settings, session.sentences.map (·.node), session.extensions.map (·.phrase)⟩

namespace Session

theorem exists_setSentences_eq (session : Session n) {nodes : List (Node n)}
    (h : Node.checkAll session.phrases nodes = .ok ()) :
    ∃ told, session.setSentences nodes = .ok told ∧ told.phrases = session.phrases ∧
      told.configuration = { session.configuration with sentences := nodes } := by
  simp only [setSentences, h]
  refine ⟨_, rfl, rfl, ?_⟩
  simp only [configuration, nodes_placeFrom]

theorem exists_setExtensions_eq (session : Session n) {phrases : List (Fin n)}
    (h : checkExtensions session.phrases phrases = .ok ()) :
    ∃ told, session.setExtensions phrases = .ok told ∧ told.phrases = session.phrases ∧
      told.configuration = { session.configuration with extensions := phrases } := by
  simp only [setExtensions, h]
  refine ⟨_, rfl, rfl, ?_⟩
  simp only [configuration, phrases_renew]

end Session

/-- What a request sets: what it names, if that has no defect, and nothing if it is of another kind. -/
def Configuration.after (book : Phrasebook n) (configuration : Configuration n) :
    Request n → Configuration n
  | .setSentences nodes =>
    match Node.checkAll book nodes with
    | .ok () => { configuration with sentences := nodes }
    | .error _ => configuration
  | .setExtensions phrases =>
    match Session.checkExtensions book phrases with
    | .ok () => { configuration with extensions := phrases }
    | .error _ => configuration
  | .setSettings settings => { configuration with settings }
  | _ => configuration

namespace Desk

/-- A session has been told what the requests set. -/
theorem configuration_handle {desk : Desk n} (h : desk.session.freshness.Sound) (request : Request n) :
    (desk.handle request).session.phrases = desk.session.phrases ∧
      (desk.handle request).session.configuration =
        desk.session.configuration.after desk.session.phrases request := by
  cases hrequest : request.replaces with
  | false =>
    obtain ⟨freshness, described, -, heq⟩ := exists_session_handle_eq h hrequest
    rw [heq]
    cases request with
    | setSentences nodes => cases hrequest
    | setExtensions phrases => cases hrequest
    | setSettings settings => cases hrequest
    | _ => exact ⟨rfl, rfl⟩
  | true =>
    cases request with
    | setSentences nodes =>
      simp only [handle, Configuration.after]
      cases hcheck : Node.checkAll desk.session.phrases nodes with
      | error defect =>
        simp only [Session.setSentences, hcheck]
        exact ⟨rfl, rfl⟩
      | ok =>
        obtain ⟨told, htold, hsame⟩ := desk.session.exists_setSentences_eq hcheck
        rw [htold]
        exact hsame
    | setExtensions phrases =>
      simp only [handle, Configuration.after]
      cases hcheck : Session.checkExtensions desk.session.phrases phrases with
      | error defect =>
        simp only [Session.setExtensions, hcheck]
        exact ⟨rfl, rfl⟩
      | ok =>
        obtain ⟨told, htold, hsame⟩ := desk.session.exists_setExtensions_eq hcheck
        rw [htold]
        exact hsame
    | setSettings settings => exact ⟨rfl, rfl⟩
    | _ => cases hrequest

theorem configuration_handleAll {desk : Desk n} (h : desk.session.Sound) (requests : List (Request n)) :
    (desk.handleAll requests).session.phrases = desk.session.phrases ∧
      (desk.handleAll requests).session.configuration =
        requests.foldl (Configuration.after desk.session.phrases) desk.session.configuration := by
  induction requests generalizing desk with
  | nil => exact ⟨rfl, rfl⟩
  | cons request later ih =>
    obtain ⟨hphrases, hconfiguration⟩ := configuration_handle h.freshness request
    obtain ⟨hlater, hall⟩ := ih (sound_handle h request)
    rw [hphrases, hconfiguration] at hall
    exact ⟨hlater.trans hphrases, hall⟩

end Desk

end Typeahead
