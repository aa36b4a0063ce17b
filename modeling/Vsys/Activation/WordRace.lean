import Mathlib.Data.List.Nodup
import Vsys.Activation.WordSync

/-!
# Concurrent calls of `VtWordManager`

Any number of threads call `add_vt_word` and `remove_vt_word`.  A step of a thread is one block
under `vt_mutex`, with the code behind it that touches nothing shared; the mutex is free between
two steps, unless a call of `remove_vt_word` spins with it in its hand.

`add_vt_word` looks for the word in one block and appends it in another.
`unique_of_noOverlap` says which runs keep the list free of duplicates, and
`uniqueNext_throughout_iff` that no others do for every way they may go on.
-/

namespace Vsys.Activation

open Vsys.Trace Vsys.Vt

/-- Where a thread stands. -/
inductive Phase
  /-- Outside, after a call with this return value. -/
  | done (ret : ℤ)
  /-- Before `has_vt_word`. -/
  | checking (word : VtWord)
  /-- In `save_vt_word`, before the list is appended to. -/
  | saving (info : WordInfo)
  /-- Before the loop of `remove_vt_word`, or in it for good. -/
  | removing (word : List Char)
  /-- Before `sync_vt_word`. -/
  | syncing

/-- The thread may call. -/
def Phase.isDone : Phase → Bool
  | .done _ => true
  | _ => false

/-- The manager, the engine and the threads. -/
structure Race (T : Type*) extends WordService where
  phase : T → Phase

/-- What a thread does next. -/
inductive Move
  | addVtWord (word : VtWord)
  | removeVtWord (word : List Char)
  | advance

namespace Race

variable {T : Type*} [DecidableEq T]

/-- A thread goes to another place. -/
def goto (s : Race T) (t : T) (phase : Phase) : Race T :=
  { s with phase := Function.update s.phase t phase }

/-- The `push_back` of `save_vt_word`. -/
def pushBack (s : Race T) (t : T) (info : WordInfo) : Race T :=
  { s with wordInfos := s.wordInfos ++ [info] }.goto t .syncing

variable (findPhoneme : List Char → List Char) (model : AcousticModel)

/-- The block under `vt_mutex` a thread stands before. -/
def locked (s : Race T) (t : T) : Phase → Race T
  | .done _ => s
  | .checking word =>
      if VtWordManager.hasVtWord s.wordInfos word.wordUtf8 then s.goto t (.done (-1))
      else
        match VtWordManager.vtWordFormation findPhoneme model word with
        | none => s.goto t (.done (-1))
        | some info => s.goto t (.saving info)
  | .saving info => s.pushBack t info
  | .removing word =>
      match VtWordManager.eraseWord word s.wordInfos with
      | none => { s with spinning := true }
      | some (_, false) => s.goto t (.done (-1))
      | some (wordInfos, true) => { s with wordInfos := wordInfos }.goto t .syncing
  | .syncing =>
      let out := s.toWordService.syncVtWord
      { s with toWordService := out.1 }.goto t (.done out.2)

/-- One move of one thread. -/
def step (s : Race T) : T × Move → Race T
  | (t, .addVtWord word) =>
      if (s.phase t).isDone then
        if VtWordManager.isValidVtType word.type then s.goto t (.checking word)
        else s.goto t (.done (-1))
      else s
  | (t, .removeVtWord word) => if (s.phase t).isDone then s.goto t (.removing word) else s
  | (t, .advance) => if s.spinning then s else s.locked findPhoneme model t (s.phase t)

/-- After `init`, before any call. -/
def start (dsCb : Bool) (nnetPathRuoqi : List Char) : Race T where
  toWordService := WordService.start dsCb nnetPathRuoqi
  phase := fun _ ↦ .done 0

/-- No two entries have the same word. -/
def Unique (s : Race T) : Prop := (s.wordInfos.map WordInfo.contentUtf8).Nodup

instance (s : Race T) : Decidable s.Unique := inferInstanceAs (Decidable (List.Nodup _))

/-- A thread appends its word only while no other thread is about to append the same word. -/
def NoOverlap (s : Race T) (move : T × Move) : Prop :=
  move.2 = .advance → s.spinning = false → ∀ info, s.phase move.1 = .saving info →
    ∀ other ≠ move.1, ∀ info', s.phase other = .saving info' → info'.contentUtf8 ≠ info.contentUtf8

/-! ## What a move can do -/

/-- The list stays as it is, and no thread comes to stand before an append. -/
def Quiet (s after : Race T) : Prop :=
  after.wordInfos = s.wordInfos ∧
    ∀ t info, after.phase t = .saving info → s.phase t = .saving info

omit [DecidableEq T] in
theorem quiet_refl (s : Race T) : Quiet s s := ⟨rfl, fun _ _ h ↦ h⟩

theorem quiet_goto (s : Race T) (t : T) {phase : Phase} (hphase : ∀ info, phase ≠ .saving info) :
    Quiet s (s.goto t phase) := by
  refine ⟨rfl, fun u info hu ↦ ?_⟩
  simp only [goto, Function.update_apply] at hu
  split_ifs at hu
  · exact absurd hu (hphase info)
  · exact hu

/-- A block leaves the list alone, or brings a thread before an append, or appends, or removes. -/
theorem locked_cases (s : Race T) (t : T) (phase : Phase) :
    Quiet s (s.locked findPhoneme model t phase) ∨
    (∃ info, VtWordManager.hasVtWord s.wordInfos info.contentUtf8 = false ∧
      s.locked findPhoneme model t phase = s.goto t (.saving info)) ∨
    (∃ info, phase = .saving info ∧ s.locked findPhoneme model t phase = s.pushBack t info) ∨
    ∃ info wordInfos, s.wordInfos = info :: wordInfos ∧
      s.locked findPhoneme model t phase = { s with wordInfos := wordInfos }.goto t .syncing := by
  cases phase with
  | done ret => exact .inl (quiet_refl s)
  | checking word =>
      rw [locked]
      split_ifs with hhas
      · exact .inl (quiet_goto s t (by simp))
      · cases hinfo : VtWordManager.vtWordFormation findPhoneme model word with
        | none => exact .inl (quiet_goto s t (by simp))
        | some info =>
            refine .inr (.inl ⟨info, ?_, rfl⟩)
            rw [VtWordManager.contentUtf8_of_vtWordFormation hinfo]
            exact eq_false_of_ne_true hhas
  | saving info => exact .inr (.inr (.inl ⟨info, rfl, rfl⟩))
  | removing word =>
      rw [locked]
      cases hinfos : s.wordInfos with
      | nil => exact .inl (quiet_goto s t (by simp))
      | cons info wordInfos =>
          rw [VtWordManager.eraseWord_cons]
          by_cases hword : word = info.contentUtf8
          · rw [if_pos hword]
            exact .inr (.inr (.inr ⟨info, wordInfos, rfl, rfl⟩))
          · rw [if_neg hword]
            exact .inl ⟨hinfos.symm, fun _ _ h ↦ h⟩
  | syncing => exact .inl (quiet_goto s t (by simp))

/-- The same of a move; only a block appends. -/
theorem step_cases (s : Race T) (t : T) (move : Move) :
    Quiet s (step findPhoneme model s (t, move)) ∨
    (∃ info, VtWordManager.hasVtWord s.wordInfos info.contentUtf8 = false ∧
      step findPhoneme model s (t, move) = s.goto t (.saving info)) ∨
    (∃ info, (move = .advance ∧ s.spinning = false ∧ s.phase t = .saving info) ∧
      step findPhoneme model s (t, move) = s.pushBack t info) ∨
    ∃ info wordInfos, s.wordInfos = info :: wordInfos ∧
      step findPhoneme model s (t, move) = { s with wordInfos := wordInfos }.goto t .syncing := by
  cases move with
  | addVtWord word =>
      refine .inl ?_
      rw [step]
      split_ifs
      · exact quiet_goto s t (by simp)
      · exact quiet_goto s t (by simp)
      · exact quiet_refl s
  | removeVtWord word =>
      refine .inl ?_
      rw [step]
      split_ifs
      · exact quiet_goto s t (by simp)
      · exact quiet_refl s
  | advance =>
      rw [step]
      split_ifs with hspinning
      · exact .inl (quiet_refl s)
      · have hfree : s.spinning = false := eq_false_of_ne_true hspinning
        simpa [hfree] using locked_cases findPhoneme model s t (s.phase t)

/-! ## Runs without overlap -/

/-- The invariant: no duplicates, and no thread is about to append a word of the list. -/
structure Inv (s : Race T) : Prop where
  unique : s.Unique
  fresh : ∀ t info, s.phase t = .saving info →
    info.contentUtf8 ∉ s.wordInfos.map WordInfo.contentUtf8

omit [DecidableEq T] in
theorem inv_start (dsCb : Bool) (nnetPathRuoqi : List Char) :
    Inv (start dsCb nnetPathRuoqi : Race T) :=
  ⟨List.nodup_nil, fun _ _ h ↦ nomatch h⟩

omit [DecidableEq T] in
theorem Inv.quiet {s after : Race T} (h : Inv s) (hquiet : Quiet s after) : Inv after := by
  obtain ⟨hinfos, hphase⟩ := hquiet
  refine ⟨?_, fun t info ht ↦ ?_⟩
  · rw [Unique, hinfos]
    exact h.unique
  · rw [hinfos]
    exact h.fresh t info (hphase t info ht)

/-- A thread whose check found nothing is about to append a new word. -/
theorem Inv.checked {s : Race T} (h : Inv s) (t : T) {info : WordInfo}
    (hnew : VtWordManager.hasVtWord s.wordInfos info.contentUtf8 = false) :
    Inv (s.goto t (.saving info)) := by
  refine ⟨h.unique, fun u info' hu ↦ ?_⟩
  simp only [goto, Function.update_apply] at hu
  split_ifs at hu with hut
  · obtain rfl := Phase.saving.inj hu
    rw [← VtWordManager.hasVtWord_iff]
    exact ne_true_of_eq_false hnew
  · exact h.fresh u info' hu

omit [DecidableEq T] in
/-- An append keeps the list free of duplicates, whatever the other threads are about to do. -/
theorem Inv.unique_append {s : Race T} (h : Inv s) {t : T} {info : WordInfo}
    (ht : s.phase t = .saving info) :
    ((s.wordInfos ++ [info]).map WordInfo.contentUtf8).Nodup := by
  rw [List.map_append]
  exact List.Nodup.append h.unique (List.nodup_singleton _)
    (List.disjoint_singleton.mpr (h.fresh t info ht))

theorem Inv.append {s : Race T} (h : Inv s) {t : T} {info : WordInfo}
    (ht : s.phase t = .saving info)
    (hothers : ∀ other ≠ t, ∀ info', s.phase other = .saving info' →
      info'.contentUtf8 ≠ info.contentUtf8) :
    Inv (s.pushBack t info) := by
  refine ⟨h.unique_append ht, fun u info' hu ↦ ?_⟩
  simp only [pushBack, goto, Function.update_apply] at hu
  split_ifs at hu with hut
  have hold := h.fresh u info' hu
  have hnew := hothers u hut info' hu
  intro hmem
  rw [pushBack, goto, List.map_append, List.mem_append] at hmem
  obtain hmem | hmem := hmem
  · exact hold hmem
  · exact hnew (List.mem_singleton.mp hmem)

theorem Inv.erase {s : Race T} (h : Inv s) (t : T) {info : WordInfo} {wordInfos : List WordInfo}
    (hinfos : s.wordInfos = info :: wordInfos) :
    Inv ({ s with wordInfos := wordInfos }.goto t .syncing) := by
  have hunique := h.unique
  rw [Unique, hinfos, List.map_cons, List.nodup_cons] at hunique
  refine ⟨hunique.2, fun u info' hu ↦ ?_⟩
  simp only [goto, Function.update_apply] at hu
  split_ifs at hu
  have hold := h.fresh u info' hu
  rw [hinfos, List.map_cons, List.mem_cons, not_or] at hold
  exact hold.2

theorem Inv.step {s : Race T} (h : Inv s) {move : T × Move} (hok : NoOverlap s move) :
    Inv (step findPhoneme model s move) := by
  obtain ⟨t, move⟩ := move
  obtain hquiet | ⟨info, hnew, heq⟩ | ⟨info, ⟨rfl, hfree, ht⟩, heq⟩ | ⟨info, wordInfos, hinfos, heq⟩ :=
    step_cases findPhoneme model s t move
  · exact h.quiet hquiet
  · exact heq ▸ h.checked t hnew
  · exact heq ▸ h.append ht (hok rfl hfree info ht)
  · exact heq ▸ h.erase t hinfos

/-- One move more, of any kind, does not make a duplicate yet. -/
theorem Inv.unique_step {s : Race T} (h : Inv s) (move : T × Move) :
    (Race.step findPhoneme model s move).Unique := by
  obtain ⟨t, move⟩ := move
  obtain hquiet | ⟨info, hnew, heq⟩ | ⟨info, ⟨_, _, ht⟩, heq⟩ | ⟨info, wordInfos, hinfos, heq⟩ :=
    step_cases findPhoneme model s t move
  · exact (h.quiet hquiet).unique
  · exact heq ▸ (h.checked t hnew).unique
  · exact heq ▸ h.unique_append ht
  · exact heq ▸ (h.erase t hinfos).unique

theorem step_saving {s : Race T} (hfree : s.spinning = false) {t : T} {info : WordInfo}
    (ht : s.phase t = .saving info) :
    step findPhoneme model s (t, .advance) = s.pushBack t info := by
  rw [step, if_neg (ne_true_of_eq_false hfree), ht, locked]

/-- An append while another thread is about to append the same word: that thread's next block makes
the duplicate. -/
theorem duplicate_of_overlap {s : Race T} {move : T × Move} (hbad : ¬ NoOverlap s move) :
    ∃ next, ¬ (step findPhoneme model (step findPhoneme model s move) next).Unique := by
  obtain ⟨t, move⟩ := move
  simp only [NoOverlap, not_forall, not_not, exists_prop] at hbad
  obtain ⟨rfl, hfree, info, ht, other, hother, info', hphase, hsame⟩ := hbad
  refine ⟨(other, .advance), fun hunique ↦ ?_⟩
  have hlater : (s.pushBack t info).phase other = .saving info' :=
    (Function.update_of_ne hother _ _).trans hphase
  have hstill : (s.pushBack t info).spinning = false := hfree
  rw [step_saving findPhoneme model hfree ht, step_saving findPhoneme model hstill hlater]
    at hunique
  have htwice : ((s.wordInfos ++ [info] ++ [info']).map WordInfo.contentUtf8).Nodup := hunique
  rw [List.append_assoc, List.map_append] at htwice
  have hpair : [info.contentUtf8, info'.contentUtf8].Nodup := (List.nodup_append.mp htwice).2.1
  rw [hsame] at hpair
  exact absurd hpair (by simp)

/-- **Runs without overlap keep the words distinct.** In every state of a run in which no thread
appends a word while another is about to append the same one, no word is in the list twice. -/
theorem unique_of_noOverlap (dsCb : Bool) (nnetPathRuoqi : List Char) (moves : List (T × Move))
    (hok : Along (step findPhoneme model) NoOverlap (start dsCb nnetPathRuoqi) moves) :
    Throughout (step findPhoneme model) Unique (start dsCb nnetPathRuoqi) moves := by
  intro first hfirst
  have hinv : Inv (run (step findPhoneme model) (start dsCb nnetPathRuoqi) first) :=
    run_invariant (fun s move h hok ↦ h.step findPhoneme model hok) (inv_start _ _)
      (along_of_isPrefix hfirst hok)
  exact hinv.unique

/-- Two threads add one word, the second after the first has returned. -/
def inTurn : List (ℕ × Move) :=
  [(0, .addVtWord WordService.outsideWord), (0, .advance), (0, .advance), (0, .advance),
    (1, .addVtWord WordService.outsideWord), (1, .advance)]

theorem noOverlap_inTurn :
    Along (step (fun _ ↦ []) .ctc) NoOverlap (start true []) inTurn := by
  refine ⟨?_, ?_, ?_, ?_, ?_, ?_, trivial⟩
  · intro hmove
    exact nomatch hmove
  · intro _ _ info hphase
    exact nomatch hphase
  · intro _ _ info _ other hother info' hphase
    have hidle : Function.update (Function.update (fun _ ↦ Phase.done 0) 0 _) 0 _ other =
        .saving info' := hphase
    rw [Function.update_of_ne hother, Function.update_of_ne hother] at hidle
    exact nomatch hidle
  · intro _ _ info hphase
    exact nomatch hphase
  · intro hmove
    exact nomatch hmove
  · intro _ _ info hphase
    exact nomatch hphase

theorem unique_inTurn :
    Along (step (fun _ ↦ []) .ctc) NoOverlap (start true []) inTurn ∧
      Throughout (step (fun _ ↦ []) .ctc) Unique (start true []) inTurn :=
  ⟨noOverlap_inTurn, unique_of_noOverlap _ _ _ _ _ noOverlap_inTurn⟩

/-- Two threads add one word, and both look for it before one of them has appended it. -/
def atOnce : List (ℕ × Move) :=
  [(0, .addVtWord WordService.outsideWord), (1, .addVtWord WordService.outsideWord),
    (0, .advance), (1, .advance), (0, .advance), (1, .advance)]

theorem not_unique_atOnce :
    ¬ Throughout (step (fun _ ↦ []) .ctc) Unique (start true []) atOnce := by
  intro h
  have hend := h atOnce (List.prefix_refl _)
  exact absurd hend (by decide)

/-- The words are distinct, and stay so whatever move comes next. -/
def UniqueNext (s : Race T) : Prop :=
  s.Unique ∧ ∀ next, (step findPhoneme model s next).Unique

/-- No other run will do: the words are distinct in every state of a run and in every state one
move away from it exactly when the run is without overlap. -/
theorem uniqueNext_throughout_iff (dsCb : Bool) (nnetPathRuoqi : List Char)
    (moves : List (T × Move)) :
    Throughout (step findPhoneme model) (UniqueNext findPhoneme model)
        (start dsCb nnetPathRuoqi) moves ↔
      Along (step findPhoneme model) NoOverlap (start dsCb nnetPathRuoqi) moves := by
  refine throughout_exact Inv _ ?_ ?_ ?_ (inv_start dsCb nnetPathRuoqi) moves
  · exact fun s move h hok ↦ h.step findPhoneme model hok
  · intro s move _ hbad hgood
    obtain ⟨next, hnext⟩ := duplicate_of_overlap findPhoneme model hbad
    exact hnext (hgood.2 next)
  · exact fun s h ↦ ⟨h.unique, h.unique_step findPhoneme model⟩

/-! ## Calls one after another -/

/-- The state after a call that nobody disturbs; a call that does not return waits at its place. -/
def settled (s : Race T) (t : T) (waiting : Phase) (out : WordService × Option ℤ) : Race T :=
  { s with toWordService := out.1 }.goto t (out.2.elim waiting .done)

/-- A call of `add_vt_word` whose blocks follow each other is the call of `WordService`. -/
theorem run_addVtWord (s : Race T) (t : T) (hdone : (s.phase t).isDone = true) (word : VtWord) :
    run (step findPhoneme model) s
        [(t, .addVtWord word), (t, .advance), (t, .advance), (t, .advance)] =
      s.settled t (.checking word) (s.toWordService.addVtWord findPhoneme model word) := by
  cases hvalid : VtWordManager.isValidVtType word.type with
  | false => simp [step, goto, locked, settled, WordService.addVtWord, hdone, hvalid]
  | true =>
      cases hspinning : s.spinning with
      | true => simp [step, goto, settled, WordService.addVtWord, hdone, hvalid, hspinning]
      | false =>
          cases hhas : VtWordManager.hasVtWord s.wordInfos word.wordUtf8 with
          | true =>
              simp [step, goto, locked, settled, WordService.addVtWord, hdone, hvalid, hspinning,
                hhas]
          | false =>
              cases hinfo : VtWordManager.vtWordFormation findPhoneme model word with
              | none =>
                  simp [step, goto, locked, settled, WordService.addVtWord, hdone, hvalid,
                    hspinning, hhas, hinfo]
              | some info =>
                  simp [step, goto, locked, settled, pushBack, WordService.addVtWord,
                    WordService.syncVtWord, hdone, hvalid, hspinning, hhas, hinfo]

/-- The same of `remove_vt_word`. -/
theorem run_removeVtWord (s : Race T) (t : T) (hdone : (s.phase t).isDone = true)
    (word : List Char) :
    run (step findPhoneme model) s [(t, .removeVtWord word), (t, .advance), (t, .advance)] =
      s.settled t (.removing word) (s.toWordService.removeVtWord word) := by
  cases hspinning : s.spinning with
  | true => simp [step, goto, settled, WordService.removeVtWord, hdone, hspinning]
  | false =>
      rcases herase : VtWordManager.eraseWord word s.wordInfos with _ | ⟨wordInfos, _ | _⟩
      · simp [step, goto, locked, settled, WordService.removeVtWord, hdone, hspinning, herase]
      · simp [step, goto, locked, settled, WordService.removeVtWord, hdone, hspinning, herase]
      · simp [step, goto, locked, settled, WordService.removeVtWord, WordService.syncVtWord, hdone,
          hspinning, herase]

end Race

end Vsys.Activation
