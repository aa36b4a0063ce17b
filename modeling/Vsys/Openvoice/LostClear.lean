import Vsys.Openvoice.Session

/-!
# Sessions that are never cleared

`start_voice` makes an id known to the engine before `session_id` is assigned.  A final result that
comes in between clears nothing, and the assignment behind it opens a session that is over.
`noStuck_throughout_iff` says that this is the only way a session gets stuck: a run is without
stuck sessions exactly if no id is assigned after a final result for it.
-/

namespace Vsys.Openvoice

open Vsys.Trace

/-- The result the response thread works on. -/
def ResponsePc.result? : ResponsePc → Option SpeechResult
  | .polling => none
  | .asrFinish sr | .finished sr | .error sr | .clear sr => some sr

/-- The action is a `start_voice`. -/
def Action.IsStart (action : Action) : Prop := ∃ id, action = .startVoice id

/-- The id is the one of the latest `start_voice`. -/
def Latest (id : ℤ) (log : List Action) : Prop :=
  Since (· = Action.startVoice id) Action.IsStart log

theorem Latest.mem {id : ℤ} {log : List Action} (h : Latest id log) : .startVoice id ∈ log := by
  obtain ⟨past, action, since, rfl, rfl, -⟩ := h
  simp

/-- There is only one latest id. -/
theorem Latest.unique {id other : ℤ} {log : List Action} (h : Latest id log)
    (hother : Latest other log) : id = other := by
  induction log using List.reverseRecOn with
  | nil => exact absurd h not_since_nil
  | append_singleton log action ih =>
      obtain hstart | ⟨hlog, hno⟩ := since_concat_iff.mp h
      · obtain hsame | ⟨-, hno⟩ := since_concat_iff.mp hother
        · exact Action.startVoice.inj (hstart.symm.trans hsame)
        · exact absurd ⟨id, hstart⟩ hno
      · obtain hsame | ⟨hrest, -⟩ := since_concat_iff.mp hother
        · exact absurd ⟨other, hsame⟩ hno
        · exact ih hlog hrest

namespace Session

variable (order : ResultType → ℕ)

/-- A result is about an id that `start_voice` has returned. -/
def FollowsStart (s : Session) : Move → Prop
  | .result sr => .startVoice sr.id ∈ s.log
  | _ => True

/-- Once the response thread has worked off a final result for an id and the event thread has left
the `VAD_START` that opened it, `session_id` is not that id; and as long as it was the latest, the
next `VAD_START` is not ignored. -/
def NoStuck (s : Session) : Prop :=
  ∀ id, .startVoice id ∈ s.log → .clear id ∈ s.log → s.event ≠ .store id →
    s.sessionId ≠ id ∧
      (Latest id s.log → s.event = .waiting → (step order s (.event .vadStart)).event = .vadStart)

/-- No id is assigned that a final result has come for. -/
def StoresOpen (s : Session) : Move → Prop
  | .advance => ∀ id, s.event = .store id → .clear id ∈ s.log → id < 0
  | _ => True

/-! ## The invariant -/

/-- What holds as long as only open ids are assigned. -/
structure Tracked (s : Session) : Prop where
  ids : ∀ id, .startVoice id ∈ s.log → 0 < id
  session : s.sessionId < 0 ∨ Latest s.sessionId s.log
  starting : s.Starting → s.sessionId < 0
  store : ∀ id, s.event = .store id → id < 0 ∨ Latest id s.log
  told : ∀ sr, s.response.result? = some sr → .startVoice sr.id ∈ s.log
  cleared : ∀ id, .clear id ∈ s.log → id < 0 ∨ .startVoice id ∈ s.log
  free : ∀ id, .clear id ∈ s.log → s.event ≠ .store id → s.sessionId = id → id < 0

theorem tracked_new : Tracked new where
  ids := fun _ h ↦ nomatch h
  session := .inl (by decide)
  starting := fun h ↦ h.elim
  store := fun _ h ↦ nomatch h
  told := fun _ h ↦ nomatch h
  cleared := fun _ h ↦ nomatch h
  free := fun _ h ↦ nomatch h

theorem Tracked.noStuck {s : Session} (h : Tracked s) : s.NoStuck order := by
  intro id hstart hclear hevent
  have hne : s.sessionId ≠ id := fun hid ↦
    Int.lt_asymm (h.free id hclear hevent hid) (h.ids id hstart)
  refine ⟨hne, fun hlatest hwaiting ↦ ?_⟩
  have hneg : s.sessionId < 0 := h.session.resolve_right fun hsession ↦
    hne (hsession.unique hlatest)
  simp [step, onEvent, uses, hwaiting, hneg]

/-- A step that neither starts nor clears nor assigns an id. -/
structure Quiet (s t : Session) : Prop where
  log : t.log = s.log ∨ ∃ action, t.log = s.log ++ [action] ∧ ¬ action.IsStart ∧
    ∀ id, action ≠ .clear id
  sessionId : t.sessionId = s.sessionId
  starting : t.Starting → s.Starting ∨ s.sessionId < 0
  store : ∀ id, t.event = .store id → s.event = .store id ∨ id < 0
  stored : ∀ id, s.event = .store id → t.event = .store id
  told : ∀ sr, t.response.result? = some sr →
    s.response.result? = some sr ∨ .startVoice sr.id ∈ s.log

/-- The event thread stays where it is. -/
theorem quiet_of_event {s t : Session}
    (hlog : t.log = s.log ∨ ∃ action, t.log = s.log ++ [action] ∧ ¬ action.IsStart ∧
      ∀ id, action ≠ .clear id)
    (hid : t.sessionId = s.sessionId) (hevent : t.event = s.event)
    (htold : ∀ sr, t.response.result? = some sr →
      s.response.result? = some sr ∨ .startVoice sr.id ∈ s.log) : Quiet s t where
  log := hlog
  sessionId := hid
  starting := fun h ↦ .inl (by simpa only [Starting, hevent] using h)
  store := fun id h ↦ .inl (hevent ▸ h)
  stored := fun id h ↦ hevent.trans h
  told := htold

theorem quiet_refl (s : Session) : Quiet s s :=
  quiet_of_event (.inl rfl) rfl rfl fun _ h ↦ .inl h

theorem Quiet.mem_startVoice_iff {s t : Session} (h : Quiet s t) (id : ℤ) :
    Action.startVoice id ∈ t.log ↔ .startVoice id ∈ s.log := by
  obtain hlog | ⟨action, hlog, hstart, -⟩ := h.log
  · rw [hlog]
  · rw [hlog, List.mem_append, List.mem_singleton]
    exact or_iff_left fun heq ↦ hstart ⟨id, heq.symm⟩

theorem Quiet.mem_clear_iff {s t : Session} (h : Quiet s t) (id : ℤ) :
    Action.clear id ∈ t.log ↔ .clear id ∈ s.log := by
  obtain hlog | ⟨action, hlog, -, hclear⟩ := h.log
  · rw [hlog]
  · rw [hlog, List.mem_append, List.mem_singleton]
    exact or_iff_left fun heq ↦ hclear id heq.symm

theorem Quiet.latest {s t : Session} (h : Quiet s t) {id : ℤ} (hlatest : Latest id s.log) :
    Latest id t.log := by
  obtain hlog | ⟨action, hlog, hstart, -⟩ := h.log
  · exact hlog ▸ hlatest
  · exact hlog ▸ Since.concat hlatest hstart

theorem Tracked.quiet {s t : Session} (h : Tracked s) (hquiet : Quiet s t) : Tracked t where
  ids := fun id hid ↦ h.ids id ((hquiet.mem_startVoice_iff id).mp hid)
  session := by
    rw [hquiet.sessionId]
    exact h.session.imp_right hquiet.latest
  starting := fun hstarting ↦ by
    rw [hquiet.sessionId]
    exact (hquiet.starting hstarting).elim h.starting id
  store := fun id hid ↦ (hquiet.store id hid).elim
    (fun hs ↦ (h.store id hs).imp_right hquiet.latest) .inl
  told := fun sr hsr ↦ (hquiet.mem_startVoice_iff sr.id).mpr
    ((hquiet.told sr hsr).elim (h.told sr) id)
  cleared := fun id hid ↦ (h.cleared id ((hquiet.mem_clear_iff id).mp hid)).imp_right
    (hquiet.mem_startVoice_iff id).mpr
  free := fun id hid hevent hsession ↦ h.free id ((hquiet.mem_clear_iff id).mp hid)
    (fun hs ↦ hevent (hquiet.stored id hs)) (hquiet.sessionId ▸ hsession)

/-! ## The steps -/

/-- A `clear` of an id that was started, or of whatever there is. -/
theorem Tracked.clear {s : Session} (h : Tracked s) {id : ℤ}
    (hid : id < 0 ∨ .startVoice id ∈ s.log) : Tracked (s.clear id) := by
  have hlatest : ∀ {other}, Latest other s.log → Latest other (s.log ++ [.clear id]) :=
    fun hother ↦ Since.concat hother (by simp [Action.IsStart])
  have hsession := sessionId_clear s id
  constructor
  · intro other hother
    exact h.ids other (by simpa [Session.clear] using hother)
  · obtain hneg | ⟨hsame, -⟩ := hsession
    · exact .inl (hneg ▸ by decide)
    · rw [hsame]
      exact h.session.imp_right hlatest
  · intro hstarting
    obtain hneg | ⟨hsame, -⟩ := hsession
    · exact hneg ▸ by decide
    · rw [hsame]
      exact h.starting hstarting
  · exact fun other hother ↦ (h.store other hother).imp_right hlatest
  · exact fun sr hsr ↦ List.mem_append_left _ (h.told sr hsr)
  · intro other hother
    obtain hold | hnew := List.mem_append.mp hother
    · exact (h.cleared other hold).imp_right (List.mem_append_left _)
    · obtain rfl := Action.clear.inj (List.mem_singleton.mp hnew)
      exact hid.imp_right (List.mem_append_left _)
  · intro other hother hevent hsame'
    obtain hneg | ⟨hsame, hne⟩ := hsession
    · exact hsame' ▸ hneg ▸ by decide
    · obtain hold | hnew := List.mem_append.mp hother
      · exact h.free other hold hevent (hsame ▸ hsame')
      · obtain rfl := Action.clear.inj (List.mem_singleton.mp hnew)
        exact absurd (hsame'.symm.trans hsame) fun heq ↦ hne (.inr heq)

/-- The assignment of an id that no final result has come for. -/
theorem Tracked.assign {s : Session} (h : Tracked s) {id : ℤ} (hevent : s.event = .store id)
    (hopen : .clear id ∈ s.log → id < 0) : Tracked { s with sessionId := id, event := .waiting } where
  ids := h.ids
  session := h.store id hevent
  starting := fun hstarting ↦ hstarting.elim
  store := fun _ hother ↦ nomatch hother
  told := h.told
  cleared := h.cleared
  free := by
    rintro other hother - rfl
    exact hopen hother

theorem Tracked.startVoice {s : Session} (h : Tracked s) (id : ℤ) : Tracked (s.startVoice id) := by
  rw [Session.startVoice]
  split_ifs with hcond
  · obtain ⟨hevent, hpos, hnew⟩ := hcond
    have hneg : s.sessionId < 0 := h.starting (by simp [Starting, hevent])
    constructor
    · intro other hother
      obtain hold | hlast := List.mem_append.mp hother
      · exact h.ids other hold
      · obtain rfl := Action.startVoice.inj (List.mem_singleton.mp hlast)
        exact hpos
    · exact .inl hneg
    · exact fun _ ↦ hneg
    · intro other hother
      obtain rfl := EventPc.store.inj hother
      exact .inr (since_of_start rfl)
    · exact fun sr hsr ↦ List.mem_append_left _ (h.told sr hsr)
    · intro other hother
      have hold : .clear other ∈ s.log := by simpa using hother
      exact (h.cleared other hold).imp_right (List.mem_append_left _)
    · rintro other - - rfl
      exact hneg
  · exact h

/-- The event thread goes from one place to another, none of them an assignment. -/
theorem quiet_goto {s t : Session} (hlog : t.log = s.log ∨ ∃ use id, t.log = s.log ++ [.use use id])
    (hid : t.sessionId = s.sessionId) (hresponse : t.response = s.response)
    (hstarting : t.Starting → s.Starting ∨ s.sessionId < 0)
    (hstore : ∀ id, t.event = .store id → id < 0) (hstored : ∀ id, s.event ≠ .store id) :
    Quiet s t where
  log := hlog.imp_right fun ⟨use, id, h⟩ ↦ ⟨_, h, by simp [Action.IsStart], by simp⟩
  sessionId := hid
  starting := hstarting
  store := fun id h ↦ .inr (hstore id h)
  stored := fun id h ↦ absurd h (hstored id)
  told := fun sr h ↦ .inl (hresponse ▸ h)

theorem quiet_onEvent {s : Session} (event : SirenEvent) (hwaiting : s.event = .waiting) :
    Quiet s (s.onEvent event) := by
  have hstored : ∀ id, s.event ≠ .store id := by simp [hwaiting]
  unfold Session.onEvent
  cases s.uses event with
  | some use => exact quiet_goto (.inl rfl) rfl rfl (fun h ↦ h.elim) (by simp) hstored
  | none =>
      cases event with
      | wakePre | wakeCmd | vadData hasVoice => exact quiet_refl s
      | vadStart =>
          dsimp only
          split_ifs with hneg
          · exact quiet_goto (.inl rfl) rfl rfl (fun _ ↦ .inr hneg) (by simp) hstored
          · exact quiet_refl s
      | vadEnd =>
          dsimp only
          split_ifs
          · exact quiet_refl s
          · exact quiet_goto (.inl rfl) rfl rfl (fun h ↦ h.elim) (by simp) hstored
      | sleep => exact quiet_of_event (.inl rfl) rfl rfl fun _ h ↦ .inl h
      | vadCancel => exact quiet_goto (.inl rfl) rfl rfl (fun h ↦ h.elim) (by simp) hstored
      | voicePrint hasVt =>
          dsimp only
          split_ifs
          · exact quiet_of_event (.inl rfl) rfl rfl fun _ h ↦ .inl h
          · exact quiet_refl s

theorem Tracked.advance {s : Session} (h : Tracked s)
    (hopen : ∀ id, s.event = .store id → .clear id ∈ s.log → id < 0) : Tracked s.advance := by
  rw [Session.advance]
  cases hevent : s.event with
  | waiting | startVoice => exact h
  | vadStart =>
      have hstarting : s.Starting := by simp [Starting, hevent]
      dsimp only
      split_ifs
      · exact h.quiet (quiet_goto (.inl rfl) rfl rfl (fun _ ↦ .inl hstarting) (by simp)
          (by simp [hevent]))
      · exact h.quiet (quiet_goto (.inl rfl) rfl rfl (fun _ ↦ .inl hstarting) (by simp)
          (by simp [hevent]))
  | store id => exact h.assign hevent (hopen id hevent)
  | read use =>
      exact h.quiet (quiet_goto (.inl rfl) rfl rfl (fun h ↦ h.elim) (by simp) (by simp [hevent]))
  | call use id =>
      refine h.quiet (quiet_goto (.inr ⟨use, id, rfl⟩) rfl rfl ?_ ?_ (by simp [hevent]))
      · intro hstarting
        cases use <;> exact hstarting.elim
      · intro other hother
        cases use <;> cases hother
  | clear =>
      have hclear : Tracked (s.clear (-1)) := h.clear (.inl (by decide))
      exact hclear.quiet (quiet_goto (.inl rfl) rfl rfl (fun h ↦ h.elim) (by simp)
        (by simp [Session.clear, hevent]))
  | cancelDone =>
      refine h.quiet (quiet_goto (.inl rfl) rfl rfl ?_ ?_ (by simp [hevent]))
      · intro hstarting
        cases hcloud : s.cloudVadEnable <;> simp [Starting, hcloud] at hstarting
      · intro id hid
        cases hcloud : s.cloudVadEnable <;> simp [hcloud] at hid

theorem response_onResponse (s : Session) (sr : SpeechResult) :
    (s.onResponse sr).response.result? = some sr := by
  unfold Session.onResponse
  by_cases harbitration : arbitration (s.nextActivation sr) = true
  · rw [if_pos harbitration]
    rfl
  · rw [if_neg harbitration]
    cases sr.type with
    | error =>
        dsimp only
        split_ifs <;> rfl
    | _ => rfl

theorem Tracked.respond {s : Session} (h : Tracked s) : Tracked (s.respond order) := by
  rw [Session.respond]
  cases hresponse : s.response with
  | polling => exact h
  | asrFinish sr =>
      dsimp only
      split_ifs
      · exact h.quiet (quiet_of_event (.inl rfl) rfl rfl fun _ hsr ↦ .inl (by rw [hresponse]; exact hsr))
      · exact h.quiet (quiet_of_event (.inl rfl) rfl rfl fun _ hsr ↦ .inl (by rw [hresponse]; exact hsr))
  | finished sr | error sr =>
      exact h.quiet (quiet_of_event (.inl rfl) rfl rfl fun _ hsr ↦ .inl (by rw [hresponse]; exact hsr))
  | clear sr =>
      have hstart : .startVoice sr.id ∈ s.log := h.told sr (by rw [hresponse]; rfl)
      dsimp only
      split_ifs
      · exact (h.clear (.inr hstart)).quiet (quiet_of_event (.inl rfl) rfl rfl fun _ hsr ↦ by cases hsr)
      · exact h.quiet (quiet_of_event (.inl rfl) rfl rfl fun _ hsr ↦ by cases hsr)

theorem quiet_networkStateChange (s : Session) (connected : Bool) :
    Quiet s (s.networkStateChange connected) := by
  rw [Session.networkStateChange]
  split_ifs <;> exact quiet_of_event (.inl rfl) rfl rfl fun _ h ↦ .inl h

theorem Tracked.goOn {s : Session} (h : Tracked s) (prepareOk cloudVadEnable : Bool) :
    Tracked (s.goOn prepareOk cloudVadEnable) := by
  rw [Session.goOn]
  cases s.network with
  | outside => exact h
  | preparing =>
      dsimp only
      split_ifs
      · refine h.quiet (quiet_of_event (.inr ⟨.prepare, rfl, ?_⟩) rfl rfl fun _ h ↦ .inl h)
        simp [Action.IsStart]
      · exact h.quiet (quiet_of_event (.inl rfl) rfl rfl fun _ h ↦ .inl h)
  | clearing =>
      have hclear : Tracked (s.clear (-1)) := h.clear (.inl (by decide))
      exact hclear.quiet (quiet_of_event (.inl rfl) rfl rfl fun _ h ↦ .inl h)
  | releasing =>
      refine h.quiet (quiet_of_event (.inr ⟨.release, rfl, ?_⟩) rfl rfl fun _ h ↦ .inl h)
      simp [Action.IsStart]
  | publishing | retiring => exact h.quiet (quiet_of_event (.inl rfl) rfl rfl fun _ h ↦ .inl h)

theorem Tracked.step {s : Session} (h : Tracked s) (move : Move) (hfollows : s.FollowsStart move)
    (hopen : s.StoresOpen move) : Tracked (step order s move) := by
  cases move with
  | event event =>
      rw [Session.step]
      split_ifs with hwaiting
      · exact h.quiet (quiet_onEvent event hwaiting)
      · exact h
  | advance => exact h.advance hopen
  | startVoice id => exact h.startVoice id
  | result sr =>
      rw [Session.step]
      split_ifs
      · have hsame := same_onResponse s sr
        refine h.quiet (quiet_of_event (.inl hsame.log) hsame.sessionId hsame.event ?_)
        intro other hother
        rw [response_onResponse] at hother
        exact .inr (Option.some_inj.mp hother ▸ hfollows)
      · exact h
  | respond => exact h.respond order
  | networkStateChange connected => exact h.quiet (quiet_networkStateChange s connected)
  | network prepareOk cloudVadEnable => exact h.goOn prepareOk cloudVadEnable

/-- An assignment after a final result leaves the session stuck at once. -/
theorem Tracked.stuck {s : Session} (h : Tracked s) {move : Move} (hlate : ¬ s.StoresOpen move) :
    ¬ (Session.step order s move).NoStuck order := by
  cases move with
  | advance =>
      simp only [StoresOpen, not_forall] at hlate
      obtain ⟨id, hevent, hclear, hid⟩ := hlate
      have hstep : Session.step order s .advance = { s with sessionId := id, event := .waiting } := by
        rw [Session.step, Session.advance, hevent]
      have hstart : .startVoice id ∈ s.log := ((h.store id hevent).resolve_left hid).mem
      rw [hstep]
      exact fun hno ↦ (hno id hstart hclear (by simp)).1 rfl
  | _ => exact absurd trivial hlate

/-- **No stuck session.** In a run in which results follow their `start_voice`, `session_id` never
keeps an id whose final result has been worked off, exactly if the event thread never assigns an id
after a final result for it. -/
theorem noStuck_throughout_iff (moves : List Move)
    (hfollows : Along (Session.step order) FollowsStart new moves) :
    Throughout (Session.step order) (NoStuck order) new moves ↔
      Along (Session.step order) StoresOpen new moves := by
  refine throughout_exact_of Tracked _ ?_ ?_ ?_ tracked_new hfollows
  · exact fun s move h hgiven hok ↦ h.step order move hgiven hok
  · exact fun s move h _ hlate ↦ h.stuck order hlate
  · exact fun s h ↦ h.noStuck order

/-- The result of a session comes after its id was assigned. -/
def inTime : List Move :=
  opening false ++ [.result ⟨1, .asrFinish, 0, none⟩, .respond, .respond, .respond]

theorem noStuck_inTime :
    Along (Session.step headerOrder) FollowsStart new inTime ∧
      Throughout (Session.step headerOrder) (NoStuck headerOrder) new inTime := by
  have hfollows : Along (Session.step headerOrder) FollowsStart new inTime := by
    refine ⟨trivial, trivial, trivial, trivial, trivial, trivial, trivial, trivial, ?_, trivial,
      trivial, trivial, trivial⟩
    exact List.mem_of_elem_eq_true (by decide)
  refine ⟨hfollows, (noStuck_throughout_iff headerOrder inTime hfollows).mpr ?_⟩
  refine ⟨trivial, trivial, trivial, trivial, trivial, ?_, trivial, ?_, trivial, trivial, trivial,
    trivial, trivial⟩
  · intro id hevent
    exact nomatch hevent
  · intro id hevent hclear
    obtain rfl := EventPc.store.inj hevent
    exact absurd (List.elem_eq_true_of_mem hclear) (by decide)

/-- The result of a session comes between `start_voice` and the assignment. -/
def tooEarly : List Move :=
  [.networkStateChange true, .network true false, .network true false, .network true false,
    .event .vadStart, .advance, .startVoice 1, .result ⟨1, .asrFinish, 0, none⟩, .respond, .respond,
    .advance]

theorem stuck_tooEarly :
    ¬ ∀ moves, Along (Session.step headerOrder) FollowsStart new moves →
      Throughout (Session.step headerOrder) (NoStuck headerOrder) new moves := by
  intro h
  have hfollows : Along (Session.step headerOrder) FollowsStart new tooEarly := by
    refine ⟨trivial, trivial, trivial, trivial, trivial, trivial, trivial, ?_, trivial, trivial,
      trivial, trivial⟩
    exact List.mem_of_elem_eq_true (by decide)
  have hstuck := h tooEarly hfollows tooEarly (List.prefix_refl _) 1
    (List.mem_of_elem_eq_true (by decide)) (List.mem_of_elem_eq_true (by decide)) (by decide)
  exact hstuck.1 (by decide)

end Session

end Vsys.Openvoice
