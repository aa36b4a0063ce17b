import Mathlib.Data.Int.Notation
import Mathlib.Data.List.Count
import Vsys.Trace.History
import Vsys.Trace.Run

/-!
# The siren side of `VoiceService`

`init`, `start_siren` and `network_state_change` drive one audio stream.  The first two hold
`siren_mutex` for their whole body.  `network_state_change` holds `speech_mutex` for its whole body
and takes `siren_mutex` inside, so that other calls may come between its first lines and its block
under `siren_mutex`: it is two steps here, and the others are one.

The calls the service makes are kept in order.  `Device` is what they are made to: it accepts a
word of calls exactly if it is set up once, before everything else, and the stream is started and
stopped in turn.  `Service.Inv` says that the calls made so far have brought the device where
`mCurrentSirenState` says it is.
-/

namespace Vsys.Openvoice

open Vsys.Trace

/-- The values of `mCurrentSirenState`. -/
inductive SirenState
  | unknown
  | inited
  | started
  | stoped
  deriving DecidableEq, Repr

/-- The values of `mCurrentSpeechState`. -/
inductive SpeechState
  | unknown
  | prepared
  | released
  deriving DecidableEq, Repr

/-- The calls made to the siren and, for the event thread, to `pthread_create`. -/
inductive Call
  | setup (ok : Bool)
  | createEventThread
  | startStream
  | stopStream
  deriving DecidableEq, Repr

/-- The call starts or stops the stream. -/
def Call.isStream : Call → Bool
  | .startStream | .stopStream => true
  | .setup _ | .createEventThread => false

/-! ## The device -/

/-- Where the calls have brought the siren. -/
inductive Device
  | closed
  | opened
  | idle
  | running
  deriving DecidableEq, Repr

namespace Device

/-- The device after one more call, if the call is in order. -/
def accept : Device → Call → Option Device
  | .closed, .setup false => some .closed
  | .closed, .setup true => some .opened
  | .opened, .createEventThread => some .idle
  | .idle, .startStream => some .running
  | .running, .stopStream => some .idle
  | _, _ => none

/-- The device after a list of calls, if all of them are in order. -/
def replay (calls : List Call) : Option Device :=
  calls.foldlM accept .closed

/-- The five calls that are in order. -/
theorem accept_cases {device after : Device} {call : Call} (h : device.accept call = some after) :
    (device = .closed ∧ call = .setup false ∧ after = .closed) ∨
    (device = .closed ∧ call = .setup true ∧ after = .opened) ∨
    (device = .opened ∧ call = .createEventThread ∧ after = .idle) ∨
    (device = .idle ∧ call = .startStream ∧ after = .running) ∨
    (device = .running ∧ call = .stopStream ∧ after = .idle) := by
  rcases call with ⟨_ | _⟩ | _ | _ | _ <;> cases device <;> simp_all [accept]

theorem replay_concat (calls : List Call) (call : Call) :
    replay (calls ++ [call]) = (replay calls).bind (accept · call) := by
  simp only [replay, List.foldlM_append, List.foldlM_cons, List.foldlM_nil]
  cases List.foldlM accept Device.closed calls with
  | none => rfl
  | some device => exact bind_pure (accept device call)

end Device

/-- The calls that start and stop the stream, in order. -/
def streamCalls (calls : List Call) : List Call := calls.filter Call.isStream

/-- The stream is running: the last call for it started it. -/
def Running (calls : List Call) : Prop := (streamCalls calls).getLast? = some .startStream

instance (calls : List Call) : Decidable (Running calls) :=
  inferInstanceAs (Decidable (_ = _))

/-- The call for the stream whose turn it is after `i` others. -/
def turn (i : ℕ) : Call := if i % 2 = 0 then .startStream else .stopStream

/-- The calls for the stream alternate, and the first one starts it. -/
def Alternate (calls : List Call) : Prop :=
  streamCalls calls = (List.range (streamCalls calls).length).map turn

/-- Every call for the stream comes after a `setup` that succeeded. -/
def SetUpFirst (calls : List Call) : Prop :=
  Guarded (fun before call ↦ call.isStream = true → .setup true ∈ before) calls

theorem streamCalls_concat (calls : List Call) (call : Call) :
    streamCalls (calls ++ [call]) = streamCalls calls ++ if call.isStream then [call] else [] := by
  rw [streamCalls, List.filter_append, ← streamCalls]
  cases h : call.isStream <;> simp [h]

theorem alternate_concat {calls : List Call} {call : Call} (h : Alternate calls)
    (hturn : call.isStream = true → call = turn (streamCalls calls).length) :
    Alternate (calls ++ [call]) := by
  rw [Alternate, streamCalls_concat]
  cases hcall : call.isStream with
  | false => simpa [Alternate] using h
  | true =>
      rw [if_pos rfl, List.length_append, List.length_singleton, List.range_succ, List.map_append,
        List.map_singleton, ← h, ← hturn hcall]

/-- Calls that alternate leave the stream running if their number is odd. -/
theorem running_iff_of_alternate {calls : List Call} (h : Alternate calls) :
    Running calls ↔ (streamCalls calls).length % 2 = 1 := by
  rw [Running, h]
  cases hlen : (streamCalls calls).length with
  | zero => simp
  | succ n =>
      rw [List.range_succ, List.map_append, List.map_singleton, List.getLast?_concat,
        Option.some_inj, List.length_append, List.length_map, List.length_range,
        List.length_singleton, turn]
      split_ifs with hn
      · exact iff_of_true rfl (by omega)
      · exact iff_of_false (by simp) (by omega)

namespace Device

/-- How often `setup` has succeeded. -/
def setups : Device → ℕ
  | .closed => 0
  | .opened | .idle | .running => 1

/-- How many event threads there are. -/
def threads : Device → ℕ
  | .closed | .opened => 0
  | .idle | .running => 1

end Device

/-- What the words of the device have in common, by the device they lead to. -/
structure Orderly (calls : List Call) (device : Device) : Prop where
  alternate : Alternate calls
  parity : (streamCalls calls).length % 2 = if device = .running then 1 else 0
  setUpFirst : SetUpFirst calls
  setups : calls.count (.setup true) = device.setups
  threads : calls.count .createEventThread = device.threads

theorem orderly_nil : Orderly [] .closed where
  alternate := rfl
  parity := rfl
  setUpFirst := guarded_nil
  setups := rfl
  threads := rfl

/-- A call that is not for the stream. -/
theorem Orderly.concat_other {calls : List Call} {device after : Device} {call : Call}
    (h : Orderly calls device) (hcall : call.isStream = false)
    (hrunning : after = .running ↔ device = .running)
    (hsetups : device.setups + [call].count (.setup true) = after.setups)
    (hthreads : device.threads + [call].count .createEventThread = after.threads) :
    Orderly (calls ++ [call]) after where
  alternate := alternate_concat h.alternate (by simp [hcall])
  parity := by simp [streamCalls_concat, hcall, h.parity, hrunning]
  setUpFirst := Guarded.concat h.setUpFirst (by simp [hcall])
  setups := by rw [List.count_append, h.setups, hsetups]
  threads := by rw [List.count_append, h.threads, hthreads]

/-- A call for the stream, when it is its turn. -/
theorem Orderly.concat_stream {calls : List Call} {device after : Device} {call : Call}
    (h : Orderly calls device) (hcall : call = turn (if device = .running then 1 else 0))
    (hrunning : after = .running ↔ device ≠ .running)
    (hdevice : device.setups = 1) (hsetups : after.setups = 1)
    (hthreads : after.threads = device.threads) :
    Orderly (calls ++ [call]) after := by
  have hstream : call.isStream = true := by
    rw [hcall, turn]
    split_ifs <;> rfl
  have hturn : call = turn (streamCalls calls).length := by
    rw [hcall, ← h.parity, turn, turn, Nat.mod_mod]
  have hother : [call].count (.setup true) = 0 ∧ [call].count .createEventThread = 0 := by
    rw [hcall, turn]
    split_ifs <;> exact ⟨rfl, rfl⟩
  refine ⟨alternate_concat h.alternate fun _ ↦ hturn, ?_, Guarded.concat h.setUpFirst ?_, ?_, ?_⟩
  · rw [streamCalls_concat, if_pos hstream, List.length_append, List.length_singleton, Nat.add_mod,
      h.parity]
    by_cases hdev : device = .running <;> simp [hrunning, hdev]
  · intro _
    rw [← List.count_pos_iff, h.setups, hdevice]
    exact Nat.one_pos
  · rw [List.count_append, h.setups, hother.1, hdevice, hsetups]
  · rw [List.count_append, h.threads, hother.2, hthreads, Nat.add_zero]

theorem Orderly.concat {calls : List Call} {device after : Device} {call : Call}
    (h : Orderly calls device) (haccept : device.accept call = some after) :
    Orderly (calls ++ [call]) after := by
  obtain ⟨rfl, rfl, rfl⟩ | ⟨rfl, rfl, rfl⟩ | ⟨rfl, rfl, rfl⟩ | ⟨rfl, rfl, rfl⟩ | ⟨rfl, rfl, rfl⟩ :=
    Device.accept_cases haccept
  · exact h.concat_other rfl Iff.rfl rfl rfl
  · exact h.concat_other rfl (by simp) rfl rfl
  · exact h.concat_other rfl (by simp) rfl rfl
  · exact h.concat_stream rfl (by simp) rfl rfl rfl
  · exact h.concat_stream rfl (by simp) rfl rfl rfl

/-- Every word the device accepts is orderly. -/
theorem orderly_of_replay {calls : List Call} {device : Device}
    (h : Device.replay calls = some device) : Orderly calls device := by
  induction calls using List.reverseRecOn generalizing device with
  | nil =>
      obtain rfl := Option.some_inj.mp h
      exact orderly_nil
  | append_singleton calls call ih =>
      rw [Device.replay_concat, Option.bind_eq_some_iff] at h
      obtain ⟨before, hbefore, haccept⟩ := h
      exact (ih hbefore).concat haccept

/-! ## The service -/

/-- Where the call of `network_state_change` that holds `speech_mutex` stands. -/
inductive Network
  /-- Nobody holds it. -/
  | outside
  /-- Prepared, before the block under `siren_mutex`. -/
  | connecting
  /-- About to release, before the block under `siren_mutex`. -/
  | disconnecting
  deriving DecidableEq, Repr

/-- The fields of `VoiceService` these functions use, and the calls made so far. -/
structure Service where
  mCurrentSirenState : SirenState
  mCurrentSpeechState : SpeechState
  openSiren : Bool
  network : Network
  calls : List Call
  deriving DecidableEq, Repr

/-- What is called, and how the calls it depends on turn out. -/
inductive Op
  | init (setupOk : Bool)
  | startSiren (isopen : Bool) (findCard : ℕ → ℤ)
  | networkStateChange (connected : Bool) (prepareOk : Bool)
  /-- The call that holds `speech_mutex` goes on. -/
  | networkSiren (findCard : ℕ → ℤ)

namespace Service

/-- The constructor: `openSiren` is true from the beginning. -/
def new : Service where
  mCurrentSirenState := .unknown
  mCurrentSpeechState := .unknown
  openSiren := true
  network := .outside
  calls := []

/-- `wait_for_alsa_usb_card`: three looks at the card. -/
def waitForAlsaUsbCard (findCard : ℕ → ℤ) : Bool :=
  (List.range 3).any fun index ↦ 0 ≤ findCard index

/-- `init`, with what it returns. -/
def init (s : Service) (setupOk : Bool) : Service × Bool :=
  if s.mCurrentSirenState = .unknown then
    if setupOk then
      ({ s with
        mCurrentSirenState := .inited
        calls := s.calls ++ [.setup true] ++ [.createEventThread] }, true)
    else ({ s with calls := s.calls ++ [.setup false] }, false)
  else (s, true)

/-- The siren is set up and does not run. -/
def isIdle (s : Service) : Bool :=
  s.mCurrentSirenState = .inited || s.mCurrentSirenState = .stoped

variable (usbAudioDevice : Bool)

/-- The stream is started; with `USB_AUDIO_DEVICE`, only if the card is found. -/
def startStream (s : Service) (findCard : ℕ → ℤ) : Service :=
  if !usbAudioDevice || waitForAlsaUsbCard findCard then
    { s with mCurrentSirenState := .started, calls := s.calls ++ [.startStream] }
  else s

/-- The stream is stopped. -/
def stopStream (s : Service) : Service :=
  { s with mCurrentSirenState := .stoped, calls := s.calls ++ [.stopStream] }

/-- `start_siren`. -/
def startSiren (s : Service) (isopen : Bool) (findCard : ℕ → ℤ) : Service :=
  let t :=
    if isopen && s.isIdle then { s with openSiren := true }.startStream usbAudioDevice findCard
    else if !isopen && s.mCurrentSirenState = .started then s.stopStream
    else s
  if !isopen && t.mCurrentSirenState ≠ .unknown then { t with openSiren := false } else t

/-- `network_state_change` up to its block under `siren_mutex`. -/
def networkStateChange (s : Service) (connected prepareOk : Bool) : Service :=
  if s.network ≠ .outside then s
  else if connected && s.mCurrentSpeechState ≠ .prepared then
    if prepareOk then { s with mCurrentSpeechState := .prepared, network := .connecting } else s
  else if !connected && s.mCurrentSpeechState = .prepared then { s with network := .disconnecting }
  else s

/-- The block of `network_state_change` under `siren_mutex`, and what follows it. -/
def networkSiren (s : Service) (findCard : ℕ → ℤ) : Service :=
  match s.network with
  | .outside => s
  | .connecting =>
      let t := if s.openSiren && s.isIdle then s.startStream usbAudioDevice findCard else s
      { t with network := .outside }
  | .disconnecting =>
      let t := if s.mCurrentSirenState = .started then s.stopStream else s
      { t with mCurrentSpeechState := .released, network := .outside }

/-- One step of the service. -/
def step (s : Service) : Op → Service
  | .init setupOk => (s.init setupOk).1
  | .startSiren isopen findCard => s.startSiren usbAudioDevice isopen findCard
  | .networkStateChange connected prepareOk => s.networkStateChange connected prepareOk
  | .networkSiren findCard => s.networkSiren usbAudioDevice findCard

/-! ## The calls and the state -/

/-- The device `mCurrentSirenState` stands for. -/
def device (s : Service) : Device :=
  match s.mCurrentSirenState with
  | .unknown => .closed
  | .inited | .stoped => .idle
  | .started => .running

theorem device_eq_running_iff (s : Service) :
    s.device = .running ↔ s.mCurrentSirenState = .started := by
  rw [device]
  cases s.mCurrentSirenState <;> simp

theorem device_of_isIdle {s : Service} (h : s.isIdle = true) : s.device = .idle := by
  rw [isIdle] at h
  rw [device]
  cases hstate : s.mCurrentSirenState <;> simp [hstate] at h ⊢

/-- The calls have brought the device where `mCurrentSirenState` says, and a stream that runs is
wished for. -/
structure Inv (s : Service) : Prop where
  replay : Device.replay s.calls = some s.device
  wished : s.mCurrentSirenState = .started → s.openSiren = true

theorem inv_new : Inv new := ⟨rfl, fun h ↦ nomatch h⟩

/-- A call the device accepts brings it where it then is. -/
theorem Inv.replay_concat {s : Service} (h : Inv s) {call : Call} {after : Device}
    (haccept : s.device.accept call = some after) :
    Device.replay (s.calls ++ [call]) = some after := by
  rw [Device.replay_concat, h.replay]
  exact haccept

theorem Inv.init {s : Service} (h : Inv s) (setupOk : Bool) : Inv (s.init setupOk).1 := by
  rw [Service.init]
  split_ifs with hstate hok
  · have hclosed : s.device = .closed := by rw [device, hstate]
    have hopened : Device.replay (s.calls ++ [.setup true]) = some .opened :=
      h.replay_concat (by rw [hclosed]; rfl)
    refine ⟨?_, fun hstarted ↦ nomatch hstarted⟩
    rw [Device.replay_concat, hopened]
    rfl
  · have hclosed : s.device = .closed := by rw [device, hstate]
    refine ⟨?_, h.wished⟩
    have hafter : Device.replay (s.calls ++ [.setup false]) = some .closed :=
      h.replay_concat (by rw [hclosed]; rfl)
    exact hafter.trans (congrArg some hclosed.symm)
  · exact h

theorem Inv.startStream {s : Service} (h : Inv s) (hidle : s.isIdle = true)
    (hwish : s.openSiren = true) (findCard : ℕ → ℤ) :
    Inv (s.startStream usbAudioDevice findCard) := by
  rw [Service.startStream]
  split_ifs
  · refine ⟨h.replay_concat ?_, fun _ ↦ hwish⟩
    rw [device_of_isIdle hidle]
    rfl
  · exact h

theorem Inv.stopStream {s : Service} (h : Inv s) (hstarted : s.mCurrentSirenState = .started) :
    Inv s.stopStream := by
  refine ⟨h.replay_concat ?_, fun hagain ↦ nomatch hagain⟩
  rw [(device_eq_running_iff s).mpr hstarted]
  rfl

/-- The wish alone may change while the stream does not run. -/
theorem Inv.setOpenSiren {s : Service} (h : Inv s) (b : Bool)
    (hstate : s.mCurrentSirenState = .started → b = true) : Inv { s with openSiren := b } :=
  ⟨h.replay, hstate⟩

theorem ne_started_of_isIdle {s : Service} (h : s.isIdle = true) :
    s.mCurrentSirenState ≠ .started := by
  intro hstarted
  simp [isIdle, hstarted] at h

theorem Inv.startSiren {s : Service} (h : Inv s) (isopen : Bool) (findCard : ℕ → ℤ) :
    Inv (s.startSiren usbAudioDevice isopen findCard) := by
  cases isopen with
  | true =>
      cases hidle : s.isIdle with
      | true =>
          have hopen : Inv { s with openSiren := true } := h.setOpenSiren true fun _ ↦ rfl
          simpa [Service.startSiren, hidle] using hopen.startStream usbAudioDevice hidle rfl findCard
      | false => simpa [Service.startSiren, hidle] using h
  | false =>
      by_cases hstarted : s.mCurrentSirenState = .started
      · have hstop := (h.stopStream hstarted).setOpenSiren false fun hagain ↦ nomatch hagain
        simpa [Service.startSiren, hstarted, Service.stopStream] using hstop
      · by_cases hunknown : s.mCurrentSirenState = .unknown
        · simpa [Service.startSiren, hunknown] using h
        · have hoff := h.setOpenSiren false fun hagain ↦ absurd hagain hstarted
          simpa [Service.startSiren, hstarted, hunknown] using hoff

theorem Inv.networkStateChange {s : Service} (h : Inv s) (connected prepareOk : Bool) :
    Inv (s.networkStateChange connected prepareOk) := by
  rw [Service.networkStateChange]
  split_ifs <;> exact ⟨h.replay, h.wished⟩

theorem Inv.networkSiren {s : Service} (h : Inv s) (findCard : ℕ → ℤ) :
    Inv (s.networkSiren usbAudioDevice findCard) := by
  rw [Service.networkSiren]
  cases s.network with
  | outside => exact h
  | connecting =>
      by_cases hwish : (s.openSiren && s.isIdle) = true
      · obtain ⟨hopen, hidle⟩ := Bool.and_eq_true_iff.mp hwish
        have hstart := h.startStream usbAudioDevice hidle hopen findCard
        rw [if_pos hwish]
        exact ⟨hstart.replay, hstart.wished⟩
      · rw [if_neg hwish]
        exact ⟨h.replay, h.wished⟩
  | disconnecting =>
      by_cases hstarted : s.mCurrentSirenState = .started
      · have hstop := h.stopStream hstarted
        rw [if_pos hstarted]
        exact ⟨hstop.replay, hstop.wished⟩
      · rw [if_neg hstarted]
        exact ⟨h.replay, h.wished⟩

theorem Inv.step {s : Service} (h : Inv s) (op : Op) : Inv (step usbAudioDevice s op) := by
  cases op with
  | init setupOk => exact h.init setupOk
  | startSiren isopen findCard => exact h.startSiren usbAudioDevice isopen findCard
  | networkStateChange connected prepareOk => exact h.networkStateChange connected prepareOk
  | networkSiren findCard => exact h.networkSiren usbAudioDevice findCard

theorem inv_run (ops : List Op) : Inv (run (step usbAudioDevice) new ops) :=
  run_keeps (fun _ op h ↦ h.step usbAudioDevice op) inv_new ops

/-! ## After `start_siren(false)` -/

/-- The siren is set up, does not run and is not wished for. -/
structure TurnedOff (s : Service) : Prop where
  isIdle : s.isIdle = true
  openSiren : s.openSiren = false

/-- An accepted `start_siren(false)` turns the siren off. -/
theorem turnedOff_startSiren {s : Service} (hstate : s.mCurrentSirenState ≠ .unknown)
    (findCard : ℕ → ℤ) : TurnedOff (s.startSiren usbAudioDevice false findCard) := by
  by_cases hstarted : s.mCurrentSirenState = .started
  · constructor <;> simp [Service.startSiren, hstarted, Service.stopStream, Service.isIdle]
  · constructor
    · cases h : s.mCurrentSirenState <;> simp_all [Service.startSiren, Service.isIdle]
    · simp [Service.startSiren, hstarted, hstate]

/-- Only `start_siren(true)` turns it on again. -/
theorem TurnedOff.step {s : Service} (h : TurnedOff s) {op : Op}
    (hop : ∀ findCard, op ≠ .startSiren true findCard) : TurnedOff (step usbAudioDevice s op) := by
  obtain ⟨hidle, hopen⟩ := h
  have hunknown : s.mCurrentSirenState ≠ .unknown := by
    intro hunknown
    simp [Service.isIdle, hunknown] at hidle
  have hstarted := ne_started_of_isIdle hidle
  cases op with
  | init setupOk => exact ⟨by simpa [Service.step, Service.init, hunknown] using hidle,
      by simpa [Service.step, Service.init, hunknown] using hopen⟩
  | startSiren isopen findCard =>
      cases isopen with
      | true => exact absurd rfl (hop findCard)
      | false => exact turnedOff_startSiren usbAudioDevice hunknown findCard
  | networkStateChange connected prepareOk =>
      rw [Service.step, Service.networkStateChange]
      split_ifs <;> exact ⟨hidle, hopen⟩
  | networkSiren findCard =>
      rw [Service.step, Service.networkSiren]
      cases s.network with
      | outside => exact ⟨hidle, hopen⟩
      | connecting =>
          have hoff : ¬ (s.openSiren && s.isIdle) = true := by simp [hopen]
          rw [if_neg hoff]
          exact ⟨hidle, hopen⟩
      | disconnecting =>
          rw [if_neg hstarted]
          exact ⟨hidle, hopen⟩

/-- No call of `start_siren(true)` is among these. -/
def NoStartSiren (ops : List Op) : Prop := ∀ findCard, Op.startSiren true findCard ∉ ops

theorem turnedOff_run {s : Service} (h : TurnedOff s) {ops : List Op} (hops : NoStartSiren ops) :
    TurnedOff (run (Service.step usbAudioDevice) s ops) := by
  refine run_invariant (fun _ op h hop ↦ h.step usbAudioDevice hop) h (along_of_forall ?_ s)
  intro op hop _ findCard heq
  exact hops findCard (heq ▸ hop)

/-! ## Every run -/

/-- The calls made in a run, by the state they leave. -/
structure Contract (s : Service) : Prop where
  alternate : Alternate s.calls
  setUpFirst : SetUpFirst s.calls
  running : Running s.calls ↔ s.mCurrentSirenState = .started
  setups : s.calls.count (.setup true) ≤ 1
  threads : s.calls.count .createEventThread ≤ 1

theorem Inv.contract {s : Service} (h : Inv s) : Contract s := by
  have horderly := orderly_of_replay h.replay
  refine ⟨horderly.alternate, horderly.setUpFirst, ?_, ?_, ?_⟩
  · rw [running_iff_of_alternate horderly.alternate, horderly.parity, ← device_eq_running_iff]
    split_ifs with hrunning
    · exact iff_of_true rfl hrunning
    · exact iff_of_false (by simp) hrunning
  · rw [horderly.setups]
    cases s.device <;> simp [Device.setups]
  · rw [horderly.threads]
    cases s.device <;> simp [Device.threads]

/-- **The siren runs as its state says.** After every run, the stream has been started and stopped
in turn and never before `setup` succeeded, it is running exactly in state `STARTED`, and `setup`
has succeeded and the event thread has been created at most once.  If an accepted
`start_siren(false)` was made in the run and no `start_siren(true)` since, the stream is
stopped. -/
theorem contract_run (ops : List Op) :
    Contract (run (step usbAudioDevice) new ops) ∧
      ∀ first findCard later, ops = first ++ .startSiren false findCard :: later →
        (run (step usbAudioDevice) new first).mCurrentSirenState ≠ .unknown →
        NoStartSiren later → ¬ Running (run (step usbAudioDevice) new ops).calls := by
  refine ⟨(inv_run usbAudioDevice ops).contract, ?_⟩
  intro first findCard later hops hstate hlater hrunning
  have hstarted := ((inv_run usbAudioDevice ops).contract.running).mp hrunning
  rw [hops, run_append, run_cons] at hstarted
  have hoff := turnedOff_startSiren usbAudioDevice hstate findCard
  exact ne_started_of_isIdle (turnedOff_run usbAudioDevice hoff hlater).isIdle hstarted

/-- The siren is started, turned off, and the network comes back. -/
def reconnected : List Op :=
  [.init true, .startSiren true (fun _ ↦ 0), .startSiren false (fun _ ↦ 0),
    .networkStateChange true true, .networkSiren (fun _ ↦ 0)]

theorem contract_reconnected :
    Contract (run (step true) new reconnected) ∧
      ¬ Running (run (step true) new reconnected).calls := by
  have h := contract_run true reconnected
  refine ⟨h.1, h.2 [.init true, .startSiren true (fun _ ↦ 0)] (fun _ ↦ 0)
    [.networkStateChange true true, .networkSiren (fun _ ↦ 0)] rfl (by decide) ?_⟩
  intro findCard hmem
  simp at hmem

end Service

end Vsys.Openvoice
