import Mathlib.Algebra.Order.Group.Nat
import Vsys.Ciu98.CrcErrors
import Vsys.Ciu98.SpiProtocol

/-!
# What an exchange with the secure element guarantees

Whatever the element and the bus do: a response that is handed up is the contents of a frame that
checks; the command is sent only a bounded number of times; and an exchange in which nothing comes
in that checks ends after few frames.
-/

namespace Vsys.Ciu98

open Vsys.Trace

/-! ## Frames -/

theorem edcGood_append_edcBytes (data : List UInt8) :
    edcGood (data ++ edcBytes (spiCrc16 .b data)) = true := by
  have hlength : (data ++ edcBytes (spiCrc16 .b data)).length - 2 = data.length := by
    rw [List.length_append]
    exact Nat.add_sub_cancel _ 2
  rw [edcGood, hlength, List.drop_left, List.take_left]
  exact beq_self_eq_true _

/-- What is put into the queue checks, and it is what the other side takes out. -/
theorem edcGood_spiQueueIn (payload : List UInt8) : edcGood (spiQueueIn payload) = true :=
  edcGood_append_edcBytes _

theorem spiStrip_spiQueueIn (payload : List UInt8) : spiStrip (spiQueueIn payload) = payload := by
  have hlength : (spiQueueIn payload).length - 5 = payload.length := by
    simp only [spiQueueIn, List.length_append, List.length_cons, edcBytes, List.length_nil]
    omega
  rw [spiStrip, hlength]
  simp [spiQueueIn]

/-- A frame of one byte, which would end inside its own checksum, never checks. -/
theorem edcGood_short (x : UInt8) : edcGood [0x0E, 0x00, 0x01, x] = false := by
  rw [Bool.eq_false_iff]
  intro h
  have hbytes : [0x01, x] = edcBytes (spiCrc16 .b [0x0E, 0x00]) := beq_iff_eq.mp h
  exact absurd (List.cons.inj hbytes).1 (by decide)

@[simp]
theorem fillRest_length (len : ℕ) (rest : List UInt8) : (fillRest len rest).length = len := by
  simp [fillRest]

theorem Head.len_lt (head : Head) : head.len < 2 ^ 16 := by
  have hhigh := head.lenHigh.toNat_lt
  have hlow := head.lenLow.toNat_lt
  rw [Head.len]
  omega

theorem Head.bytes_eq {head : Head} (hpib : head.pib = pibInformationFrame) :
    head.bytes = [pibInformationFrame, UInt8.ofNat (head.len / 256), UInt8.ofNat head.len] := by
  have hlow := head.lenLow.toNat_lt
  have hdiv : head.len / 256 = head.lenHigh.toNat := by
    rw [Head.len]
    omega
  have hmod : UInt8.ofNat head.len = head.lenLow := by
    apply UInt8.toNat_inj.mp
    rw [UInt8.toNat_ofNat', Head.len]
    omega
  rw [Head.bytes, hpib, hdiv, hmod, UInt8.ofNat_toNat]

/-- A frame that checks has room for its check sum. -/
theorem two_le_len {head : Head} {rest : List UInt8} (hpib : head.pib = pibInformationFrame)
    (hpos : 0 < head.len) (hlength : rest.length = head.len)
    (hgood : edcGood (head.bytes ++ rest) = true) : 2 ≤ head.len := by
  by_contra hone
  have hlen : head.len = 1 := by omega
  obtain ⟨x, rfl⟩ := List.length_eq_one_iff.mp (hlength.trans hlen)
  have hbytes := Head.bytes_eq hpib
  rw [hlen] at hbytes
  rw [hbytes] at hgood
  exact absurd ((edcGood_short x).symm.trans hgood) Bool.false_ne_true

/-- **A frame that checks** has been framed by `proto_spi_queue_in`, up to the bus. -/
theorem exists_payload {head : Head} {rest : List UInt8} (hpib : head.pib = pibInformationFrame)
    (hpos : 0 < head.len) (hlength : rest.length = head.len)
    (hgood : edcGood (head.bytes ++ rest) = true) :
    ∃ payload, payload.length + 2 = head.len ∧ head.bytes ++ rest = spiQueueIn payload ∧
      spiStrip (head.bytes ++ rest) = payload := by
  have htwo := two_le_len hpib hpos hlength hgood
  have hcut : (head.bytes ++ rest).length - 2 = head.bytes.length + (head.len - 2) := by
    rw [List.length_append, hlength]
    omega
  have hpayload : (rest.take (head.len - 2)).length + 2 = head.len := by
    rw [List.length_take]
    omega
  have hframe : head.bytes ++ rest = spiQueueIn (rest.take (head.len - 2)) := by
    have htake : (head.bytes ++ rest).take ((head.bytes ++ rest).length - 2) =
        head.bytes ++ rest.take (head.len - 2) := by
      rw [hcut, List.take_append, List.take_of_length_le (Nat.le_add_right _ _),
        Nat.add_sub_cancel_left]
    rw [edcGood, beq_iff_eq, htake] at hgood
    rw [spiQueueIn, hpayload, Nat.mod_eq_of_lt head.len_lt]
    calc
      head.bytes ++ rest = (head.bytes ++ rest).take ((head.bytes ++ rest).length - 2) ++
          (head.bytes ++ rest).drop ((head.bytes ++ rest).length - 2) :=
        (List.take_append_drop _ _).symm
      _ = (head.bytes ++ rest.take (head.len - 2)) ++
          edcBytes (spiCrc16 .b (head.bytes ++ rest.take (head.len - 2))) := by rw [htake, hgood]
      _ = _ := by rw [Head.bytes_eq hpib]; rfl
  refine ⟨rest.take (head.len - 2), hpayload, hframe, ?_⟩
  rw [hframe, spiStrip_spiQueueIn]

/-! ## Runs -/

variable {inbuf frame : List UInt8} {sending : Except ℕ Unit} {polls : List Poll}

theorem Poll.busy_of_expired {p : Poll} (h : p.expired = true) : p.Busy := by
  rw [Poll.Busy]
  cases p.head with
  | error code => trivial
  | ok head => exact .inl h

theorem Poll.busy_of_frame {p : Poll} (h : p.frame = some frame) : p.Busy := by
  rw [Poll.frame] at h
  rw [Poll.Busy]
  cases hhead : p.head with
  | error code => trivial
  | ok head =>
      cases hrest : p.rest with
      | error code => simp [hhead, hrest] at h
      | ok rest =>
          simp only [hhead, hrest, Option.ite_none_right_eq_some] at h
          exact .inr h.1.2.1

theorem spiHandle_concat (inbuf : List UInt8) (sending : Except ℕ Unit) (polls : List Poll)
    (p : Poll) :
    spiHandle inbuf sending (polls ++ [p]) = spiStep inbuf (spiHandle inbuf sending polls) p := by
  rw [spiHandle, run_append, run_cons, run_nil]
  rfl

theorem spiStep_of_isSome {s : Exchange} (p : Poll) (h : s.result.isSome = true) :
    spiStep inbuf s p = s := if_pos h

/-- What holds at the start and is kept by every move holds after any polls. -/
theorem spiHandle_induction (inbuf : List UInt8) (sending : Except ℕ Unit)
    (inv : List Poll → Exchange → Prop)
    (start : inv [] (spiStart inbuf sending))
    (done : ∀ polls p s, inv polls s → s.result.isSome = true → inv (polls ++ [p]) s)
    (keep : ∀ polls p s s', inv polls s → s.result = none → Moves inbuf s p s' →
      inv (polls ++ [p]) s') (polls : List Poll) :
    inv polls (spiHandle inbuf sending polls) := by
  induction polls using List.reverseRecOn with
  | nil => exact start
  | append_singleton polls p ih =>
      rw [spiHandle_concat]
      cases hresult : (spiHandle inbuf sending polls).result with
      | some result =>
          have hsome : (spiHandle inbuf sending polls).result.isSome = true := by simp [hresult]
          rw [spiStep_of_isSome p hsome]
          exact done polls p _ ih hsome
      | none => exact keep polls p _ _ ih hresult (moves_spiStep inbuf p hresult)

theorem spiStart_result_ne (inbuf frame : List UInt8) (sending : Except ℕ Unit) :
    (spiStart inbuf sending).result ≠ some (.ok frame) := by
  by_cases hlong : inbuf.length > frameLenMax
  · simp [spiStart, hlong, Exchange.fail]
  · cases sending <;> simp [spiStart, hlong, Exchange.fail]

/-- A frame that is accepted has come in and checks. -/
theorem exists_poll_of_result (h : (spiHandle inbuf sending polls).result = some (.ok frame)) :
    ∃ p ∈ polls, p.frame = some frame ∧ edcGood frame = true ∧
      frame.getD 0 0 = pibInformationFrame := by
  have hinv := spiHandle_induction inbuf sending
    (fun polls s ↦ ∀ frame, s.result = some (.ok frame) → ∃ p ∈ polls, p.frame = some frame ∧
      edcGood frame = true ∧ frame.getD 0 0 = pibInformationFrame) ?_ ?_ ?_ polls
  · exact hinv frame h
  · exact fun frame h ↦ absurd h (spiStart_result_ne inbuf frame sending)
  · intro polls p s ih _ frame h
    obtain ⟨q, hq, hframe⟩ := ih frame h
    exact ⟨q, List.mem_append_left _ hq, hframe⟩
  · intro polls p s s' _ hnone hmoves frame h
    have hlast : p ∈ polls ++ [p] := List.mem_append_right _ (List.mem_singleton_self p)
    cases hmoves with
    | answer hframe hgood hpib =>
        obtain rfl : _ = frame := by simpa using h
        exact ⟨p, hlast, hframe, hgood, hpib⟩
    | stop hresult _ => simp [hresult] at h
    | stopSending hresult _ _ => simp [hresult] at h
    | _ => simp [hnone] at h

/-- **Responses.** What an exchange hands up is the contents of a frame that came in and checks; it
is not such a frame with errors in a stretch of sixteen bits. -/
theorem spiHandle_response (h : (spiHandle inbuf sending polls).result = some (.ok frame)) :
    (∃ payload, payload.length ≤ 4096 ∧ frame = spiQueueIn payload ∧ spiStrip frame = payload) ∧
      (∃ p ∈ polls, p.frame = some frame) ∧
      ∀ sent, edcGood sent = true → sent.length = frame.length → sent ≠ frame →
        ∀ first, ∃ i, (frameBits frame)[i]? ≠ (frameBits sent)[i]? ∧
          (i < first ∨ first + 16 ≤ i) := by
  obtain ⟨p, hp, hframe, hgood, hpib⟩ := exists_poll_of_result h
  have hpayload : ∃ payload, payload.length ≤ 4096 ∧ frame = spiQueueIn payload ∧
      spiStrip frame = payload := by
    rw [Poll.frame] at hframe
    cases hhead : p.head with
    | error code => simp [hhead] at hframe
    | ok head =>
        cases hrest : p.rest with
        | error code => simp [hhead, hrest] at hframe
        | ok rest =>
            simp only [hhead, hrest, Option.ite_none_right_eq_some, Option.some.injEq] at hframe
            obtain ⟨⟨-, -, hpos, hlong⟩, rfl⟩ := hframe
            obtain ⟨payload, hlength, hqueue, hstrip⟩ :=
              exists_payload hpib hpos (fillRest_length _ _) hgood
            exact ⟨payload, by omega, hqueue, hstrip⟩
  refine ⟨hpayload, ⟨p, hp, hframe⟩, fun sent hsent hlength hne first ↦ ?_⟩
  obtain ⟨payload, -, hqueue, -⟩ := hpayload
  have htwo : 2 ≤ sent.length := by
    rw [hlength, hqueue, spiQueueIn, List.length_append]
    exact Nat.le_add_left 2 _
  by_contra hnone
  push Not at hnone
  have hbad := edcGood_eq_false_of_burst hsent htwo hlength.symm hne.symm hnone
  exact absurd (hbad.symm.trans hgood) Bool.false_ne_true

theorem spiHandle_response_example :
    (∃ payload, payload.length ≤ 4096 ∧ spiQueueIn [0x90, 0x00] = spiQueueIn payload ∧
        spiStrip (spiQueueIn [0x90, 0x00]) = payload) ∧
      (∃ p ∈ [Poll.mk (.ok ⟨0x0E, 0x00, 0x04⟩) false (.ok [0x90, 0x00, 0xF3, 0xD4]) (.ok ())],
        p.frame = some (spiQueueIn [0x90, 0x00])) ∧
      ∀ sent, edcGood sent = true → sent.length = (spiQueueIn [0x90, 0x00]).length →
        sent ≠ spiQueueIn [0x90, 0x00] →
        ∀ first, ∃ i, (frameBits (spiQueueIn [0x90, 0x00]))[i]? ≠ (frameBits sent)[i]? ∧
          (i < first ∨ first + 16 ≤ i) := by
  have hresult : (spiHandle (spiQueueIn [0x80, 0x84]) (.ok ())
      [⟨.ok ⟨0x0E, 0x00, 0x04⟩, false, .ok [0x90, 0x00, 0xF3, 0xD4], .ok ()⟩]).result =
        some (.ok (spiQueueIn [0x90, 0x00])) := by rfl
  exact spiHandle_response hresult

/-! ## How often the command is sent -/

/-- The command is none of the two frames that the driver makes up itself. -/
structure IsCommand (inbuf : List UInt8) : Prop where
  ne_nak : inbuf ≠ nakFrame
  ne_wtx : inbuf ≠ wtxFrame

/-- A poll in which the timer has run out. -/
def late (polls : List Poll) : ℕ := polls.countP fun p ↦ p.expired

/-- A poll in which the element says that it has not understood. -/
def naked (polls : List Poll) : ℕ := polls.countP Poll.naks

theorem count_concat_ne {sent : List (List UInt8)} {more : List UInt8} (h : more ≠ inbuf) :
    (sent ++ [more]).count inbuf = sent.count inbuf := by
  rw [List.count_append, List.count_singleton, if_neg (by simpa using h), Nat.add_zero]

theorem count_concat_self (sent : List (List UInt8)) :
    (sent ++ [inbuf]).count inbuf = sent.count inbuf + 1 := by
  rw [List.count_append, List.count_singleton_self]

theorem late_concat (polls : List Poll) (p : Poll) :
    late (polls ++ [p]) = late polls + if p.expired then 1 else 0 := by
  rw [late, late, List.countP_append, List.countP_singleton]

theorem naked_concat (polls : List Poll) (p : Poll) :
    naked (polls ++ [p]) = naked polls + if p.naks then 1 else 0 := by
  rw [naked, naked, List.countP_append, List.countP_singleton]

/-- What bounds the number of times: each repetition is for a poll that came late, or for one that
said it had not understood; and the latter are counted. -/
structure Repeats (inbuf : List UInt8) (polls : List Poll) (s : Exchange) : Prop where
  counted : s.result = none → s.recNakCount ≤ min 3 (naked polls) ∧
    s.sent.count inbuf ≤ 1 + s.recNakCount + late polls
  count_le : s.sent.count inbuf ≤ 1 + min 3 (naked polls) + late polls

theorem Repeats.of_counted {s : Exchange} (hcount : s.recNakCount ≤ min 3 (naked polls))
    (hsent : s.sent.count inbuf ≤ 1 + s.recNakCount + late polls) : Repeats inbuf polls s where
  counted _ := ⟨hcount, hsent⟩
  count_le := by omega

theorem Repeats.of_ended {s : Exchange} (hended : s.result ≠ none)
    (hsent : s.sent.count inbuf ≤ 1 + min 3 (naked polls) + late polls) :
    Repeats inbuf polls s where
  counted hnone := absurd hnone hended
  count_le := hsent

/-- One pass repeats the command at most once, and for one of the two reasons. -/
theorem Repeats.step {s s' : Exchange} {p : Poll} (hcommand : IsCommand inbuf)
    (h : Repeats inbuf polls s) (hnone : s.result = none) (hmoves : Moves inbuf s p s') :
    Repeats inbuf (polls ++ [p]) s' := by
  have hlate := late_concat polls p
  have hnaked := naked_concat polls p
  obtain ⟨hcount, hsent⟩ := h.counted hnone
  cases hmoves with
  | wait _ => exact .of_counted (by omega) (by omega)
  | stop hresult hsame =>
      apply Repeats.of_ended (by simp [hresult])
      rw [hsame]
      omega
  | stopSending hresult hmore hcause =>
      apply Repeats.of_ended (by simp [hresult])
      rw [hmore]
      rcases hcause with ⟨rfl, -, hthree, -, hnaks⟩ | ⟨rfl, -⟩ | ⟨rfl, -⟩
      · rw [if_pos hnaks] at hnaked
        rw [count_concat_self]
        omega
      · rw [count_concat_ne hcommand.ne_wtx.symm]
        omega
      · rw [count_concat_ne hcommand.ne_nak.symm]
        omega
  | late hexpired _ =>
      rw [if_pos hexpired] at hlate
      apply Repeats.of_counted
      · dsimp only
        omega
      · rw [count_concat_self]
        dsimp only
        omega
  | answer _ _ _ => exact .of_ended (by simp) (by dsimp only; omega)
  | nakInfo hframe hgood hnaks _ hthree =>
      rw [if_pos (p.naks_of_frame hframe hgood hnaks)] at hnaked
      apply Repeats.of_counted
      · dsimp only
        omega
      · rw [count_concat_self]
        dsimp only
        omega
  | wtx _ _ =>
      apply Repeats.of_counted
      · dsimp only
        omega
      · rw [count_concat_ne hcommand.ne_wtx.symm]
        dsimp only
        omega
  | bad _ _ _ =>
      apply Repeats.of_counted
      · dsimp only
        omega
      · rw [count_concat_ne hcommand.ne_nak.symm]
        dsimp only
        omega

theorem repeats_spiStart (inbuf : List UInt8) (sending : Except ℕ Unit) :
    Repeats inbuf [] (spiStart inbuf sending) := by
  by_cases hlong : inbuf.length > frameLenMax
  · apply Repeats.of_ended <;> simp [spiStart, hlong, Exchange.fail]
  · cases sending with
    | ok _ => apply Repeats.of_counted <;> simp [spiStart, hlong]
    | error code =>
        apply Repeats.of_ended
        · simp [spiStart, hlong, Exchange.fail]
        · simp only [spiStart, hlong, Exchange.fail, if_false, List.count_singleton_self]
          omega

theorem repeats_spiHandle (hcommand : IsCommand inbuf) (sending : Except ℕ Unit)
    (polls : List Poll) : Repeats inbuf polls (spiHandle inbuf sending polls) := by
  apply spiHandle_induction inbuf sending (Repeats inbuf)
  · exact repeats_spiStart inbuf sending
  · intro polls p s h hsome
    have hcount := h.count_le
    have hlate := late_concat polls p
    have hnaked := naked_concat polls p
    refine .of_ended (fun hnone ↦ ?_) (by omega)
    rw [hnone] at hsome
    exact absurd hsome (by simp)
  · exact fun polls p s s' h hnone hmoves ↦ h.step hcommand hnone hmoves

/-! ## After a request for time -/

/-- More time has been granted: the type says so, and what is sent again is the grant. -/
def Granted (s : Exchange) : Prop := s.result = none → s.type = .wtx

theorem Granted.step {s s' : Exchange} {p : Poll} (h : Granted s) (hnone : s.result = none)
    (hmoves : Moves inbuf s p s') : Granted s' := by
  have htype := h hnone
  intro hrunning
  cases hmoves with
  | stop hresult _ => simp [hresult] at hrunning
  | stopSending hresult _ _ => simp [hresult] at hrunning
  | wtx _ _ => rfl
  | _ => exact htype

/-- Only the grant of more time is the frame that grants it. -/
theorem granted_of_mem (hcommand : IsCommand inbuf) (sending : Except ℕ Unit)
    (polls : List Poll) (hmem : wtxFrame ∈ (spiHandle inbuf sending polls).sent) :
    Granted (spiHandle inbuf sending polls) := by
  have hinv := spiHandle_induction inbuf sending
    (fun _ s ↦ wtxFrame ∈ s.sent → Granted s) ?_ ?_ ?_ polls
  · exact hinv hmem
  · intro hmem
    by_cases hlong : inbuf.length > frameLenMax
    · simp [spiStart, hlong, Exchange.fail] at hmem
    · have hne := hcommand.ne_wtx.symm
      cases sending <;> simp [spiStart, hlong, Exchange.fail, hne] at hmem
  · exact fun _ _ _ ih _ ↦ ih
  · intro polls p s s' ih hnone hmoves hmem
    -- either the frame has been there before the pass, or the pass has sent it
    by_cases hbefore : wtxFrame ∈ s.sent
    · exact (ih hbefore).step hnone hmoves
    · intro hrunning
      have hnak : wtxFrame ≠ nakFrame := by decide
      cases hmoves with
      | wtx _ _ => rfl
      | stop hresult _ => simp [hresult] at hrunning
      | stopSending hresult _ _ => simp [hresult] at hrunning
      | wait _ => exact absurd hmem hbefore
      | answer _ _ _ => exact absurd hmem hbefore
      | late _ _ => simp [hbefore, hcommand.ne_wtx.symm] at hmem
      | nakInfo _ _ _ _ _ => simp [hbefore, hcommand.ne_wtx.symm] at hmem
      | bad _ _ _ => simp [hbefore, hnak] at hmem

/-- Once time has been granted, one pass repeats the command only because it is late. -/
theorem Granted.count_le {s s' : Exchange} {p : Poll} (hcommand : IsCommand inbuf) (h : Granted s)
    (hnone : s.result = none) (hmoves : Moves inbuf s p s') :
    s'.sent.count inbuf ≤ s.sent.count inbuf + if p.expired then 1 else 0 := by
  have htype := h hnone
  cases hmoves with
  | wait _ => exact Nat.le_add_right _ _
  | stop _ hsame => exact hsame ▸ Nat.le_add_right _ _
  | stopSending _ hmore hcause =>
      rw [hmore]
      rcases hcause with ⟨-, hinfo, -⟩ | ⟨rfl, -⟩ | ⟨rfl, -⟩
      · exact absurd (hinfo.symm.trans htype) (by decide)
      · exact (count_concat_ne hcommand.ne_wtx.symm).trans_le (Nat.le_add_right _ _)
      · exact (count_concat_ne hcommand.ne_nak.symm).trans_le (Nat.le_add_right _ _)
  | late hexpired _ => rw [count_concat_self, if_pos hexpired]
  | answer _ _ _ => exact Nat.le_add_right _ _
  | nakInfo _ _ _ hinfo _ => exact absurd (hinfo.symm.trans htype) (by decide)
  | wtx _ _ => exact (count_concat_ne hcommand.ne_wtx.symm).trans_le (Nat.le_add_right _ _)
  | bad _ _ _ => exact (count_concat_ne hcommand.ne_nak.symm).trans_le (Nat.le_add_right _ _)

theorem count_le_after_grant (hcommand : IsCommand inbuf) (sending : Except ℕ Unit)
    (first later : List Poll) (hmem : wtxFrame ∈ (spiHandle inbuf sending first).sent) :
    (spiHandle inbuf sending (first ++ later)).sent.count inbuf ≤
        (spiHandle inbuf sending first).sent.count inbuf + late later ∧
      Granted (spiHandle inbuf sending (first ++ later)) := by
  induction later using List.reverseRecOn with
  | nil =>
      rw [List.append_nil]
      exact ⟨Nat.le_add_right _ _, granted_of_mem hcommand sending first hmem⟩
  | append_singleton later p ih =>
      obtain ⟨hcount, hgranted⟩ := ih
      have hlate := late_concat later p
      rw [← List.append_assoc, spiHandle_concat]
      cases hresult : (spiHandle inbuf sending (first ++ later)).result with
      | some result =>
          rw [spiStep_of_isSome p (by simp [hresult])]
          exact ⟨by omega, hgranted⟩
      | none =>
          have hmoves := moves_spiStep inbuf p hresult
          have hstep := hgranted.count_le hcommand hresult hmoves
          exact ⟨by omega, hgranted.step hresult hmoves⟩

/-- **Repetitions.** The command goes out once, and again only for a poll that comes late or, three
times at most, for an element that has not understood; once the element has been granted more time,
it goes out again for late polls only. -/
theorem spiHandle_commands (hcommand : IsCommand inbuf) (sending : Except ℕ Unit)
    (polls : List Poll) :
    (spiHandle inbuf sending polls).sent.count inbuf ≤ 1 + min 3 (naked polls) + late polls ∧
      ∀ first later, polls = first ++ later → wtxFrame ∈ (spiHandle inbuf sending first).sent →
        (spiHandle inbuf sending polls).sent.count inbuf ≤
          (spiHandle inbuf sending first).sent.count inbuf + late later := by
  refine ⟨(repeats_spiHandle hcommand sending polls).count_le, ?_⟩
  rintro first later rfl hmem
  exact (count_le_after_grant hcommand sending first later hmem).1

/-- A command, a request for more time, and the response. -/
theorem spiHandle_commands_example :
    let polls : List Poll :=
      [⟨.ok ⟨0x09, 0x00, 0x03⟩, false, .ok [0x60, 0xD3, 0x4C], .ok ()⟩,
        ⟨.ok ⟨0x0E, 0x00, 0x04⟩, false, .ok [0x90, 0x00, 0xF3, 0xD4], .ok ()⟩]
    (spiHandle (spiQueueIn [0x80, 0x84]) (.ok ()) polls).sent.count (spiQueueIn [0x80, 0x84]) ≤
        1 + min 3 (naked polls) + late polls ∧
      ∀ first later, polls = first ++ later →
        wtxFrame ∈ (spiHandle (spiQueueIn [0x80, 0x84]) (.ok ()) first).sent →
        (spiHandle (spiQueueIn [0x80, 0x84]) (.ok ()) polls).sent.count
            (spiQueueIn [0x80, 0x84]) ≤
          (spiHandle (spiQueueIn [0x80, 0x84]) (.ok ()) first).sent.count
            (spiQueueIn [0x80, 0x84]) + late later := by
  have hcommand : IsCommand (spiQueueIn [0x80, 0x84]) := ⟨by decide +kernel, by decide +kernel⟩
  exact spiHandle_commands hcommand (.ok ()) _

/-! ## What the element makes of the frames -/

/-- The polls after which a frame is asked for again. -/
def asked (polls : List Poll) : ℕ := polls.countP Poll.asks

theorem asked_concat (polls : List Poll) (p : Poll) :
    asked (polls ++ [p]) = asked polls + if p.asks then 1 else 0 := by
  rw [asked, asked, List.countP_append, List.countP_singleton]

/-- The frames that do not check. -/
def broken (sent : List (List UInt8)) : ℕ := sent.countP fun more ↦ !edcGood more

theorem broken_concat_of_good (sent : List (List UInt8)) {more : List UInt8}
    (h : edcGood more = true) : broken (sent ++ [more]) = broken sent := by
  rw [broken, broken, List.countP_append, List.countP_singleton, h]
  rfl

/-- The bytes of its checksum are the wrong way round. -/
theorem edcGood_nakFrame : edcGood nakFrame = false := by decide +kernel

theorem edcGood_wtxFrame : edcGood wtxFrame = true := by decide +kernel

theorem broken_concat_nakFrame (sent : List (List UInt8)) :
    broken (sent ++ [nakFrame]) = broken sent + 1 := by
  rw [broken, broken, List.countP_append, List.countP_singleton, edcGood_nakFrame]
  rfl

theorem Poll.asks_eq_false_of_good {p : Poll} (hframe : p.frame = some frame)
    (hgood : edcGood frame = true) : p.asks = false := by
  rw [Poll.asks, hframe, Option.any_some, hgood, Bool.not_true]

theorem Poll.asks_eq_false_of_none {p : Poll} (hframe : p.frame = none) : p.asks = false := by
  rw [Poll.asks, hframe, Option.any_none]

theorem Poll.frame_of_expired {p : Poll} (h : p.expired = true) : p.frame = none := by
  rw [Poll.frame]
  cases p.head <;> cases p.rest <;> simp [h]

theorem Poll.frame_of_waits {p : Poll} (h : ¬ p.Busy) : p.frame = none := by
  by_contra hsome
  obtain ⟨frame, hframe⟩ := Option.ne_none_iff_exists'.mp hsome
  exact h (p.busy_of_frame hframe)

/-- An exchange that goes on has sent a broken frame for every frame it asked for again. -/
structure Breaks (polls : List Poll) (s : Exchange) : Prop where
  running : s.result = none → broken s.sent = asked polls
  broken_le : broken s.sent ≤ asked polls

theorem Breaks.step {s s' : Exchange} {p : Poll} (hinbuf : edcGood inbuf = true)
    (h : Breaks polls s) (hnone : s.result = none) (hmoves : Moves inbuf s p s') :
    Breaks (polls ++ [p]) s' := by
  have hasked := asked_concat polls p
  have heq := h.running hnone
  cases hmoves with
  | wait hwaits =>
      rw [p.asks_eq_false_of_none (p.frame_of_waits hwaits), if_neg Bool.false_ne_true] at hasked
      exact ⟨fun _ ↦ by omega, by omega⟩
  | stop hresult hsame =>
      rw [← hsame] at heq
      exact ⟨fun hrunning ↦ by simp [hresult] at hrunning, by omega⟩
  | stopSending hresult hmore hcause =>
      refine ⟨fun hrunning ↦ by simp [hresult] at hrunning, ?_⟩
      rw [hmore]
      rcases hcause with ⟨rfl, -⟩ | ⟨rfl, -⟩ | ⟨rfl, -, hasks⟩
      · rw [broken_concat_of_good _ hinbuf]
        omega
      · rw [broken_concat_of_good _ edcGood_wtxFrame]
        omega
      · rw [if_pos hasks] at hasked
        rw [broken_concat_nakFrame]
        omega
  | late hexpired _ =>
      rw [p.asks_eq_false_of_none (p.frame_of_expired hexpired), if_neg Bool.false_ne_true]
        at hasked
      have hsent := broken_concat_of_good s.sent hinbuf
      exact ⟨fun _ ↦ hsent.trans (by omega), hsent.trans_le (by omega)⟩
  | answer hframe hgood _ =>
      rw [p.asks_eq_false_of_good hframe hgood, if_neg Bool.false_ne_true] at hasked
      exact ⟨fun hrunning ↦ by simp at hrunning, by dsimp only; omega⟩
  | nakInfo hframe hgood _ _ _ =>
      rw [p.asks_eq_false_of_good hframe hgood, if_neg Bool.false_ne_true] at hasked
      have hsent := broken_concat_of_good s.sent hinbuf
      exact ⟨fun _ ↦ hsent.trans (by omega), hsent.trans_le (by omega)⟩
  | wtx hframe hgood =>
      rw [p.asks_eq_false_of_good hframe hgood, if_neg Bool.false_ne_true] at hasked
      have hsent := broken_concat_of_good s.sent edcGood_wtxFrame
      exact ⟨fun _ ↦ hsent.trans (by omega), hsent.trans_le (by omega)⟩
  | bad hframe hbad _ =>
      rw [if_pos (p.asks_of_frame hframe hbad)] at hasked
      have hsent := broken_concat_nakFrame s.sent
      exact ⟨fun _ ↦ hsent.trans (by omega), hsent.trans_le (by omega)⟩

/-- **Broken frames.** Of the frames that go out for a command that has been framed, those the
element cannot accept are the requests to send again, one for every frame that came in broken. -/
theorem spiHandle_broken (hinbuf : edcGood inbuf = true) (sending : Except ℕ Unit)
    (polls : List Poll) :
    broken (spiHandle inbuf sending polls).sent ≤ asked polls ∧
      ((spiHandle inbuf sending polls).result = none →
        broken (spiHandle inbuf sending polls).sent = asked polls) := by
  have hinv : Breaks polls (spiHandle inbuf sending polls) := by
    apply spiHandle_induction inbuf sending Breaks
    · by_cases hlong : inbuf.length > frameLenMax
      · constructor <;> simp [spiStart, hlong, Exchange.fail, broken]
      · cases sending <;> constructor <;>
          simp [spiStart, hlong, Exchange.fail, broken, asked, hinbuf]
    · intro polls p s h hsome
      have hasked := asked_concat polls p
      have hle := h.broken_le
      refine ⟨fun hnone ↦ ?_, by omega⟩
      rw [hnone] at hsome
      exact absurd hsome (by simp)
    · exact fun polls p s s' h hnone hmoves ↦ h.step hinbuf hnone hmoves
  exact ⟨hinv.broken_le, hinv.running⟩

/-- A command whose response comes in broken and is asked for again. -/
theorem spiHandle_broken_example :
    broken (spiHandle (spiQueueIn [0x80, 0x84]) (.ok ())
        [⟨.ok ⟨0x0E, 0x00, 0x04⟩, false, .ok [0x90, 0x01, 0xF3, 0xD4], .ok ()⟩]).sent ≤
      asked [⟨.ok ⟨0x0E, 0x00, 0x04⟩, false, .ok [0x90, 0x01, 0xF3, 0xD4], .ok ()⟩] ∧
    ((spiHandle (spiQueueIn [0x80, 0x84]) (.ok ())
        [⟨.ok ⟨0x0E, 0x00, 0x04⟩, false, .ok [0x90, 0x01, 0xF3, 0xD4], .ok ()⟩]).result = none →
      broken (spiHandle (spiQueueIn [0x80, 0x84]) (.ok ())
        [⟨.ok ⟨0x0E, 0x00, 0x04⟩, false, .ok [0x90, 0x01, 0xF3, 0xD4], .ok ()⟩]).sent =
      asked [⟨.ok ⟨0x0E, 0x00, 0x04⟩, false, .ok [0x90, 0x01, 0xF3, 0xD4], .ok ()⟩]) :=
  spiHandle_broken (edcGood_spiQueueIn [0x80, 0x84]) (.ok ()) _

/-! ## How long an exchange can be -/

/-- The polls that did not only wait. -/
def busy (polls : List Poll) : ℕ := polls.countP fun p ↦ decide p.Busy

/-- The polls with a frame that checks. -/
def checked (polls : List Poll) : ℕ := polls.countP Poll.checks

theorem busy_concat (polls : List Poll) (p : Poll) :
    busy (polls ++ [p]) = busy polls + if p.Busy then 1 else 0 := by
  rw [busy, busy, List.countP_append, List.countP_singleton]
  simp only [decide_eq_true_eq]

theorem checked_concat (polls : List Poll) (p : Poll) :
    checked (polls ++ [p]) = checked polls + if p.checks then 1 else 0 := by
  rw [checked, checked, List.countP_append, List.countP_singleton]

/-- What a running exchange has used up: eight frames for every frame that checked, two for every
one asked for again since, and one for being late; and a frame has gone out for every poll that did
not only wait. -/
structure Effort (polls : List Poll) (s : Exchange) : Prop where
  sendNakCount_le : s.sendNakCount ≤ 3
  reTranCount_le : s.reTranCount ≤ 1
  sent_eq : s.sent.length = 1 + busy polls
  sent_le : s.sent.length ≤ 1 + 8 * checked polls + 2 * s.sendNakCount + s.reTranCount

theorem length_concat_eq {sent : List (List UInt8)} {more : List UInt8} :
    (sent ++ [more]).length = sent.length + 1 := List.length_append

/-- An exchange that goes on goes on within its means. -/
theorem Effort.step {s s' : Exchange} {p : Poll} (h : Effort polls s) (hmoves : Moves inbuf s p s')
    (hrunning : s'.result = none) : Effort (polls ++ [p]) s' := by
  have hbusy := busy_concat polls p
  have hchecked := checked_concat polls p
  obtain ⟨hnak, htran, hsent, heffort⟩ := h
  cases hmoves with
  | wait hwaits =>
      rw [if_neg hwaits] at hbusy
      exact ⟨hnak, htran, by omega, by omega⟩
  | stop hresult _ => simp [hresult] at hrunning
  | stopSending hresult _ _ => simp [hresult] at hrunning
  | answer _ _ _ => simp at hrunning
  | late hexpired hcount =>
      rw [if_pos (p.busy_of_expired hexpired)] at hbusy
      constructor <;> dsimp only <;> try rw [length_concat_eq]
      all_goals omega
  | nakInfo hframe hgood _ _ _ =>
      rw [if_pos (p.busy_of_frame hframe)] at hbusy
      rw [if_pos (p.checks_of_frame hframe hgood)] at hchecked
      constructor <;> dsimp only <;> try rw [length_concat_eq]
      all_goals omega
  | wtx hframe hgood =>
      rw [if_pos (p.busy_of_frame hframe)] at hbusy
      rw [if_pos (p.checks_of_frame hframe hgood)] at hchecked
      constructor <;> dsimp only <;> try rw [length_concat_eq]
      all_goals omega
  | bad hframe _ hcount =>
      rw [if_pos (p.busy_of_frame hframe)] at hbusy
      constructor <;> dsimp only <;> try rw [length_concat_eq]
      all_goals omega

/-- A pass that ends the exchange sends one frame at most. -/
theorem Effort.sent_le_end {s s' : Exchange} {p : Poll} (h : Effort polls s)
    (hmoves : Moves inbuf s p s') : s'.sent.length ≤ 8 * (checked (polls ++ [p]) + 1) := by
  have hchecked := checked_concat polls p
  obtain ⟨hnak, htran, -, heffort⟩ := h
  cases hmoves with
  | wait _ => omega
  | stop _ hsame =>
      rw [hsame]
      omega
  | stopSending _ hmore hcause =>
      rw [hmore, length_concat_eq]
      rcases hcause with ⟨-, -, -, hchecks, -⟩ | ⟨-, hchecks⟩ | ⟨-, hthree, -⟩
      · rw [if_pos hchecks] at hchecked
        omega
      · rw [if_pos hchecks] at hchecked
        omega
      · omega
  | late _ hcount =>
      rw [length_concat_eq]
      omega
  | answer hframe hgood _ =>
      dsimp only
      omega
  | nakInfo hframe hgood _ _ _ =>
      rw [if_pos (p.checks_of_frame hframe hgood)] at hchecked
      rw [length_concat_eq]
      omega
  | wtx hframe hgood =>
      rw [if_pos (p.checks_of_frame hframe hgood)] at hchecked
      rw [length_concat_eq]
      omega
  | bad _ _ hcount =>
      rw [length_concat_eq]
      omega

theorem effort_spiHandle (inbuf : List UInt8) (sending : Except ℕ Unit) (polls : List Poll) :
    ((spiHandle inbuf sending polls).result = none →
        Effort polls (spiHandle inbuf sending polls)) ∧
      (spiHandle inbuf sending polls).sent.length ≤ 8 * (checked polls + 1) := by
  apply spiHandle_induction inbuf sending
    (fun polls s ↦ (s.result = none → Effort polls s) ∧ s.sent.length ≤ 8 * (checked polls + 1))
  · by_cases hlong : inbuf.length > frameLenMax
    · simp [spiStart, hlong, Exchange.fail]
    · cases sending with
      | error code => simp [spiStart, hlong, Exchange.fail, checked]
      | ok _ =>
          refine ⟨fun _ ↦ ?_, by simp [spiStart, hlong, checked]⟩
          constructor <;> simp [spiStart, hlong, busy, checked]
  · intro polls p s h hsome
    have hchecked := checked_concat polls p
    have hsent := h.2
    refine ⟨fun hnone ↦ ?_, by omega⟩
    rw [hnone] at hsome
    exact absurd hsome (by simp)
  · intro polls p s s' h hnone hmoves
    have heffort := h.1 hnone
    exact ⟨fun hrunning ↦ heffort.step hmoves hrunning, heffort.sent_le_end hmoves⟩

/-- **An exchange ends.** Eight frames go out at most for every frame that comes in and checks, and
eight besides; every poll that does not only wait costs one, so that an exchange with so many of
them is over. -/
theorem spiHandle_ends (inbuf : List UInt8) (sending : Except ℕ Unit) (polls : List Poll) :
    (spiHandle inbuf sending polls).sent.length ≤ 8 * (checked polls + 1) ∧
      (8 * (checked polls + 1) ≤ busy polls → (spiHandle inbuf sending polls).result ≠ none) := by
  obtain ⟨heffort, hsent⟩ := effort_spiHandle inbuf sending polls
  refine ⟨hsent, fun hbusy hnone ↦ ?_⟩
  have heq := (heffort hnone).sent_eq
  omega

end Vsys.Ciu98
