import Vsys.Trace.Run
import Vsys.Vt.Protocol

/-!
# The lifetime of words

`SetWords` deletes the old `ZVtWord` objects at once, and the detectors that point to them are
rebuilt by the next `Detect` call that finds no detector selected.  While a detector is selected
the rebuilding is put off, so the detectors keep running on deleted words, and `GetDetWordInfo`
answers with the entry of the new list at the index of the old detector.

`usesLive_throughout_iff` says that nothing else can go wrong.
-/

namespace Vsys.Vt

open Vsys.Trace

namespace VtMem

/-- What the client does. -/
inductive Op
  | setWords (words : List WordInfo)
  | detect (input : DetectIn)
  | getDetWordInfo (offset : ℤ)

/-- One operation. -/
def step (m : VtMem) : Op → VtMem
  | .setWords words => (m.setWords words).1
  | .detect input => (m.detect input).mem
  | .getDetWordInfo _ => m

/-- Every detector that `Detect` would run refers to a word that is still allocated, and while a
detector is selected `GetDetWordInfo` reports the entry its word was created for. -/
structure UsesLive (m : VtMem) : Prop where
  live : ∀ d ∈ m.checkWordsChanged.vtDetLst, ∃ ptr ∈ m.heap, ptr.addr = d.addr
  fired : ∀ i, m.curVtDetId = some i → i < m.wordLst.length ∧
    ∃ d ptr, m.vtDetLst[i]? = some d ∧ ptr ∈ m.heap ∧ ptr.addr = d.addr ∧
      ∀ offset, m.getDetWordInfo offset = some (some ptr.info, some (d.getDetWordInfo offset))

/-- A list of words replaces the old one only while no detector is selected. -/
def QuietSetWords (m : VtMem) : Op → Prop
  | .setWords words => words ≠ [] → m.curVtDetId = none
  | _ => True

instance (m : VtMem) : ∀ op, Decidable (QuietSetWords m op)
  | .setWords _ => inferInstanceAs (Decidable (_ → _))
  | .detect _ => inferInstanceAs (Decidable True)
  | .getDetWordInfo _ => inferInstanceAs (Decidable True)

/-- The invariant: the heap holds the words of the current list, and the detectors refer to them
unless they are about to be rebuilt. -/
structure Life (m : VtMem) : Prop where
  engine : m.Inv
  heap_eq : m.heap = m.vtWordLst
  infos : m.vtWordLst.map VtWordPtr.info = m.wordLst
  fresh : ∀ ptr ∈ m.vtWordLst, ptr.addr < m.nextAddr
  changing : m.needChangeWord = true → m.curVtDetId = none
  current : m.needChangeWord = false →
    m.vtDetLst.map VtDet.addr = m.vtWordLst.map VtWordPtr.addr

theorem life_create (dsCb : Bool) : Life (create dsCb) :=
  ⟨inv_create dsCb, rfl, rfl, by simp [create], fun _ ↦ rfl, fun _ ↦ rfl⟩

/-! ## `SetWords` -/

theorem map_info_parseWordTriPhoLst (nextAddr : ℕ) (words : List WordInfo) :
    (parseWordTriPhoLst nextAddr words).map VtWordPtr.info = words := by
  refine List.ext_getElem? fun i ↦ ?_
  rw [List.getElem?_map, parseWordTriPhoLst, List.getElem?_mapIdx, Option.map_map]
  exact Option.map_id_fun ▸ rfl

theorem addr_of_mem_parseWordTriPhoLst {nextAddr : ℕ} {words : List WordInfo} {ptr : VtWordPtr}
    (h : ptr ∈ parseWordTriPhoLst nextAddr words) :
    nextAddr ≤ ptr.addr ∧ ptr.addr < nextAddr + words.length := by
  obtain ⟨i, hi, rfl⟩ := List.mem_mapIdx.mp h
  exact ⟨Nat.le_add_right _ _, Nat.add_lt_add_left hi _⟩

/-- After a change the heap holds the new words only. -/
theorem Life.heap_setWords {m : VtMem} (h : Life m) (words : List WordInfo) :
    ((m.heap ++ parseWordTriPhoLst m.nextAddr words).filter fun ptr ↦
      ptr.addr ∉ m.vtWordLst.map VtWordPtr.addr) = parseWordTriPhoLst m.nextAddr words := by
  rw [h.heap_eq, List.filter_append]
  have hold : (m.vtWordLst.filter fun ptr ↦ ptr.addr ∉ m.vtWordLst.map VtWordPtr.addr) = [] := by
    rw [List.filter_eq_nil_iff]
    intro ptr hptr
    simpa using ⟨ptr, hptr, rfl⟩
  have hnew : ((parseWordTriPhoLst m.nextAddr words).filter fun ptr ↦
      ptr.addr ∉ m.vtWordLst.map VtWordPtr.addr) = parseWordTriPhoLst m.nextAddr words := by
    rw [List.filter_eq_self]
    intro ptr hptr
    rw [decide_eq_true_iff]
    intro hmem
    obtain ⟨old, hold, haddr⟩ := List.mem_map.mp hmem
    have hlow := (addr_of_mem_parseWordTriPhoLst hptr).1
    have hhigh := h.fresh old hold
    omega
  rw [hold, hnew, List.nil_append]

theorem Life.setWords {m : VtMem} (h : Life m) {words : List WordInfo}
    (hquiet : QuietSetWords m (.setWords words)) : Life (m.setWords words).1 := by
  by_cases hwords : words = []
  · rw [hwords, setWords_nil]
    exact h
  · have hengine := h.engine.setWords words
    rw [setWords_of_ne_nil m hwords, h.heap_setWords words] at hengine ⊢
    refine ⟨hengine, rfl, map_info_parseWordTriPhoLst _ _, ?_, fun _ ↦ hquiet hwords, (nomatch ·)⟩
    exact fun ptr hptr ↦ (addr_of_mem_parseWordTriPhoLst hptr).2

/-! ## `Detect` -/

theorem Life.checkWordsChanged {m : VtMem} (h : Life m) :
    Life m.checkWordsChanged ∧ m.checkWordsChanged.needChangeWord = false := by
  have hengine := h.engine.checkWordsChanged.1
  unfold VtMem.checkWordsChanged at hengine ⊢
  split_ifs at hengine ⊢ with hchange
  · refine ⟨⟨hengine, h.heap_eq, h.infos, h.fresh, (nomatch ·), fun _ ↦ ?_⟩, rfl⟩
    rw [List.map_map]
    rfl
  · have hsame : m.needChangeWord = false := by
      by_contra hneed
      rw [Bool.not_eq_false] at hneed
      exact hchange ⟨h.changing hneed, hneed⟩
    exact ⟨h, hsame⟩

theorem ofWord_addr : OfWord VtDet.addr := fun _ _ _ haddr ↦ haddr

theorem Life.detect {m : VtMem} (h : Life m) (input : DetectIn) : Life (m.detect input).mem := by
  obtain ⟨hchecked, hchange⟩ := h.checkWordsChanged
  have hengine := (h.engine.detect input).1
  unfold VtMem.detect at hengine ⊢
  dsimp only at hengine ⊢
  split_ifs at hengine ⊢
  · exact hchecked
  · refine ⟨hengine, hchecked.heap_eq, hchecked.infos, hchecked.fresh, ?_, fun _ ↦ ?_⟩
    · exact fun hneed ↦ absurd (hchange.symm.trans hneed) (by decide)
    · rw [hchecked.engine.resetFinished.1.map_runBatch ofWord_addr, map_resetFinished ofWord_addr]
      exact hchecked.current hchange

theorem Life.step {m : VtMem} (h : Life m) {op : Op} (hquiet : QuietSetWords m op) :
    Life (m.step op) := by
  cases op with
  | setWords words => exact h.setWords hquiet
  | detect input => exact h.detect input
  | getDetWordInfo offset => exact h

/-! ## What follows for the detectors -/

/-- Detectors that refer to the words of the list refer to the heap. -/
theorem Life.ptr_of_det {m : VtMem} (h : Life m) (hchange : m.needChangeWord = false) {i : ℕ}
    {d : VtDet} (hd : m.vtDetLst[i]? = some d) :
    ∃ ptr, m.vtWordLst[i]? = some ptr ∧ ptr ∈ m.heap ∧ ptr.addr = d.addr := by
  have haddr := congrArg (·[i]?) (h.current hchange)
  simp only [List.getElem?_map, hd, Option.map_some] at haddr
  obtain ⟨ptr, hptr, hsame⟩ := Option.map_eq_some_iff.mp haddr.symm
  refine ⟨ptr, hptr, ?_, hsame⟩
  rw [h.heap_eq]
  exact List.mem_of_getElem? hptr

theorem Life.usesLive {m : VtMem} (h : Life m) : UsesLive m := by
  obtain ⟨hchecked, hchange⟩ := h.checkWordsChanged
  have hheap : m.checkWordsChanged.heap = m.heap := by
    unfold VtMem.checkWordsChanged
    split_ifs <;> rfl
  refine ⟨?_, ?_⟩
  · intro d hd
    obtain ⟨i, hi⟩ := List.mem_iff_getElem?.mp hd
    obtain ⟨ptr, -, hptr, haddr⟩ := hchecked.ptr_of_det hchange hi
    exact ⟨ptr, hheap ▸ hptr, haddr⟩
  · intro i hcur
    have hsame : m.needChangeWord = false := by
      by_contra hneed
      rw [Bool.not_eq_false] at hneed
      exact absurd ((h.changing hneed).symm.trans hcur) (by simp)
    obtain ⟨d, hd, -⟩ := h.engine.cur i hcur
    obtain ⟨ptr, hptr, hheap, haddr⟩ := h.ptr_of_det hsame hd
    have hinfo : m.wordLst[i]? = some ptr.info := by
      rw [← h.infos, List.getElem?_map, hptr, Option.map_some]
    refine ⟨(List.getElem?_eq_some_iff.mp hinfo).1, d, ptr, hd, hheap, haddr, fun offset ↦ ?_⟩
    simp [getDetWordInfo, hcur, hinfo, hd]

/-- New words under a selected detector leave it without its word. -/
theorem Life.not_usesLive {m : VtMem} (h : Life m) {op : Op} (hbad : ¬ QuietSetWords m op) :
    ¬ UsesLive (m.step op) := by
  cases op with
  | detect input => exact absurd trivial hbad
  | getDetWordInfo offset => exact absurd trivial hbad
  | setWords words =>
      simp only [QuietSetWords, Classical.not_imp] at hbad
      obtain ⟨hwords, hcur⟩ := hbad
      obtain ⟨i, hi⟩ := Option.ne_none_iff_exists'.mp hcur
      have hsame : m.needChangeWord = false := by
        by_contra hneed
        rw [Bool.not_eq_false] at hneed
        exact hcur (h.changing hneed)
      obtain ⟨d, hd, -⟩ := h.engine.cur i hi
      obtain ⟨old, hold, -, haddr⟩ := h.ptr_of_det hsame hd
      intro huses
      obtain ⟨-, d', ptr, hd', hheap, haddr', -⟩ := huses.fired i
        ((setWords_detectors m words).2.trans hi)
      rw [VtMem.step, (setWords_detectors m words).1, hd, Option.some.injEq] at hd'
      rw [VtMem.step, setWords_of_ne_nil m hwords, h.heap_setWords words] at hheap
      -- the new words have new addresses
      have hnew := (addr_of_mem_parseWordTriPhoLst hheap).1
      have hless := h.fresh old (List.mem_of_getElem? hold)
      rw [haddr', ← hd', ← haddr] at hnew
      omega

/-- **The lifetime of words.** In a run of `SetWords`, `Detect` and `GetDetWordInfo` calls every
state uses live words only, and reports the word whose detector fired, if and only if no list of
words is replaced while a detector is selected. -/
theorem usesLive_throughout_iff (dsCb : Bool) (ops : List Op) :
    Throughout step UsesLive (create dsCb) ops ↔ Along step QuietSetWords (create dsCb) ops :=
  throughout_exact Life UsesLive (fun _ _ h hquiet ↦ h.step hquiet)
    (fun _ _ h hbad ↦ h.not_usesLive hbad) (fun _ h ↦ h.usesLive) (life_create dsCb) ops

/-- A wake word that is checked for silence on the right. -/
def slowWord (content : List Char) : WordInfo :=
  ⟨.awake, content, [], 4, 2, true, true, false, false, false, 0, []⟩

/-- A call with one frame, in which the score of every word crosses its threshold or not. -/
def slowCall (crosses : Bool) : DetectIn where
  wavLen := 1920
  aec := false
  vadEnd := false
  frms := [fun _ ↦ scoreFrm (.ofInfo (slowWord [])) crosses]
  endIn := fun _ ↦ default

/-- A detection is opened, and the word list is replaced before it is decided: the detector's word
is gone, and `GetDetWordInfo` reports the new word. -/
theorem not_usesLive_setWords :
    (run step (create true) [.setWords [slowWord ['a']], .detect (slowCall false),
        .detect (slowCall true), .setWords [slowWord ['b']]]).opened = true ∧
      ¬ UsesLive (run step (create true) [.setWords [slowWord ['a']], .detect (slowCall false),
        .detect (slowCall true), .setWords [slowWord ['b']]]) := by
  refine ⟨by decide +kernel, fun huses ↦ ?_⟩
  obtain ⟨-, d, ptr, hd, hheap, haddr, -⟩ := huses.fired 0 (by decide +kernel)
  have hword := congrArg (Option.map VtDet.addr) hd
  have hlive := List.mem_map_of_mem (f := VtWordPtr.addr) hheap
  rw [haddr] at hlive
  have hold : d.addr = 0 := by
    rw [Option.map_some] at hword
    exact Option.some.inj (hword.symm.trans (by decide +kernel))
  rw [hold] at hlive
  exact absurd hlive (by decide +kernel)

end VtMem

end Vsys.Vt
