import Vsys.Io.Scanf

/-!
# The commands of the A2B control device

`test/bsp/i2c/a2b24xx/a2b24xx.c`: a write to the control device is taken as a command, with numbers
for a node, an index into a table of register values, or a microphone.  `sscanf` stores as many of
the numbers as there are, and the others are zero.

All branches but one check the numbers before they use them: `Loopback` for a negative node takes the
second number as an index as it is.  `ctrlWrite_safe_iff` says that this is all.
-/

namespace Vsys.A2b

open Vsys.Io

/-- `A2B_BASE_ADDR`. -/
def baseAddr : UInt8 := 0x68

/-- `A2B_BUS_ADDR`. -/
def busAddr : UInt8 := 0x69

/-- The registers that the commands write. -/
def regNodeadr : UInt8 := 0x01
def regDnslots : UInt8 := 0x0D
def regSlotfmt : UInt8 := 0x10
def regDatctl : UInt8 := 0x11
def regI2sgcfg : UInt8 := 0x41
def regI2scfg : UInt8 := 0x42
def regPdmctl : UInt8 := 0x47
def regI2stest : UInt8 := 0x53
def regDnmask0 : UInt8 := 0x65

/-- The two tables of `a2b24xx_ctrl_write`. -/
inductive Table
  | i2scfg
  | i2stest
  deriving DecidableEq, Repr

/-- The entries of a table. -/
def Table.entries : Table → List UInt8
  | i2scfg => [0x11, 0x91]
  | i2stest => [0x06, 0x01, 0x10, 0xC0]

/-- What a command does. -/
inductive Act
  /-- A table is indexed. -/
  | index (table : Table) (i : ℤ)
  /-- `adi_a2b_I2CWrite`. -/
  | write (addr : UInt8) (bytes : List UInt8)
  | reset
  | toggleLog
  | disableFaultCheck
  | lock
  | unlock
  deriving DecidableEq, Repr

/-- What the commands use of the driver. -/
structure Device where
  numNodes : UInt8
  masterFmt : UInt8

/-- `COMMAND_SIZE`. -/
def commandSize : ℕ := 128

/-- `command_buf` as a string: the last byte is replaced by a zero. -/
def commandOf (buf : List UInt8) : List UInt8 :=
  ((buf.take commandSize).dropLast).takeWhile fun b ↦ b != 0

def loopbackFormat : String := "Loopback Slave%hd %hd"
def rxFormat : String := "RX Slave%hd %hd"
def pdmFormat : String := "PDM Slave%hd MIC%hd"

section Command

variable (d : Device) (stray : Table → ℤ → UInt8)

/-- An entry of a table; outside of it there is whatever is on the stack. -/
def Table.at (table : Table) (i : ℤ) : UInt8 :=
  if 0 ≤ i then table.entries.getD i.toNat (stray table i) else stray table i

/-- A number as a byte. -/
def byteOfInt (n : ℤ) : UInt8 := UInt8.ofNat (n % 256).toNat

/-- `NODEADR` is written. -/
def nodeadr (n : ℤ) : Act := .write baseAddr [regNodeadr, byteOfInt n]

/-- The loop of `Loopback` from a node down to the master. -/
def dnslots : ℕ → List Act
  | 0 => [nodeadr 0, .write busAddr [regDnslots, 0x02]]
  | n + 1 => nodeadr (n + 1 : ℕ) :: .write busAddr [regDnslots, 0x02] :: dnslots n

/-- The loop of `Loopback`, which is left out for the master. -/
def loopbackSlots (p₀ : ℤ) : List Act := if p₀ = 0 then [] else dnslots p₀.toNat

/-- `Loopback`. -/
def loopback (p₀ p₁ : ℤ) : List Act :=
  if p₀ < 0 then
    [.disableFaultCheck, .write baseAddr [regDatctl, 0x00], .index .i2stest p₁,
      .write baseAddr [regI2stest, Table.at stray .i2stest p₁]]
  else if p₀ ≤ d.numNodes.toNat ∧ 0 ≤ p₁ ∧ p₁ ≤ Table.i2stest.entries.length - 1 then
    [.lock, nodeadr p₀, .write busAddr [regPdmctl, 0x00], .write busAddr [regI2scfg, 0x11],
        .write busAddr [regDnmask0, 0x03], .index .i2stest p₁,
        .write busAddr [regI2stest, Table.at stray .i2stest p₁]] ++
      loopbackSlots p₀ ++
      [.write busAddr [regI2sgcfg, 0x12], .write baseAddr [regDnslots, 0x02],
        .write baseAddr [regSlotfmt, d.masterFmt, 0x03, 0x81], .unlock]
  else []

/-- `RX`. -/
def rx (p₀ p₁ : ℤ) : List Act :=
  if (0 ≤ p₀ ∧ p₀ ≤ d.numNodes.toNat) ∧ 0 ≤ p₁ ∧ p₁ ≤ Table.i2scfg.entries.length - 1 then
    [.lock, nodeadr p₀, .index .i2scfg p₁,
      .write busAddr [regI2scfg, Table.at stray .i2scfg p₁], .write busAddr [regPdmctl, 0x00],
      .unlock]
  else []

/-- The microphones of one node. -/
def pdmNode (argc : ℕ) (p₀ p₁ : ℤ) (i : UInt8) : List Act :=
  if p₀ < 0 ∨ argc = 1 then [.write busAddr [regPdmctl, 0x15]]
  else if p₀ = i.toNat then
    if p₁ = 0 then [.write busAddr [regPdmctl, 0x11]]
    else if p₁ = 1 then [.write busAddr [regPdmctl, 0x14]]
    else []
  else [.write busAddr [regPdmctl, 0x00]]

/-- The first rounds of the loop of `PDM` and the end of it; with 255 nodes the counter wraps and
the loop goes on. -/
def pdmLoop (argc : ℕ) (p₀ p₁ : ℤ) : ℕ → UInt8 → List Act
  | 0, _ => []
  | rounds + 1, i =>
      if i ≤ d.numNodes then
        nodeadr i.toNat :: .write busAddr [regI2scfg, 0x01] :: pdmNode argc p₀ p₁ i ++
          pdmLoop argc p₀ p₁ rounds (i + 1)
      else [.unlock]

/-- `PDM`. -/
def pdm (rounds argc : ℕ) (p₀ p₁ : ℤ) : List Act :=
  if p₀ ≤ d.numNodes.toNat then .lock :: pdmLoop d argc p₀ p₁ rounds 0 else []

/-- The branches of `a2b24xx_ctrl_write` on a command; `rounds` is how much of the loop of `PDM` is
looked at. -/
def command (rounds : ℕ) (text : List UInt8) : List Act :=
  if text = ascii "Reset" then [.reset]
  else if text = ascii "Log Enable" then [.toggleLog]
  else if text = ascii "Disable Fault Check" then [.disableFaultCheck]
  else
    let first := sscanf text loopbackFormat
    let second := sscanf text rxFormat
    let third := sscanf text pdmFormat
    -- what one format stores is still there for the next one
    let p₀ := numberAt first 0 0
    let p₁ := numberAt first 1 0
    if 1 ≤ first.length then loopback d stray p₀ p₁
    else
      let p₀ := numberAt second 0 p₀
      let p₁ := numberAt second 1 p₁
      if second.length = 2 then rx d stray p₀ p₁
      else
        let p₀ := numberAt third 0 p₀
        let p₁ := numberAt third 1 p₁
        if 0 < third.length then pdm d rounds third.length p₀ p₁ else []

/-- `a2b24xx_ctrl_write`: what it does, and its result; `readable` is whether the memory of the
caller is. -/
def ctrlWrite (rounds : ℕ) (readable : Bool) (buf : List UInt8) : List Act × ℤ :=
  if min buf.length commandSize = 0 then ([], -22)
  else if readable = false then ([], -14)
  else (command d stray rounds (commandOf buf), min buf.length commandSize)

end Command

/-! ## Safe acts -/

/-- A table is indexed within its bounds, and only numbers of nodes go to `NODEADR`. -/
def Act.Safe (d : Device) : Act → Prop
  | .index table i => 0 ≤ i ∧ i < table.entries.length
  | .write _ bytes => ∀ node, bytes = [regNodeadr, node] → node ≤ d.numNodes
  | _ => True

/-- All acts are safe. -/
def AllSafe (d : Device) (acts : List Act) : Prop := ∀ act ∈ acts, act.Safe d

/-- The second number of a `Loopback` for a negative node is no index. -/
def BadLoopback (text : List UInt8) : Prop :=
  numberAt (sscanf text loopbackFormat) 0 0 < 0 ∧
    ¬(0 ≤ numberAt (sscanf text loopbackFormat) 1 0 ∧ numberAt (sscanf text loopbackFormat) 1 0 ≤ 3)

section Safe

variable {d : Device} {stray : Table → ℤ → UInt8}

@[simp] theorem allSafe_nil : AllSafe d [] := fun _ h ↦ nomatch h

@[simp] theorem allSafe_cons {act : Act} {acts : List Act} :
    AllSafe d (act :: acts) ↔ act.Safe d ∧ AllSafe d acts := List.forall_mem_cons

@[simp] theorem allSafe_append {acts acts' : List Act} :
    AllSafe d (acts ++ acts') ↔ AllSafe d acts ∧ AllSafe d acts' := List.forall_mem_append

/-- Other registers take any value. -/
@[simp] theorem safe_write (addr reg : UInt8) (bytes : List UInt8) (h : reg ≠ regNodeadr) :
    (Act.write addr (reg :: bytes)).Safe d := fun _ heq ↦ absurd (List.cons.inj heq).1 h

theorem safe_nodeadr {n : ℤ} (hlow : 0 ≤ n) (hhigh : n ≤ d.numNodes.toNat) :
    (nodeadr n).Safe d := by
  intro node heq
  have hnode : byteOfInt n = node := (List.cons.inj (List.cons.inj heq).2).1
  have hlt := d.numNodes.toNat_lt
  rw [← hnode, UInt8.le_iff_toNat_le, byteOfInt, UInt8.toNat_ofNat']
  omega

theorem allSafe_dnslots {n : ℕ} (h : n ≤ d.numNodes.toNat) : AllSafe d (dnslots n) := by
  induction n with
  | zero =>
      simp only [dnslots, allSafe_cons, allSafe_nil, and_true]
      exact ⟨safe_nodeadr le_rfl (Int.natCast_nonneg _), safe_write _ _ _ (by decide)⟩
  | succ n ih =>
      simp only [dnslots, allSafe_cons]
      refine ⟨safe_nodeadr (Int.natCast_nonneg _) (by omega), safe_write _ _ _ (by decide), ?_⟩
      exact ih (by omega)

theorem allSafe_pdmNode (argc : ℕ) (p₀ p₁ : ℤ) (i : UInt8) : AllSafe d (pdmNode argc p₀ p₁ i) := by
  have hpdmctl : ∀ value, AllSafe d [.write busAddr [regPdmctl, value]] := fun value ↦
    allSafe_cons.mpr ⟨safe_write _ _ _ (by decide), allSafe_nil⟩
  rw [pdmNode]
  split_ifs
  · exact hpdmctl _
  · exact hpdmctl _
  · exact hpdmctl _
  · exact allSafe_nil
  · exact hpdmctl _

theorem allSafe_pdmLoop (argc : ℕ) (p₀ p₁ : ℤ) (rounds : ℕ) (i : UInt8) :
    AllSafe d (pdmLoop d argc p₀ p₁ rounds i) := by
  induction rounds generalizing i with
  | zero => exact allSafe_nil
  | succ rounds ih =>
      rw [pdmLoop]
      split_ifs with hi
      · simp only [allSafe_append, allSafe_cons, List.cons_append]
        refine ⟨safe_nodeadr (Int.natCast_nonneg _) ?_, safe_write _ _ _ (by decide),
          allSafe_pdmNode argc p₀ p₁ i, ih (i + 1)⟩
        exact_mod_cast UInt8.le_iff_toNat_le.mp hi
      · exact allSafe_cons.mpr ⟨trivial, allSafe_nil⟩

theorem allSafe_pdm (rounds argc : ℕ) (p₀ p₁ : ℤ) : AllSafe d (pdm d rounds argc p₀ p₁) := by
  rw [pdm]
  split_ifs
  · exact allSafe_cons.mpr ⟨trivial, allSafe_pdmLoop argc p₀ p₁ rounds 0⟩
  · exact allSafe_nil

theorem allSafe_rx (p₀ p₁ : ℤ) : AllSafe d (rx d stray p₀ p₁) := by
  rw [rx]
  split_ifs with h
  · obtain ⟨⟨hlow, hhigh⟩, hindex, hlast⟩ := h
    simp only [allSafe_cons, allSafe_nil, and_true]
    exact ⟨trivial, safe_nodeadr hlow hhigh, ⟨hindex, by omega⟩, safe_write _ _ _ (by decide),
      safe_write _ _ _ (by decide), trivial⟩
  · exact allSafe_nil

/-- The one branch that does not look at its index. -/
theorem allSafe_loopback_iff {p₀ p₁ : ℤ} :
    AllSafe d (loopback d stray p₀ p₁) ↔ ¬(p₀ < 0 ∧ ¬(0 ≤ p₁ ∧ p₁ ≤ 3)) := by
  have hlength : (Table.i2stest.entries.length : ℤ) = 4 := rfl
  rw [loopback]
  split_ifs with hnegative hchecked
  · simp only [allSafe_cons, allSafe_nil, and_true, hnegative, true_and, not_not]
    constructor
    · rintro ⟨-, -, hindex, -⟩
      exact ⟨hindex.1, by have hlt := hindex.2; omega⟩
    · rintro ⟨hindex, hlast⟩
      exact ⟨trivial, safe_write _ _ _ (by decide), ⟨hindex, by omega⟩, safe_write _ _ _ (by decide)⟩
  · obtain ⟨hhigh, hindex, hlast⟩ := hchecked
    refine iff_of_true ?_ fun h ↦ hnegative h.1
    have hslots : AllSafe d (loopbackSlots p₀) := by
      rw [loopbackSlots]
      split_ifs
      · exact allSafe_nil
      · exact allSafe_dnslots (by omega)
    simp only [allSafe_append, allSafe_cons, allSafe_nil, and_true]
    exact ⟨⟨⟨trivial, safe_nodeadr (not_lt.mp hnegative) hhigh, safe_write _ _ _ (by decide),
      safe_write _ _ _ (by decide), safe_write _ _ _ (by decide), ⟨hindex, by omega⟩,
      safe_write _ _ _ (by decide)⟩, hslots⟩, safe_write _ _ _ (by decide),
      safe_write _ _ _ (by decide), safe_write _ _ _ (by decide), trivial⟩
  · exact iff_of_true allSafe_nil fun h ↦ hnegative h.1

/-- A number below zero has been stored. -/
theorem length_pos_of_numberAt_neg {values : List Value} (h : numberAt values 0 0 < 0) :
    1 ≤ values.length := by
  cases values with
  | nil => exact absurd h (lt_irrefl 0)
  | cons value values => exact Nat.succ_pos _

theorem allSafe_command_iff (rounds : ℕ) (text : List UInt8) :
    AllSafe d (command d stray rounds text) ↔ ¬BadLoopback text := by
  have hword : ∀ word ∈ ["Reset", "Log Enable", "Disable Fault Check"],
      sscanf (ascii word) loopbackFormat = [] := by decide +kernel
  have hgood : ∀ word ∈ ["Reset", "Log Enable", "Disable Fault Check"], text = ascii word →
      ¬BadLoopback text := by
    rintro word hmem rfl ⟨hnegative, -⟩
    rw [hword word hmem] at hnegative
    exact lt_irrefl 0 hnegative
  have hsingle : ∀ act : Act, act.Safe d → AllSafe d [act] := fun act h ↦
    allSafe_cons.mpr ⟨h, allSafe_nil⟩
  rw [command]
  split_ifs with hreset hlog hfault
  · exact iff_of_true (hsingle _ trivial) (hgood _ (by simp) hreset)
  · exact iff_of_true (hsingle _ trivial) (hgood _ (by simp) hlog)
  · exact iff_of_true (hsingle _ trivial) (hgood _ (by simp) hfault)
  · dsimp only
    split_ifs with hloopback hrx hpdm
    · exact allSafe_loopback_iff
    · exact iff_of_true (allSafe_rx _ _) fun h ↦ hloopback (length_pos_of_numberAt_neg h.1)
    · exact iff_of_true (allSafe_pdm _ _ _ _) fun h ↦ hloopback (length_pos_of_numberAt_neg h.1)
    · exact iff_of_true allSafe_nil fun h ↦ hloopback (length_pos_of_numberAt_neg h.1)

/-- **A command indexes the tables within their bounds and writes only numbers of nodes to `NODEADR`,
unless it is a `Loopback` for a negative node whose second number is no index.** -/
theorem ctrlWrite_safe_iff (d : Device) (stray : Table → ℤ → UInt8) (rounds : ℕ) (readable : Bool)
    (buf : List UInt8) :
    AllSafe d (ctrlWrite d stray rounds readable buf).1 ↔
      ¬(readable = true ∧ BadLoopback (commandOf buf)) := by
  rw [ctrlWrite]
  split_ifs with hempty hreadable
  · have hnil : commandOf buf = [] := by
      have hbuf : buf = [] := by
        rw [← List.length_eq_zero_iff]
        have hsize : commandSize = 128 := rfl
        omega
      rw [hbuf]
      rfl
    refine iff_of_true allSafe_nil ?_
    rintro ⟨-, hnegative, -⟩
    rw [hnil] at hnegative
    exact absurd hnegative (by decide +kernel)
  · exact iff_of_true allSafe_nil fun h ↦ by rw [hreadable] at h; cases h.1
  · rw [Bool.not_eq_false] at hreadable
    rw [allSafe_command_iff, and_iff_right hreadable]

end Safe

/-- The command `Loopback Slave-1 4` takes the fifth entry of a table of four. -/
theorem not_ctrlWrite_safe :
    ¬∀ (d : Device) (stray : Table → ℤ → UInt8) (rounds : ℕ) (readable : Bool) (buf : List UInt8),
      AllSafe d (ctrlWrite d stray rounds readable buf).1 := by
  intro h
  have hmem : Act.index .i2stest 4 ∈
      (ctrlWrite ⟨2, 0⟩ (fun _ _ ↦ 0) 0 true (ascii "Loopback Slave-1 4\n")).1 := by
    decide +kernel
  exact absurd (h _ _ _ _ _ _ hmem).2 (by decide)

end Vsys.A2b
