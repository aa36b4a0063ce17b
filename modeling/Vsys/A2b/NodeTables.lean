import Mathlib.Data.List.GetD
import Mathlib.Tactic.Ring
import Vsys.A2b.CommandList
import Vsys.A2b.Control
import Vsys.Stream.Visit

/-!
# The node tables of the A2B driver

`a2b24xx_setup_work` goes through the entries of the command list: down to the last `SLOTFMT` it
looks for the number of nodes, and then for the response cycle of each node and for the entry from
which a node is to be set up again.  `processSingleNode` sends the entries of one node from there
on.

An entry need not have data, a byte of data need not be below 16, and there need not be an entry
behind one.  `setupWork_safe_iff` says which lists are all right.
-/

namespace Vsys.A2b

open Vsys.Io Vsys.Stream

/-! ## Entries -/

def regChip : UInt8 := 0x00
def regSwctl : UInt8 := 0x09
def regLdnslots : UInt8 := 0x0B
def regDiscvry : UInt8 := 0x13

/-- `A2B_BITM_NODEADR_NODE`. -/
def nodeadrNode : UInt8 := 0x0F

/-- `A2B_BITM_NODEADR_PERI`. -/
def nodeadrPeri : UInt8 := 0x20

/-- `A2B_BITM_SWCTL_MODE`. -/
def swctlMode : UInt8 := 0x30

namespace Config

variable (config : Config)

/-- The entry is for a register. -/
def For (reg : UInt8) : Prop := config.nAddr = reg.toNat

/-- The entry is for the master. -/
def OnBase : Prop := config.nDeviceAddr = baseAddr.toNat

/-- There is a first byte of data. -/
def Carries : Prop := config.paConfigData ≠ none ∧ 0 < config.nDataCount

instance (reg : UInt8) : Decidable (config.For reg) := inferInstanceAs (Decidable (_ = _))

instance : Decidable config.OnBase := inferInstanceAs (Decidable (_ = _))

instance : Decidable config.Carries := inferInstanceAs (Decidable (_ ∧ _))

end Config

/-- What the driver touches. -/
inductive Access
  /-- `pA2BConfig[i]`. -/
  | entry (i : ℕ)
  /-- `pA2BConfig[i].paConfigData[0]`. -/
  | data (i : ℕ)
  /-- `node_cycles[k]`. -/
  | cycles (k : ℕ)
  /-- `node_pos[k]`. -/
  | pos (k : ℕ)
  deriving DecidableEq, Repr

/-- The tables, and what has been touched. -/
structure Tables where
  masterFmt : UInt8
  numNodes : UInt8
  nodeCycles : ℕ → UInt8
  nodePos : ℕ → ℕ
  nodeId : ℕ
  log : List Access

/-- Something is touched. -/
def Tables.touch (tables : Tables) (log : List Access) : Tables :=
  { tables with log := tables.log ++ log }

/-- The tables of a zeroed driver. -/
def Tables.zeroed : Tables where
  masterFmt := 0
  numNodes := 0
  nodeCycles := fun _ ↦ 0
  nodePos := fun _ ↦ 0
  nodeId := 0
  log := []

section Scans

/- `beyond` is what is behind the entries, and `lost` what is read where there are no data. -/
variable (entries : List Config) (buffer : ℕ → UInt8) (beyond : Config) (lost : ℕ → UInt8)

/-- `pA2BConfig[i]`. -/
def entryAt (i : ℕ) : Config := entries.getD i beyond

/-- `pA2BConfig[i].paConfigData[0]`. -/
def byteAt (i : ℕ) : UInt8 :=
  match (entryAt entries beyond i).paConfigData with
  | none => lost i
  | some off => buffer off

/-! ## `a2b24xx_setup_work` -/

/-- The data of an entry are sent, or taken as a delay. -/
def sends (i : ℕ) : List Access :=
  let config := entryAt entries beyond i
  if config.HasData ∧ 0 < config.nDataCount then [.data i] else []

/-- `adi_a2b_NetworkSetup`. -/
def networkSetup (tables : Tables) : Tables :=
  (List.range entries.length).foldl
    (fun tables i ↦ tables.touch (.entry i :: sends entries beyond i)) tables

/-- The format of the master is written. -/
def IsFormat (i : ℕ) : Prop :=
  (entryAt entries beyond i).For regSlotfmt ∧ (entryAt entries beyond i).OnBase

/-- The response cycle of a node is written. -/
def IsDiscovery (i : ℕ) : Prop :=
  (entryAt entries beyond i).For regDiscvry ∧ (entryAt entries beyond i).OnBase

/-- The downstream slots are written. -/
def IsSlots (i : ℕ) : Prop :=
  (entryAt entries beyond i).For regLdnslots ∧ (entryAt entries beyond i).nAddrWidth = 1

/-- A node address whose data are looked at. -/
def IsAddress (i : ℕ) : Prop :=
  (entryAt entries beyond i).For regNodeadr ∧ ¬ (entryAt entries beyond (i + 1)).For regChip

/-- A node address that counts. -/
def IsNode (i : ℕ) : Prop :=
  IsAddress entries beyond i ∧ byteAt entries buffer beyond lost i &&& nodeadrPeri = 0

instance : DecidablePred (IsFormat entries beyond) := fun _ ↦ inferInstanceAs (Decidable (_ ∧ _))

instance : DecidablePred (IsDiscovery entries beyond) := fun _ ↦ inferInstanceAs (Decidable (_ ∧ _))

instance : DecidablePred (IsSlots entries beyond) := fun _ ↦ inferInstanceAs (Decidable (_ ∧ _))

instance : DecidablePred (IsAddress entries beyond) := fun _ ↦ inferInstanceAs (Decidable (_ ∧ _))

instance : DecidablePred (IsNode entries buffer beyond lost) :=
  fun _ ↦ inferInstanceAs (Decidable (_ ∧ _))

/-- What the test for a node address touches. -/
def addressLog (i : ℕ) : List Access :=
  if (entryAt entries beyond i).For regNodeadr then
    .entry (i + 1) :: if (entryAt entries beyond (i + 1)).For regChip then [] else [.data i]
  else []

/-- One turn of the first loop. -/
def masterStep (tables : Tables) (i : ℕ) : Tables :=
  if IsFormat entries beyond i then
    { tables.touch [.entry i, .data i] with masterFmt := byteAt entries buffer beyond lost i }
  else if IsNode entries buffer beyond lost i then
    { tables.touch (.entry i :: addressLog entries beyond i ++ [.data i]) with
      numNodes := byteAt entries buffer beyond lost i }
  else tables.touch (.entry i :: addressLog entries beyond i)

/-- The first loop. -/
def scanMaster (tables : Tables) : Tables :=
  (upTo (IsFormat entries beyond) (down (entries.length - 1))).foldl
    (masterStep entries buffer beyond lost) tables

/-- One turn of the inner loop of the second loop. -/
def nodeStep (i : ℕ) (tables : Tables) (j : ℕ) : Tables :=
  if IsNode entries buffer beyond lost j then
    let node := (byteAt entries buffer beyond lost j).toNat
    { tables.touch (.entry j :: addressLog entries beyond j ++ [.data j, .pos node]) with
      nodePos := Function.update tables.nodePos node i }
  else tables.touch (.entry j :: addressLog entries beyond j)

/-- The first part of a turn of the second loop. -/
def cycleStep (tables : Tables) (i : ℕ) : Tables :=
  if IsDiscovery entries beyond i then
    { tables.touch [.entry i, .data i, .cycles tables.nodeId] with
      nodeCycles :=
        Function.update tables.nodeCycles tables.nodeId (byteAt entries buffer beyond lost i)
      nodeId := (tables.nodeId + 1) % 256 }
  else tables.touch [.entry i]

/-- The second part of a turn of the second loop. -/
def slotsStep (tables : Tables) (i : ℕ) : Tables :=
  if IsSlots entries beyond i then
    (upTo (IsNode entries buffer beyond lost) (down i)).foldl
      (nodeStep entries buffer beyond lost i) tables
  else tables

/-- One turn of the second loop. -/
def entryStep (tables : Tables) (i : ℕ) : Tables :=
  slotsStep entries buffer beyond lost (cycleStep entries buffer beyond lost tables i) i

/-- The second loop. -/
def scanEntries (tables : Tables) : Tables :=
  (List.range entries.length).foldl (entryStep entries buffer beyond lost) tables

/-- `a2b24xx_setup_work`, without what is sent. -/
def setupWork : Tables :=
  scanEntries entries buffer beyond lost
    (scanMaster entries buffer beyond lost (networkSetup entries beyond .zeroed))

/-! ## `processSingleNode` -/

/-- The loop over the entries of a node is left. -/
def Leaves (inode i : ℕ) : Prop :=
  let config := entryAt entries beyond i
  let byte := byteAt entries buffer beyond lost i
  config.For regNodeadr ∧ config.OnBase ∧ (byte &&& nodeadrNode).toNat ≠ inode ∨
    IsDiscovery entries beyond i ∨
    config.For regSwctl ∧ byte &&& swctlMode ≠ 0

instance (inode : ℕ) : DecidablePred (Leaves entries buffer beyond lost inode) :=
  fun _ ↦ inferInstanceAs (Decidable (_ ∨ _))

/-- The data are looked at to see whether the loop is left. -/
def IsMark (i : ℕ) : Prop :=
  (entryAt entries beyond i).For regNodeadr ∧ (entryAt entries beyond i).OnBase ∨
    (entryAt entries beyond i).For regSwctl

instance : DecidablePred (IsMark entries beyond) := fun _ ↦ inferInstanceAs (Decidable (_ ∨ _))

/-- What one turn of the loop touches. -/
def replayLog (inode i : ℕ) : List Access :=
  .entry i :: (if IsMark entries beyond i then [.data i] else []) ++
    if Leaves entries buffer beyond lost inode i then [] else sends entries beyond i

/-- What `processSingleNode` touches, with or without the log, if the node is found again or not. -/
def processSingleNode (logEnabled found : Bool) (tables : Tables) (inode : ℕ) : List Access :=
  if 1 ≤ inode ∧ inode ≤ tables.numNodes.toNat then
    (if logEnabled then [.cycles inode, .pos inode, .entry (tables.nodePos inode)] else []) ++
      .cycles inode ::
      if found then
        .pos inode ::
          (upTo (Leaves entries buffer beyond lost inode)
            (List.range' (tables.nodePos inode) (entries.length - tables.nodePos inode))).flatMap
          (replayLog entries buffer beyond lost inode)
      else []
  else []

/-! ## What is to hold -/

/-- What may be touched. -/
def Access.Ok : Access → Prop
  | .entry i => i < entries.length
  | .data i => ∃ h : i < entries.length, entries[i].Carries
  | .cycles k => k < 16
  | .pos k => k < 16

/-- A node address is written. -/
def NodeWrite (i : ℕ) : Prop :=
  let config := entryAt entries beyond i
  config.eOpCode = .write ∧ config.For regNodeadr ∧ config.OnBase

/-- The nearest node address written before an entry selects the node. -/
def Selected (node i : ℕ) : Prop :=
  ∃ j < i,
    NodeWrite entries beyond j ∧ (byteAt entries buffer beyond lost j &&& nodeadrNode).toNat = node ∧
      ∀ l, j < l → l < i → ¬ NodeWrite entries beyond l

/-- The tables are made and used as they should be. -/
structure TablesSound : Prop where
  setup : ∀ access ∈ (setupWork entries buffer beyond lost).log, access.Ok entries
  single : ∀ logEnabled found inode,
    ∀ access ∈ processSingleNode entries buffer beyond lost logEnabled found
      (setupWork entries buffer beyond lost) inode, access.Ok entries
  placed : ∀ node, 1 ≤ node → node ≤ (setupWork entries buffer beyond lost).numNodes.toNat →
    (setupWork entries buffer beyond lost).nodePos node < entries.length ∧
      Selected entries buffer beyond lost node
        ((setupWork entries buffer beyond lost).nodePos node)

/-! ## Regular lists -/

/-- No format of the master is written behind the entry. -/
def Behind (i : ℕ) : Prop := ∀ j, i < j → j < entries.length → ¬ IsFormat entries beyond j

/-- The first node address that counts behind the last format. -/
structure FirstNode (k : ℕ) : Prop where
  pos : 1 ≤ k
  lt : k < entries.length
  behind : Behind entries beyond k
  isNode : IsNode entries buffer beyond lost k
  first : ∀ j, 1 ≤ j → j < k → Behind entries beyond j → ¬ IsNode entries buffer beyond lost j

/-- The nearest node address that counts before an entry. -/
structure NearestNode (i j : ℕ) : Prop where
  pos : 1 ≤ j
  le : j ≤ i
  isNode : IsNode entries buffer beyond lost j
  nearest : ∀ l, j < l → l ≤ i → ¬ IsNode entries buffer beyond lost l

/-- The downstream slots of a node are written. -/
def SlotsOf (node i : ℕ) : Prop :=
  IsSlots entries beyond i ∧
    ∃ j, NearestNode entries buffer beyond lost i j ∧
      (byteAt entries buffer beyond lost j).toNat = node

/-- The last entry that writes the downstream slots of a node. -/
structure LastSlots (node i : ℕ) : Prop where
  lt : i < entries.length
  slots : SlotsOf entries buffer beyond lost node i
  last : ∀ i', i < i' → i' < entries.length → ¬ SlotsOf entries buffer beyond lost node i'

/-- The entries that the driver looks at have data, and what it takes from them fits. -/
structure Regular : Prop where
  sent : ∀ i < entries.length,
    (entryAt entries beyond i).HasData → 0 < (entryAt entries beyond i).nDataCount →
      (entryAt entries beyond i).Carries
  format : ∀ i, 1 ≤ i → i < entries.length → Behind entries beyond i → IsFormat entries beyond i →
    (entryAt entries beyond i).Carries
  address : ∀ i, 1 ≤ i → i < entries.length → Behind entries beyond i →
    (entryAt entries beyond i).For regNodeadr →
      i + 1 < entries.length ∧ (IsAddress entries beyond i → (entryAt entries beyond i).Carries)
  discovery : ∀ i < entries.length, IsDiscovery entries beyond i →
    (entryAt entries beyond i).Carries
  count : (List.range entries.length).countP (IsDiscovery entries beyond ·) ≤ 16
  slots : ∀ i < entries.length, IsSlots entries beyond i → ∀ j, 1 ≤ j → j ≤ i →
    (∀ l, j < l → l ≤ i → ¬ IsNode entries buffer beyond lost l) → IsAddress entries beyond j →
      (entryAt entries beyond j).Carries ∧
        (IsNode entries buffer beyond lost j → (byteAt entries buffer beyond lost j).toNat < 16)
  nodes : ∀ k, FirstNode entries buffer beyond lost k →
    ∀ node, 1 ≤ node → node ≤ (byteAt entries buffer beyond lost k).toNat →
      node < 16 ∧ ∃ i, LastSlots entries buffer beyond lost node i ∧
        Selected entries buffer beyond lost node i ∧
          ∀ m, i ≤ m → m < entries.length →
            (∀ l, i ≤ l → l < m → ¬ Leaves entries buffer beyond lost node l) →
              IsMark entries beyond m → (entryAt entries beyond m).Carries

/-! ## What is touched -/

variable {entries beyond}

theorem entryAt_of_lt {i : ℕ} (hi : i < entries.length) : entryAt entries beyond i = entries[i] :=
  List.getD_eq_getElem _ _ hi

variable (beyond) in
theorem data_ok_iff {i : ℕ} :
    (Access.data i).Ok entries ↔ i < entries.length ∧ (entryAt entries beyond i).Carries := by
  constructor
  · rintro ⟨hi, hdata⟩
    exact ⟨hi, (entryAt_of_lt hi).symm ▸ hdata⟩
  · rintro ⟨hi, hdata⟩
    exact ⟨hi, entryAt_of_lt hi ▸ hdata⟩

variable (entries) in
/-- Only what may be touched has been. -/
def Tables.Ok (tables : Tables) : Prop := ∀ access ∈ tables.log, access.Ok entries

theorem touch_ok_iff (tables : Tables) (log : List Access) :
    (tables.touch log).Ok entries ↔ tables.Ok entries ∧ ∀ access ∈ log, access.Ok entries :=
  List.forall_mem_append

theorem sends_ok_iff {i : ℕ} (hi : i < entries.length) :
    (∀ access ∈ sends entries beyond i, access.Ok entries) ↔
      ((entryAt entries beyond i).HasData → 0 < (entryAt entries beyond i).nDataCount →
        (entryAt entries beyond i).Carries) := by
  rw [sends]
  split_ifs with h
  · rw [List.forall_mem_singleton, data_ok_iff beyond]
    exact ⟨fun hdata _ _ ↦ hdata.2, fun hdata ↦ ⟨hi, hdata h.1 h.2⟩⟩
  · exact iff_of_true (List.forall_mem_nil _) fun hdata hcount ↦ absurd ⟨hdata, hcount⟩ h

variable (entries beyond) in
/-- The test for a node address is all right. -/
def AddressOk (i : ℕ) : Prop :=
  (entryAt entries beyond i).For regNodeadr →
    i + 1 < entries.length ∧ (IsAddress entries beyond i → (entryAt entries beyond i).Carries)

theorem addressLog_ok_iff {i : ℕ} (hi : i < entries.length) :
    (∀ access ∈ addressLog entries beyond i, access.Ok entries) ↔ AddressOk entries beyond i := by
  rw [addressLog, AddressOk]
  split_ifs with haddress hchip
  · rw [List.forall_mem_singleton]
    refine ⟨fun hnext _ ↦ ⟨hnext, fun h ↦ absurd hchip h.2⟩, fun h ↦ (h haddress).1⟩
  · rw [List.forall_mem_cons, List.forall_mem_singleton, data_ok_iff beyond]
    constructor
    · exact fun h _ ↦ ⟨h.1, fun _ ↦ h.2.2⟩
    · exact fun h ↦ ⟨(h haddress).1, hi, (h haddress).2 ⟨haddress, hchip⟩⟩
  · exact iff_of_true (List.forall_mem_nil _) fun h ↦ absurd h haddress

theorem networkSetup_ok_iff (tables : Tables) :
    (networkSetup entries beyond tables).Ok entries ↔
      tables.Ok entries ∧ ∀ i < entries.length,
        (entryAt entries beyond i).HasData → 0 < (entryAt entries beyond i).nDataCount →
          (entryAt entries beyond i).Carries := by
  refine (foldl_check (Tables.Ok entries) (fun i ↦ (entryAt entries beyond i).HasData →
    0 < (entryAt entries beyond i).nDataCount → (entryAt entries beyond i).Carries) ?_ tables).trans ?_
  · intro tables i hi
    rw [List.mem_range] at hi
    rw [touch_ok_iff, List.forall_mem_cons, sends_ok_iff hi]
    exact and_congr_right fun _ ↦ and_iff_right hi
  · simp only [List.mem_range]

variable {buffer lost}

theorem IsFormat.not_address {i : ℕ} (h : IsFormat entries beyond i) :
    ¬ (entryAt entries beyond i).For regNodeadr := by
  intro haddress
  have heq : (regSlotfmt.toNat : ℤ) = regNodeadr.toNat := h.1.symm.trans haddress
  exact absurd heq (by decide)

theorem IsSlots.not_address {i : ℕ} (h : IsSlots entries beyond i) :
    ¬ (entryAt entries beyond i).For regNodeadr := by
  intro haddress
  have heq : (regLdnslots.toNat : ℤ) = regNodeadr.toNat := h.1.symm.trans haddress
  exact absurd heq (by decide)

theorem masterStep_ok_iff {i : ℕ} (hi : i < entries.length) (tables : Tables) :
    (masterStep entries buffer beyond lost tables i).Ok entries ↔
      tables.Ok entries ∧ (IsFormat entries beyond i → (entryAt entries beyond i).Carries) ∧
        AddressOk entries beyond i := by
  have hdata : (Access.data i).Ok entries ↔ (entryAt entries beyond i).Carries :=
    (data_ok_iff beyond).trans (and_iff_right hi)
  have hentry : (Access.entry i).Ok entries := hi
  rw [masterStep]
  split_ifs with hformat hnode
  · change (tables.touch [.entry i, .data i]).Ok entries ↔ _
    rw [touch_ok_iff, List.forall_mem_cons, List.forall_mem_singleton, hdata]
    apply and_congr_right
    intro _
    constructor
    · exact fun h ↦ ⟨fun _ ↦ h.2, fun haddress ↦ absurd haddress hformat.not_address⟩
    · exact fun h ↦ ⟨hentry, h.1 hformat⟩
  · change (tables.touch (.entry i :: addressLog entries beyond i ++ [.data i])).Ok entries ↔ _
    rw [touch_ok_iff, List.forall_mem_append, List.forall_mem_cons, List.forall_mem_singleton,
      addressLog_ok_iff hi, hdata]
    apply and_congr_right
    intro _
    constructor
    · exact fun h ↦ ⟨fun hf ↦ absurd hf hformat, h.1.2⟩
    · exact fun h ↦ ⟨⟨hentry, h.2⟩, (h.2 hnode.1.1).2 hnode.1⟩
  · rw [touch_ok_iff, List.forall_mem_cons, addressLog_ok_iff hi]
    apply and_congr_right
    intro _
    exact ⟨fun h ↦ ⟨fun hf ↦ absurd hf hformat, h.2⟩, fun h ↦ ⟨hentry, h.2⟩⟩

/-- An entry that the first loop visits. -/
theorem mem_visited_iff {i : ℕ} :
    i ∈ upTo (IsFormat entries beyond) (down (entries.length - 1)) ↔
      1 ≤ i ∧ i < entries.length ∧ Behind entries beyond i := by
  rw [mem_upTo_down_iff, Behind, and_assoc]
  apply and_congr_right
  intro hi
  apply and_congr
  · omega
  · refine forall_congr' fun j ↦ imp_congr_right fun _ ↦ imp_congr_left ?_
    omega

theorem scanMaster_ok_iff (tables : Tables) :
    (scanMaster entries buffer beyond lost tables).Ok entries ↔
      tables.Ok entries ∧ ∀ i, 1 ≤ i → i < entries.length → Behind entries beyond i →
        (IsFormat entries beyond i → (entryAt entries beyond i).Carries) ∧
          AddressOk entries beyond i := by
  refine (foldl_check (Tables.Ok entries) (fun i ↦
    (IsFormat entries beyond i → (entryAt entries beyond i).Carries) ∧
      AddressOk entries beyond i) ?_ tables).trans ?_
  · intro tables i hi
    exact masterStep_ok_iff (mem_visited_iff.1 hi).2.1 tables
  · simp only [mem_visited_iff, and_imp]

theorem nodeStep_ok_iff {i j : ℕ} (hj : j < entries.length) (tables : Tables) :
    (nodeStep entries buffer beyond lost i tables j).Ok entries ↔
      tables.Ok entries ∧ AddressOk entries beyond j ∧
        (IsNode entries buffer beyond lost j →
          (byteAt entries buffer beyond lost j).toNat < 16) := by
  have hdata : (Access.data j).Ok entries ↔ (entryAt entries beyond j).Carries :=
    (data_ok_iff beyond).trans (and_iff_right hj)
  have hentry : (Access.entry j).Ok entries := hj
  rw [nodeStep]
  split_ifs with hnode
  · change (tables.touch (.entry j :: addressLog entries beyond j ++
      [.data j, .pos (byteAt entries buffer beyond lost j).toNat])).Ok entries ↔ _
    rw [touch_ok_iff, List.forall_mem_append, List.forall_mem_cons, List.forall_mem_cons,
      List.forall_mem_singleton, addressLog_ok_iff hj, hdata]
    apply and_congr_right
    intro _
    constructor
    · exact fun h ↦ ⟨h.1.2, fun _ ↦ h.2.2⟩
    · exact fun h ↦ ⟨⟨hentry, h.1⟩, (h.1 hnode.1.1).2 hnode.1, h.2 hnode⟩
  · rw [touch_ok_iff, List.forall_mem_cons, addressLog_ok_iff hj]
    apply and_congr_right
    intro _
    exact ⟨fun h ↦ ⟨h.2, fun hn ↦ absurd hn hnode⟩, fun h ↦ ⟨hentry, h.1⟩⟩

variable (entries buffer beyond lost) in
/-- The downstream slots of an entry are all right. -/
def SlotsOk (i : ℕ) : Prop :=
  IsSlots entries beyond i → ∀ j, 1 ≤ j → j ≤ i →
    (∀ l, j < l → l ≤ i → ¬ IsNode entries buffer beyond lost l) → IsAddress entries beyond j →
      (entryAt entries beyond j).Carries ∧
        (IsNode entries buffer beyond lost j → (byteAt entries buffer beyond lost j).toNat < 16)

theorem slotsStep_ok_iff {i : ℕ} (hi : i < entries.length) (tables : Tables) :
    (slotsStep entries buffer beyond lost tables i).Ok entries ↔
      tables.Ok entries ∧ SlotsOk entries buffer beyond lost i := by
  rw [slotsStep, SlotsOk]
  split_ifs with hslots
  · refine (foldl_check (Tables.Ok entries) (fun j ↦ AddressOk entries beyond j ∧
      (IsNode entries buffer beyond lost j →
        (byteAt entries buffer beyond lost j).toNat < 16)) ?_ tables).trans ?_
    · intro tables j hj
      rw [mem_upTo_down_iff] at hj
      exact nodeStep_ok_iff (hj.1.2.trans_lt hi) tables
    · apply and_congr_right
      intro _
      simp only [mem_upTo_down_iff, and_imp]
      constructor
      · intro h _ j hj hji hnone haddress
        obtain ⟨hok, hbyte⟩ := h j hj hji hnone
        exact ⟨(hok haddress.1).2 haddress, hbyte⟩
      · intro h j hj hji hnone
        refine ⟨fun hreg ↦ ⟨?_, fun haddress ↦ (h hslots j hj hji hnone haddress).1⟩,
          fun hnode ↦ (h hslots j hj hji hnone hnode.1).2 hnode⟩
        -- the entry itself is not for a node address
        have hne : j ≠ i := by
          rintro rfl
          exact hslots.not_address hreg
        exact Nat.lt_of_le_of_lt (Nat.lt_of_le_of_ne hji hne) hi
  · exact (and_iff_left fun h ↦ absurd h hslots).symm

theorem cycleStep_ok_iff {i : ℕ} (hi : i < entries.length) (tables : Tables) :
    (cycleStep entries buffer beyond lost tables i).Ok entries ↔
      tables.Ok entries ∧
        (IsDiscovery entries beyond i →
          (entryAt entries beyond i).Carries ∧ tables.nodeId < 16) := by
  have hdata : (Access.data i).Ok entries ↔ (entryAt entries beyond i).Carries :=
    (data_ok_iff beyond).trans (and_iff_right hi)
  have hentry : (Access.entry i).Ok entries := hi
  rw [cycleStep]
  split_ifs with hdiscovery
  · change (tables.touch [.entry i, .data i, .cycles tables.nodeId]).Ok entries ↔ _
    rw [touch_ok_iff, List.forall_mem_cons, List.forall_mem_cons, List.forall_mem_singleton, hdata]
    apply and_congr_right
    intro _
    exact ⟨fun h _ ↦ h.2, fun h ↦ ⟨hentry, h hdiscovery⟩⟩
  · rw [touch_ok_iff, List.forall_mem_singleton]
    apply and_congr_right
    intro _
    exact iff_of_true hentry fun h ↦ absurd h hdiscovery

theorem slotsStep_nodeId (tables : Tables) (i : ℕ) :
    (slotsStep entries buffer beyond lost tables i).nodeId = tables.nodeId := by
  rw [slotsStep]
  split_ifs
  · apply foldl_keep Tables.nodeId
    intro tables j
    rw [nodeStep]
    split_ifs <;> rfl
  · rfl

theorem cycleStep_nodeId (tables : Tables) (i : ℕ) :
    (cycleStep entries buffer beyond lost tables i).nodeId =
      if IsDiscovery entries beyond i then (tables.nodeId + 1) % 256 else tables.nodeId := by
  rw [cycleStep]
  split_ifs <;> rfl

theorem entryStep_ok_iff {i : ℕ} (hi : i < entries.length) (tables : Tables) :
    (entryStep entries buffer beyond lost tables i).Ok entries ↔
      tables.Ok entries ∧
        (IsDiscovery entries beyond i →
          (entryAt entries beyond i).Carries ∧ tables.nodeId < 16) ∧
        SlotsOk entries buffer beyond lost i := by
  rw [entryStep, slotsStep_ok_iff hi, cycleStep_ok_iff hi, and_assoc]

theorem entryStep_nodeId (tables : Tables) (i : ℕ) :
    (entryStep entries buffer beyond lost tables i).nodeId =
      if IsDiscovery entries beyond i then (tables.nodeId + 1) % 256 else tables.nodeId := by
  rw [entryStep, slotsStep_nodeId, cycleStep_nodeId]

/-- The second loop, for some entries from some state on. -/
theorem entrySteps_ok_iff {l : List ℕ} (hl : ∀ i ∈ l, i < entries.length) {tables : Tables}
    (hid : tables.nodeId ≤ 16) :
    (l.foldl (entryStep entries buffer beyond lost) tables).Ok entries ↔
      tables.Ok entries ∧
        (∀ i ∈ l, (IsDiscovery entries beyond i → (entryAt entries beyond i).Carries) ∧
          SlotsOk entries buffer beyond lost i) ∧
        tables.nodeId + l.countP (IsDiscovery entries beyond ·) ≤ 16 := by
  induction l generalizing tables with
  | nil => simp [hid]
  | cons i rest ih =>
      obtain ⟨hi, hrest⟩ := List.forall_mem_cons.1 hl
      have hid' : (entryStep entries buffer beyond lost tables i).nodeId =
        if IsDiscovery entries beyond i then (tables.nodeId + 1) % 256 else tables.nodeId :=
          entryStep_nodeId tables i
      rw [List.foldl_cons, List.forall_mem_cons, List.countP_cons]
      by_cases hdiscovery : IsDiscovery entries beyond i
      · by_cases hlt : tables.nodeId < 16
        · have hnext : (entryStep entries buffer beyond lost tables i).nodeId = tables.nodeId + 1 := by
            rw [hid', if_pos hdiscovery]
            omega
          have hsum : tables.nodeId + 1 + rest.countP (IsDiscovery entries beyond ·) =
              tables.nodeId + (rest.countP (IsDiscovery entries beyond ·) + 1) := by
            omega
          rw [ih hrest (hnext.le.trans hlt), entryStep_ok_iff hi, hnext, hsum]
          simp [hdiscovery, hlt, and_assoc]
        · refine iff_of_false (fun h ↦ ?_) (fun h ↦ ?_)
          · have hok : (entryStep entries buffer beyond lost tables i).Ok entries := by
              refine foldl_of_ok (fun tables k hk h ↦ ?_) h
              exact ((entryStep_ok_iff (hrest k hk) tables).1 h).1
            exact hlt (((entryStep_ok_iff hi tables).1 hok).2.1 hdiscovery).2
          · have hcount := h.2.2
            rw [decide_eq_true hdiscovery, if_pos rfl] at hcount
            omega
      · rw [if_neg hdiscovery] at hid'
        rw [ih hrest (hid'.le.trans hid), entryStep_ok_iff hi, hid']
        simp [hdiscovery, and_assoc]

/-! ## What the tables come to -/

theorem slotsStep_numNodes (tables : Tables) (i : ℕ) :
    (slotsStep entries buffer beyond lost tables i).numNodes = tables.numNodes := by
  rw [slotsStep]
  split_ifs
  · apply foldl_keep Tables.numNodes
    intro tables j
    rw [nodeStep]
    split_ifs <;> rfl
  · rfl

theorem scanEntries_numNodes (tables : Tables) :
    (scanEntries entries buffer beyond lost tables).numNodes = tables.numNodes := by
  apply foldl_keep Tables.numNodes
  intro tables i
  rw [entryStep, slotsStep_numNodes, cycleStep]
  split_ifs <;> rfl

theorem scanMaster_nodePos (tables : Tables) :
    (scanMaster entries buffer beyond lost tables).nodePos = tables.nodePos := by
  apply foldl_keep Tables.nodePos
  intro tables i
  rw [masterStep]
  split_ifs <;> rfl

theorem scanMaster_nodeId (tables : Tables) :
    (scanMaster entries buffer beyond lost tables).nodeId = tables.nodeId := by
  apply foldl_keep Tables.nodeId
  intro tables i
  rw [masterStep]
  split_ifs <;> rfl

/-- What is sent does not change the tables. -/
theorem networkSetup_keep {α : Type*} (get : Tables → α)
    (hget : ∀ tables log, get (tables.touch log) = get tables) (tables : Tables) :
    get (networkSetup entries beyond tables) = get tables := by
  apply foldl_keep get
  exact fun tables i ↦ hget tables _

theorem IsNode.not_format {i : ℕ} (h : IsNode entries buffer beyond lost i) :
    ¬ IsFormat entries beyond i :=
  fun hformat ↦ hformat.not_address h.1.1

/-- The number of nodes is that of the first node address behind the last format. -/
theorem setupWork_numNodes :
    (∃ k, FirstNode entries buffer beyond lost k ∧
        (setupWork entries buffer beyond lost).numNodes = byteAt entries buffer beyond lost k) ∨
      (∀ k, ¬ FirstNode entries buffer beyond lost k) ∧
        (setupWork entries buffer beyond lost).numNodes = 0 := by
  have hassign : ∀ tables i, IsNode entries buffer beyond lost i →
      (masterStep entries buffer beyond lost tables i).numNodes =
        byteAt entries buffer beyond lost i := by
    intro tables i hnode
    rw [masterStep, if_neg hnode.not_format, if_pos hnode]
  have hkeep : ∀ tables i, ¬ IsNode entries buffer beyond lost i →
      (masterStep entries buffer beyond lost tables i).numNodes = tables.numNodes := by
    intro tables i hnode
    rw [masterStep, if_neg hnode]
    split_ifs <;> rfl
  have hordered : (upTo (IsFormat entries beyond) (down (entries.length - 1))).Pairwise (· > ·) :=
    (down_pairwise _).sublist (upTo_sublist _)
  rw [setupWork, scanEntries_numNodes, scanMaster]
  rcases foldl_assign_of_pairwise Tables.numNodes hassign hkeep hordered (fun i ↦ lt_irrefl i)
    (fun _ _ h ↦ lt_asymm h) (networkSetup entries beyond .zeroed) with
    ⟨k, hk, hnode, hfirst, hvalue⟩ | ⟨hnone, hvalue⟩
  · obtain ⟨hpos, hlt, hbehind⟩ := mem_visited_iff.1 hk
    refine .inl ⟨k, ⟨hpos, hlt, hbehind, hnode, fun j hj hjk hb ↦ ?_⟩, hvalue⟩
    exact hfirst j (mem_visited_iff.2 ⟨hj, hjk.trans hlt, hb⟩) hjk
  · refine .inr ⟨fun k hk ↦ ?_, hvalue.trans (networkSetup_keep Tables.numNodes (fun _ _ ↦ rfl) _)⟩
    exact hnone k (mem_visited_iff.2 ⟨hk.pos, hk.lt, hk.behind⟩) hk.isNode

theorem FirstNode.unique {k k' : ℕ} (h : FirstNode entries buffer beyond lost k)
    (h' : FirstNode entries buffer beyond lost k') : k = k' := by
  rcases lt_trichotomy k k' with hlt | heq | hlt
  · exact absurd h.isNode (h'.first k h.pos hlt h.behind)
  · exact heq
  · exact absurd h'.isNode (h.first k' h'.pos hlt h'.behind)

/-- A node address that the inner loop takes. -/
theorem nearestNode_iff {i j : ℕ} :
    NearestNode entries buffer beyond lost i j ↔
      j ∈ upTo (IsNode entries buffer beyond lost) (down i) ∧
        IsNode entries buffer beyond lost j := by
  rw [mem_upTo_down_iff]
  constructor
  · exact fun h ↦ ⟨⟨⟨h.pos, h.le⟩, h.nearest⟩, h.isNode⟩
  · rintro ⟨⟨⟨hpos, hle⟩, hnearest⟩, hnode⟩
    exact ⟨hpos, hle, hnode, hnearest⟩

section NodePos

variable {node i : ℕ} (tables : Tables)

theorem nodeStep_nodePos_of_eq {j : ℕ} (hnode : IsNode entries buffer beyond lost j ∧
      (byteAt entries buffer beyond lost j).toNat = node) :
    (nodeStep entries buffer beyond lost i tables j).nodePos node = i := by
  rw [nodeStep, if_pos hnode.1, ← hnode.2]
  exact Function.update_self ..

theorem nodeStep_nodePos_of_ne {j : ℕ} (hnode : ¬ (IsNode entries buffer beyond lost j ∧
      (byteAt entries buffer beyond lost j).toNat = node)) :
    (nodeStep entries buffer beyond lost i tables j).nodePos node = tables.nodePos node := by
  rw [nodeStep]
  split_ifs with h
  · exact Function.update_of_ne (fun heq ↦ hnode ⟨h, heq.symm⟩) _ _
  · rfl

theorem slotsStep_nodePos_of_slots (h : SlotsOf entries buffer beyond lost node i) :
    (slotsStep entries buffer beyond lost tables i).nodePos node = i := by
  obtain ⟨hslots, j, hnearest, hbyte⟩ := h
  rw [slotsStep, if_pos hslots]
  rcases foldl_assign (fun tables : Tables ↦ tables.nodePos node)
    (fun tables _ ↦ nodeStep_nodePos_of_eq tables) (fun tables _ ↦ nodeStep_nodePos_of_ne tables)
    (upTo (IsNode entries buffer beyond lost) (down i)) tables with
    ⟨_, _, _, _, _, _, hvalue⟩ | ⟨hnone, -⟩
  · exact hvalue
  · exact absurd ⟨hnearest.isNode, hbyte⟩ (hnone j (nearestNode_iff.1 hnearest).1)

theorem slotsStep_nodePos_of_not_slots (h : ¬ SlotsOf entries buffer beyond lost node i) :
    (slotsStep entries buffer beyond lost tables i).nodePos node = tables.nodePos node := by
  rw [slotsStep]
  split_ifs with hslots
  · rcases foldl_assign (fun tables : Tables ↦ tables.nodePos node)
      (fun tables _ ↦ nodeStep_nodePos_of_eq tables) (fun tables _ ↦ nodeStep_nodePos_of_ne tables)
      (upTo (IsNode entries buffer beyond lost) (down i)) tables with
      ⟨before, j, after, heq, hnode, -⟩ | ⟨-, hvalue⟩
    · have hj : j ∈ upTo (IsNode entries buffer beyond lost) (down i) := by
        rw [heq]
        exact List.mem_append_right _ List.mem_cons_self
      exact absurd ⟨hslots, j, nearestNode_iff.2 ⟨hj, hnode.1⟩, hnode.2⟩ h
    · exact hvalue
  · rfl

theorem cycleStep_nodePos :
    (cycleStep entries buffer beyond lost tables i).nodePos = tables.nodePos := by
  rw [cycleStep]
  split_ifs <;> rfl

end NodePos

/-- A node is set up again from the last entry that writes its downstream slots. -/
theorem setupWork_nodePos (node : ℕ) :
    (∃ i, LastSlots entries buffer beyond lost node i ∧
        (setupWork entries buffer beyond lost).nodePos node = i) ∨
      (∀ i, ¬ LastSlots entries buffer beyond lost node i) ∧
        (setupWork entries buffer beyond lost).nodePos node = 0 := by
  have hassign : ∀ tables i, SlotsOf entries buffer beyond lost node i →
      (entryStep entries buffer beyond lost tables i).nodePos node = i :=
    fun tables i h ↦ slotsStep_nodePos_of_slots _ h
  have hkeep : ∀ tables i, ¬ SlotsOf entries buffer beyond lost node i →
      (entryStep entries buffer beyond lost tables i).nodePos node = tables.nodePos node := by
    intro tables i h
    rw [entryStep, slotsStep_nodePos_of_not_slots _ h, cycleStep_nodePos]
  rw [setupWork, scanEntries]
  rcases foldl_assign_of_pairwise (fun tables : Tables ↦ tables.nodePos node) hassign hkeep
    List.pairwise_lt_range (fun i ↦ lt_irrefl i) (fun _ _ h ↦ lt_asymm h)
    (scanMaster entries buffer beyond lost (networkSetup entries beyond .zeroed)) with
    ⟨i, hi, hslots, hlast, hvalue⟩ | ⟨hnone, hvalue⟩
  · refine .inl ⟨i, ⟨List.mem_range.1 hi, hslots, fun i' hlt hi' ↦ ?_⟩, hvalue⟩
    exact hlast i' (List.mem_range.2 hi') hlt
  · refine .inr ⟨fun i hi ↦ hnone i (List.mem_range.2 hi.lt) hi.slots, hvalue.trans ?_⟩
    rw [scanMaster_nodePos, networkSetup_keep Tables.nodePos fun _ _ ↦ rfl]
    rfl

theorem LastSlots.unique {node i i' : ℕ} (h : LastSlots entries buffer beyond lost node i)
    (h' : LastSlots entries buffer beyond lost node i') : i = i' := by
  rcases lt_trichotomy i i' with hlt | heq | hlt
  · exact absurd h'.slots (h.last i' hlt h'.lt)
  · exact heq
  · exact absurd h.slots (h'.last i hlt h.lt)

/-! ## Regular lists are all right -/

/-- What `a2b24xx_setup_work` touches. -/
theorem setupWork_ok_iff :
    (setupWork entries buffer beyond lost).Ok entries ↔
      (((∀ i < entries.length,
            (entryAt entries beyond i).HasData → 0 < (entryAt entries beyond i).nDataCount →
              (entryAt entries beyond i).Carries) ∧
          ∀ i, 1 ≤ i → i < entries.length → Behind entries beyond i →
            (IsFormat entries beyond i → (entryAt entries beyond i).Carries) ∧
              AddressOk entries beyond i) ∧
        (∀ i < entries.length,
          (IsDiscovery entries beyond i → (entryAt entries beyond i).Carries) ∧
            SlotsOk entries buffer beyond lost i) ∧
        (List.range entries.length).countP (IsDiscovery entries beyond ·) ≤ 16) := by
  have hzero : Tables.zeroed.Ok entries := List.forall_mem_nil _
  have hid : (scanMaster entries buffer beyond lost (networkSetup entries beyond .zeroed)).nodeId =
      0 := by
    rw [scanMaster_nodeId, networkSetup_keep Tables.nodeId fun _ _ ↦ rfl]
    rfl
  rw [setupWork, scanEntries, entrySteps_ok_iff (fun i hi ↦ List.mem_range.1 hi)
    (hid.le.trans (Nat.zero_le _)), scanMaster_ok_iff, networkSetup_ok_iff, hid, Nat.zero_add]
  simp only [hzero, true_and, List.mem_range]

theorem replayLog_ok_iff {inode i : ℕ} (hi : i < entries.length) :
    (∀ access ∈ replayLog entries buffer beyond lost inode i, access.Ok entries) ↔
      (IsMark entries beyond i → (entryAt entries beyond i).Carries) ∧
        (¬ Leaves entries buffer beyond lost inode i → (entryAt entries beyond i).HasData →
          0 < (entryAt entries beyond i).nDataCount → (entryAt entries beyond i).Carries) := by
  have hentry : (Access.entry i).Ok entries := hi
  rw [replayLog, List.forall_mem_append, List.forall_mem_cons, and_iff_right hentry]
  apply and_congr
  · split_ifs with hmark
    · rw [List.forall_mem_singleton, data_ok_iff beyond, and_iff_right hi]
      exact ⟨fun h _ ↦ h, fun h ↦ h hmark⟩
    · exact iff_of_true (List.forall_mem_nil _) fun h ↦ absurd h hmark
  · split_ifs with hleaves
    · exact iff_of_true (List.forall_mem_nil _) fun h ↦ absurd hleaves h
    · rw [sends_ok_iff hi]
      exact ⟨fun h _ ↦ h, fun h ↦ h hleaves⟩

/-- An entry that `processSingleNode` visits. -/
theorem mem_replayed_iff {inode pos i : ℕ} (hpos : pos < entries.length) :
    i ∈ upTo (Leaves entries buffer beyond lost inode)
        (List.range' pos (entries.length - pos)) ↔
      (pos ≤ i ∧ i < entries.length) ∧
        ∀ l, pos ≤ l → l < i → ¬ Leaves entries buffer beyond lost inode l := by
  rw [mem_upTo_iff List.pairwise_lt_range' (fun i ↦ lt_irrefl i) (fun _ _ h ↦ lt_asymm h)]
  simp only [List.mem_range'_1, Nat.add_sub_cancel' hpos.le]
  apply and_congr_right
  intro hi
  exact ⟨fun h l hl hli ↦ h l ⟨hl, hli.trans hi.2⟩ hli, fun h l hl hli ↦ h l hl.1 hli⟩

variable (entries buffer beyond lost) in
/-- The entries of a node from some place on may be looked at. -/
def Replayable (node pos : ℕ) : Prop :=
  ∀ m, pos ≤ m → m < entries.length →
    (∀ l, pos ≤ l → l < m → ¬ Leaves entries buffer beyond lost node l) →
      IsMark entries beyond m → (entryAt entries beyond m).Carries

/-- What `processSingleNode` touches. -/
theorem processSingleNode_ok_iff
    (hsent : ∀ i < entries.length,
      (entryAt entries beyond i).HasData → 0 < (entryAt entries beyond i).nDataCount →
        (entryAt entries beyond i).Carries)
    {tables : Tables} {inode : ℕ} (hpos : tables.nodePos inode < entries.length)
    (hin : 1 ≤ inode ∧ inode ≤ tables.numNodes.toNat) :
    (∀ logEnabled found, ∀ access ∈ processSingleNode entries buffer beyond lost logEnabled found
        tables inode, access.Ok entries) ↔
      inode < 16 ∧ Replayable entries buffer beyond lost inode (tables.nodePos inode) := by
  have hreplay : (∀ access ∈ (upTo (Leaves entries buffer beyond lost inode)
        (List.range' (tables.nodePos inode) (entries.length - tables.nodePos inode))).flatMap
          (replayLog entries buffer beyond lost inode), access.Ok entries) ↔
      Replayable entries buffer beyond lost inode (tables.nodePos inode) := by
    rw [List.forall_mem_flatMap]
    constructor
    · intro h m hm hlt hnone hmark
      have hlog := h m ((mem_replayed_iff hpos).2 ⟨⟨hm, hlt⟩, hnone⟩)
      exact ((replayLog_ok_iff hlt).1 hlog).1 hmark
    · intro h m hm
      obtain ⟨⟨hle, hlt⟩, hnone⟩ := (mem_replayed_iff hpos).1 hm
      exact (replayLog_ok_iff hlt).2 ⟨h m hle hlt hnone, fun _ ↦ hsent m hlt⟩
  have hentry : (Access.entry (tables.nodePos inode)).Ok entries := hpos
  simp only [processSingleNode, if_pos hin]
  constructor
  · intro h
    have hlog := List.forall_mem_cons.1 (h false true)
    exact ⟨hlog.1, hreplay.1 (List.forall_mem_cons.1 hlog.2).2⟩
  · rintro ⟨hlt, hr⟩ logEnabled found
    have hcycles : (Access.cycles inode).Ok entries := hlt
    have hplace : (Access.pos inode).Ok entries := hlt
    rw [List.forall_mem_append, List.forall_mem_cons]
    refine ⟨?_, hcycles, ?_⟩
    · split_ifs
      · exact List.forall_mem_cons.2
          ⟨hcycles, List.forall_mem_cons.2 ⟨hplace, List.forall_mem_singleton.2 hentry⟩⟩
      · exact List.forall_mem_nil _
    · split_ifs
      · exact List.forall_mem_cons.2 ⟨hplace, hreplay.2 hr⟩
      · exact List.forall_mem_nil _

/-- A node there is, is one of those up to the first node address. -/
theorem exists_firstNode {node : ℕ} (hnode : 1 ≤ node)
    (hle : node ≤ (setupWork entries buffer beyond lost).numNodes.toNat) :
    ∃ k, FirstNode entries buffer beyond lost k ∧
      node ≤ (byteAt entries buffer beyond lost k).toNat := by
  rcases @setupWork_numNodes entries buffer beyond lost with ⟨k, hk, heq⟩ | ⟨-, heq⟩
  · exact ⟨k, hk, heq ▸ hle⟩
  · rw [heq] at hle
    exact absurd hle (Nat.not_le_of_lt hnode)

theorem FirstNode.numNodes {k : ℕ} (hk : FirstNode entries buffer beyond lost k) :
    (setupWork entries buffer beyond lost).numNodes = byteAt entries buffer beyond lost k := by
  rcases @setupWork_numNodes entries buffer beyond lost with ⟨k', hk', heq⟩ | ⟨hnone, -⟩
  · rw [heq, hk.unique hk']
  · exact absurd hk (hnone k)

theorem LastSlots.nodePos {node i : ℕ} (hi : LastSlots entries buffer beyond lost node i) :
    (setupWork entries buffer beyond lost).nodePos node = i := by
  rcases @setupWork_nodePos entries buffer beyond lost node with ⟨i', hi', heq⟩ | ⟨hnone, -⟩
  · rw [heq, hi.unique hi']
  · exact absurd hi (hnone i)

/-- The entry of a node that is selected before it is one that writes downstream slots. -/
theorem lastSlots_of_selected {node : ℕ}
    (hselected : Selected entries buffer beyond lost node
      ((setupWork entries buffer beyond lost).nodePos node)) :
    LastSlots entries buffer beyond lost node
      ((setupWork entries buffer beyond lost).nodePos node) := by
  rcases @setupWork_nodePos entries buffer beyond lost node with ⟨i, hi, heq⟩ | ⟨-, heq⟩
  · rwa [heq]
  · rw [heq] at hselected
    obtain ⟨j, hj, -⟩ := hselected
    exact absurd hj (Nat.not_lt_zero j)

theorem tablesSound_iff_regular :
    TablesSound entries buffer beyond lost ↔ Regular entries buffer beyond lost := by
  constructor
  · rintro ⟨hsetup, hsingle, hplaced⟩
    obtain ⟨⟨hsent, hmaster⟩, hturns, hcount⟩ := setupWork_ok_iff.1 hsetup
    refine
      { sent := hsent
        format := fun i hpos hlt hbehind ↦ (hmaster i hpos hlt hbehind).1
        address := fun i hpos hlt hbehind ↦ (hmaster i hpos hlt hbehind).2
        discovery := fun i hi ↦ (hturns i hi).1
        count := hcount
        slots := fun i hi ↦ (hturns i hi).2
        nodes := fun k hk node hnode hle ↦ ?_ }
    rw [← hk.numNodes] at hle
    obtain ⟨hpos, hselected⟩ := hplaced node hnode hle
    obtain ⟨hlt, hreplay⟩ := (processSingleNode_ok_iff hsent hpos ⟨hnode, hle⟩).1
      fun logEnabled found ↦ hsingle logEnabled found node
    exact ⟨hlt, _, lastSlots_of_selected hselected, hselected, hreplay⟩
  · intro h
    have hnodes : ∀ node, 1 ≤ node →
        node ≤ (setupWork entries buffer beyond lost).numNodes.toNat →
          node < 16 ∧ ∃ i, LastSlots entries buffer beyond lost node i ∧
            Selected entries buffer beyond lost node i ∧
              Replayable entries buffer beyond lost node i := by
      intro node hnode hle
      obtain ⟨k, hk, hle⟩ := exists_firstNode hnode hle
      exact h.nodes k hk node hnode hle
    refine ⟨setupWork_ok_iff.2 ⟨⟨h.sent, fun i hpos hlt hbehind ↦ ?_⟩, fun i hi ↦ ?_, h.count⟩,
      fun logEnabled found inode ↦ ?_, fun node hnode hle ↦ ?_⟩
    · exact ⟨h.format i hpos hlt hbehind, h.address i hpos hlt hbehind⟩
    · exact ⟨h.discovery i hi, h.slots i hi⟩
    · by_cases hin : 1 ≤ inode ∧ inode ≤ (setupWork entries buffer beyond lost).numNodes.toNat
      · obtain ⟨hlt, i, hslots, -, hreplay⟩ := hnodes inode hin.1 hin.2
        have hpos : (setupWork entries buffer beyond lost).nodePos inode < entries.length := by
          rw [hslots.nodePos]
          exact hslots.lt
        rw [← hslots.nodePos] at hreplay
        exact (processSingleNode_ok_iff h.sent hpos hin).2 ⟨hlt, hreplay⟩ logEnabled found
      · rw [processSingleNode, if_neg hin]
        exact List.forall_mem_nil _
    · obtain ⟨-, i, hslots, hselected, -⟩ := hnodes node hnode hle
      rw [hslots.nodePos]
      exact ⟨hslots.lt, hselected⟩

end Scans

/-! ## Lists that are parsed -/

/-- The tables are all right for what `parseXML` makes of a text. -/
def TablesSafe (xml : List UInt8) (beyond : Config) (lost : ℕ → UInt8) : Prop :=
  ∀ entries store, parseXML xml = .ok (entries, store) →
    TablesSound (entries.map Prod.snd) store.configBuffer beyond lost

/-- **Node tables.**  The tables are all right for what `parseXML` makes of a text exactly if that is
a regular list. -/
theorem setupWork_safe_iff (xml : List UInt8) (beyond : Config) (lost : ℕ → UInt8) :
    TablesSafe xml beyond lost ↔
      ∀ entries store, parseXML xml = .ok (entries, store) →
        Regular (entries.map Prod.snd) store.configBuffer beyond lost := by
  simp only [TablesSafe, tablesSound_iff_regular]

/-- A delay, and a read of the format of the master. -/
def readFormat : List UInt8 :=
  ascii ("<action instr=\"delay\">0A</action>\n" ++
    "<action instr=\"read\" SpiCmd=\"0\" SpiCmdWidth=\"0\" addr_width=\"1\" data_width=\"1\" " ++
    "len=\"2\" addr=\"16\" i2caddr=\"104\" AddrIncr=\"0\" Protocol=\"I2C\" />\n")

/-- The format is taken from the read, which has no data. -/
theorem readFormat_not_safe : ¬ ∃ beyond lost, TablesSafe readFormat beyond lost := by
  rintro ⟨beyond, lost, hsafe⟩
  have hentries : (parseXML readFormat).toOption.map (fun result ↦ result.1.map Prod.snd) =
      some
        [⟨0, .delay, 0, 0, 0, 1, some 0, 0, 0, false⟩,
          ⟨104, .read, 1, 16, 1, 1, none, 0, 0, false⟩] := by
    decide +kernel
  obtain ⟨entries, store, hparse, hlist⟩ := exists_of_parsed hentries
  have hregular := tablesSound_iff_regular.1 (hsafe entries store hparse)
  rw [hlist] at hregular
  have hcarries := hregular.format 1 le_rfl (by decide)
    (fun j hj hlt ↦ absurd hlt (Nat.not_lt_of_le hj)) ⟨rfl, rfl⟩
  exact hcarries.1 rfl

end Vsys.A2b
