import Vsys.Io.Scanf

/-!
# The command list of the A2B driver

`parseXML` looks for `<action` in a text and takes the line from there as an action; `parseAction`
reads its attributes with `sscanf` and copies the numbers behind the first `>` into a buffer that all
actions share.

A fault is a `NULL` pointer that is used, which the kernel does not survive, or a write behind a
buffer, after which nothing is known.
-/

namespace Vsys.A2b

open Vsys.Io

/-! ## Strings -/

/-- `strstr`: the string from the first occurrence on. -/
def strstr (pattern : List UInt8) : List UInt8 → Option (List UInt8)
  | [] => if pattern = [] then some [] else none
  | b :: s => if pattern.isPrefixOf (b :: s) then some (b :: s) else strstr pattern s

/-- `strchr`: the string from the first occurrence on. -/
def strchr (c : UInt8) (s : List UInt8) : Option (List UInt8) :=
  if c ∈ s then some (s.dropWhile (· ≠ c)) else none

/-- The value of a hexadecimal digit. -/
def hexDigit (b : UInt8) : Option ℕ :=
  if isdigit b then some (b.toNat - 48)
  else if 65 ≤ b.toNat ∧ b.toNat ≤ 70 then some (b.toNat - 55)
  else if 97 ≤ b.toNat ∧ b.toNat ≤ 102 then some (b.toNat - 87)
  else none

/-- The digits at the front of a string as a number in base 16. -/
def hexadecimal (s : List UInt8) : ℕ :=
  ((s.map hexDigit).takeWhile Option.isSome).foldl (fun n digit ↦ 16 * n + digit.getD 0) 0

/-- A `0x` with a digit behind it. -/
def skipPrefix (s : List UInt8) : List UInt8 :=
  match s with
  | 48 :: x :: digit :: rest =>
      if (x = 120 ∨ x = 88) ∧ (hexDigit digit).isSome then digit :: rest else s
  | _ => s

/-- `(uint8_t)strtoul(token, NULL, 16)`. -/
def hexByte (token : List UInt8) : UInt8 :=
  match skipSpaces token with
  | 43 :: s => UInt8.ofNat (min (hexadecimal (skipPrefix s)) (2 ^ 64 - 1))
  | 45 :: s => UInt8.ofNat (2 ^ 64 - min (hexadecimal (skipPrefix s)) (2 ^ 64 - 1))
  | s => UInt8.ofNat (min (hexadecimal (skipPrefix s)) (2 ^ 64 - 1))

/-! ## Actions -/

/-- `MAX_ACTIONS`. -/
def maxActions : ℕ := 256

/-- `MAX_CONFIG_DATA`. -/
def maxConfigData : ℕ := maxActions * 2 ^ 6

/-- The size of the buffer for an action. -/
def actionSize : ℕ := 6000

/-- `A2B_REG_BECCTL`. -/
def regBecctl : ℤ := 0x1E

/-- `A2B24XX_*`. -/
inductive OpCode
  | write
  | read
  | delay
  | invalid
  deriving DecidableEq, Repr

/-- `ADI_A2B_DISCOVERY_CONFIG`; the data is a place in `config_buffer`. -/
structure Config where
  nDeviceAddr : ℤ
  eOpCode : OpCode
  nAddrWidth : ℤ
  nAddr : ℤ
  nDataWidth : ℤ
  nDataCount : ℕ
  paConfigData : Option ℕ
  nSpiCmdWidth : ℤ
  nSpiCmd : ℤ
  spi : Bool
  deriving DecidableEq, Repr

/-- `config_buffer` and `write_offset`. -/
structure Store where
  configBuffer : ℕ → UInt8
  writeOffset : ℕ

/-- How a call may fail to return. -/
inductive Fault
  /-- A pointer near `NULL` is used. -/
  | oops
  /-- Something is written behind a buffer. -/
  | overrun
  deriving DecidableEq, Repr

def actionFormat : String :=
  "<action instr=\"%s SpiCmd=\"%u\" SpiCmdWidth=\"%hhu\" addr_width" ++
    "                 =\"%hhu\" data_width=\"%hhu\" len=\"%hu\" addr=\"%u\" i2caddr=\"%hhu\" " ++
    "AddrIncr=\"%*s\" Protocol=\"%s"

/-- What `sscanf` leaves in a zeroed entry. -/
def scanned (values : List Value) : Config where
  nSpiCmd := numberAt values 1 0
  nSpiCmdWidth := numberAt values 2 0
  nAddrWidth := numberAt values 3 0
  nDataWidth := numberAt values 4 0
  nDataCount := (numberAt values 5 0).toNat
  nAddr := numberAt values 6 0
  nDeviceAddr := numberAt values 7 0
  eOpCode := .write
  paConfigData := none
  spi := false

/-- The text is in the string. -/
def contains (s : List UInt8) (text : String) : Bool := (strstr (ascii text) s).isSome

/-- The first part of `parseAction`: everything but the data.  `instr` has 20 bytes and `protocol`
has 10. -/
def parseHeader (action : List UInt8) : Except Fault Config :=
  let values := sscanf action actionFormat
  let config := scanned values
  let instr := textAt values 0
  let protocol := textAt values 8
  if 20 ≤ instr.length ∨ 10 ≤ protocol.length then .error .overrun
  else if values.length = 9 then
    if config.nAddr = regBecctl ∧ config.nAddrWidth = 1 then .ok { config with eOpCode := .invalid }
    else
      .ok
        { config with
          eOpCode :=
            if contains instr "writeXbytes" then .write
            else if contains instr "read" then .read
            else .invalid
          spi := contains protocol "SPI"
          nDataCount := ((config.nDataCount - config.nAddrWidth) % 2 ^ 16).toNat }
  else if contains action "instr=\"delay\"" then .ok { config with eOpCode := .delay, nDataCount := 1 }
  else .ok { config with eOpCode := .invalid }

/-- The entry has data. -/
def Config.HasData (config : Config) : Prop :=
  config.eOpCode = .write ∨ config.eOpCode = .delay

instance (config : Config) : Decidable config.HasData := inferInstanceAs (Decidable (_ ∨ _))

/-- The string behind the first `>`. -/
def dataStr (action : List UInt8) : Option (List UInt8) := (strchr 62 action).map List.tail

/-- What `strsep` makes of the data; without a count the loop is left at once. -/
def dataTokens (config : Config) (data : List UInt8) : List (List UInt8) :=
  if config.nDataCount = 0 then [] else data.splitOn 32

/-- The bytes are written from `write_offset` on. -/
def Store.put (store : Store) (bytes : List UInt8) : Store where
  configBuffer := fun k ↦
    if store.writeOffset ≤ k ∧ k < store.writeOffset + bytes.length then
      bytes.getD (k - store.writeOffset) 0
    else store.configBuffer k
  writeOffset := store.writeOffset + bytes.length

/-- `parseAction` on a zeroed entry. -/
def parseAction (store : Store) (action : List UInt8) : Except Fault (Config × Store) := do
  let config ← parseHeader action
  if config.HasData then
    if maxConfigData ≤ store.writeOffset + config.nDataCount then pure (config, store)
    else
      match dataStr action with
      | none => throw .oops
      | some data =>
          let bytes := (dataTokens config data).map hexByte
          if maxConfigData < store.writeOffset + bytes.length then throw .overrun
          else
            pure
              ({ config with
                  paConfigData := some store.writeOffset
                  nDataCount := bytes.length % 2 ^ 16 },
                store.put bytes)
  else pure (config, store)

/-! ## The text -/

def actionMark : List UInt8 := ascii "<action"

/-- An action from where it starts to the end of its line, the line feed included. -/
def lineOf (start : List UInt8) : List UInt8 :=
  start.takeWhile (· ≠ 10) ++ (start.dropWhile (· ≠ 10)).take 1

/-- `parseXML`, for so many more entries: the entries, each with where its action starts.  Without a
line feed the length of the action is that of a pointer. -/
def parseFrom : ℕ → List UInt8 → Store → Except Fault (List (List UInt8 × Config) × Store)
  | 0, _, store => pure ([], store)
  | count + 1, text, store =>
      match strstr actionMark text with
      | none => pure ([], store)
      | some actionStart =>
          match strchr 10 actionStart with
          | none => pure ([], store)
          | some actionEnd =>
              if actionSize ≤ (lineOf actionStart).length then pure ([], store)
              else do
                let (config, store) ← parseAction store (lineOf actionStart)
                let (entries, store) ← parseFrom count actionEnd store
                pure ((actionStart, config) :: entries, store)

/-- `parseXML` on a zeroed driver. -/
def parseXML (xml : List UInt8) : Except Fault (List (List UInt8 × Config) × Store) :=
  parseFrom maxActions xml ⟨fun _ ↦ 0, 0⟩

/-! ## The lines -/

/-- Where the actions start that are parsed. -/
def starts : ℕ → List UInt8 → List (List UInt8)
  | 0, _ => []
  | count + 1, text =>
      match strstr actionMark text with
      | none => []
      | some actionStart =>
          match strchr 10 actionStart with
          | none => []
          | some actionEnd =>
              if actionSize ≤ (lineOf actionStart).length then []
              else actionStart :: starts count actionEnd

/-- The actions are parsed one after the other. -/
def parseLines :
    List (List UInt8) → Store → Except Fault (List (List UInt8 × Config) × Store)
  | [], store => pure ([], store)
  | start :: rest, store => do
      let (config, store) ← parseAction store (lineOf start)
      let (entries, store) ← parseLines rest store
      pure ((start, config) :: entries, store)

/-- Which lines are parsed does not depend on what they come to. -/
theorem parseFrom_eq (count : ℕ) (text : List UInt8) (store : Store) :
    parseFrom count text store = parseLines (starts count text) store := by
  induction count generalizing text store with
  | zero => rfl
  | succ count ih =>
      rw [parseFrom, starts]
      cases strstr actionMark text with
      | none => rfl
      | some actionStart =>
          dsimp only
          cases strchr 10 actionStart with
          | none => rfl
          | some actionEnd =>
              dsimp only
              split_ifs with hsize
              · rfl
              · rw [parseLines]
                simp only [ih]

theorem parseXML_eq (xml : List UInt8) :
    parseXML xml = parseLines (starts maxActions xml) ⟨fun _ ↦ 0, 0⟩ :=
  parseFrom_eq maxActions xml _

/-- What has been evaluated of a list that is parsed. -/
theorem exists_of_parsed {β : Type*} {xml : List UInt8}
    {f : List (List UInt8 × Config) × Store → β} {b : β}
    (h : (parseXML xml).toOption.map f = some b) :
    ∃ entries store, parseXML xml = .ok (entries, store) ∧ f (entries, store) = b := by
  cases hparse : parseXML xml with
  | error fault =>
      rw [hparse] at h
      exact nomatch h
  | ok result =>
      rw [hparse] at h
      exact ⟨result.1, result.2, rfl, Option.some.inj h⟩

/-! ## One action -/

/-- The bytes behind the first `>` of an action. -/
def dataBytes (config : Config) (line : List UInt8) : List UInt8 :=
  match dataStr line with
  | none => []
  | some data => (dataTokens config data).map hexByte

theorem dataStr_eq_none_iff (line : List UInt8) : dataStr line = none ↔ 62 ∉ line := by
  rw [dataStr, Option.map_eq_none_iff, strchr]
  split_ifs with hmark
  · exact iff_of_false not_false (not_not_intro hmark)
  · exact iff_of_true rfl hmark

/-- The header leaves the entry without data. -/
theorem parseHeader_paConfigData {line : List UInt8} {config : Config}
    (hheader : parseHeader line = .ok config) : config.paConfigData = none := by
  rw [parseHeader] at hheader
  generalize sscanf line actionFormat = values at hheader
  split_ifs at hheader
  all_goals rw [← Except.ok.inj hheader]; rfl

/-- The header fails by a string that is too long. -/
theorem parseHeader_error {line : List UInt8} {fault : Fault}
    (hheader : parseHeader line = .error fault) : fault = .overrun := by
  rw [parseHeader] at hheader
  generalize sscanf line actionFormat = values at hheader
  split_ifs at hheader
  exact (Except.error.inj hheader).symm

section Action

variable {store : Store} {line : List UInt8} {config : Config}

theorem parseAction_error {fault : Fault} (hheader : parseHeader line = .error fault) :
    parseAction store line = .error fault := by
  rw [parseAction, hheader]
  rfl

theorem parseAction_dataless (hheader : parseHeader line = .ok config)
    (hdata : ¬ config.HasData) : parseAction store line = .ok (config, store) := by
  rw [parseAction, hheader]
  exact if_neg hdata

theorem parseAction_limit (hheader : parseHeader line = .ok config) (hdata : config.HasData)
    (hlimit : maxConfigData ≤ store.writeOffset + config.nDataCount) :
    parseAction store line = .ok (config, store) := by
  rw [parseAction, hheader]
  exact (if_pos hdata).trans (if_pos hlimit)

theorem parseAction_oops (hheader : parseHeader line = .ok config) (hdata : config.HasData)
    (hlimit : ¬ maxConfigData ≤ store.writeOffset + config.nDataCount) (hmark : 62 ∉ line) :
    parseAction store line = .error .oops := by
  rw [parseAction, hheader]
  refine (if_pos hdata).trans ((if_neg hlimit).trans ?_)
  rw [(dataStr_eq_none_iff line).2 hmark]
  rfl

theorem parseAction_overrun (hheader : parseHeader line = .ok config) (hdata : config.HasData)
    (hlimit : ¬ maxConfigData ≤ store.writeOffset + config.nDataCount) (hmark : 62 ∈ line)
    (hover : maxConfigData < store.writeOffset + (dataBytes config line).length) :
    parseAction store line = .error .overrun := by
  rw [parseAction, hheader]
  refine (if_pos hdata).trans ((if_neg hlimit).trans ?_)
  cases hstr : dataStr line with
  | none => exact absurd hmark ((dataStr_eq_none_iff line).1 hstr)
  | some data =>
      rw [dataBytes, hstr] at hover
      exact if_pos hover

theorem parseAction_stored (hheader : parseHeader line = .ok config) (hdata : config.HasData)
    (hlimit : ¬ maxConfigData ≤ store.writeOffset + config.nDataCount) (hmark : 62 ∈ line)
    (hover : ¬ maxConfigData < store.writeOffset + (dataBytes config line).length) :
    parseAction store line =
      .ok
        ({ config with
            paConfigData := some store.writeOffset
            nDataCount := (dataBytes config line).length },
          store.put (dataBytes config line)) := by
  have hcount : (dataBytes config line).length % 2 ^ 16 = (dataBytes config line).length := by
    apply Nat.mod_eq_of_lt
    rw [maxConfigData, maxActions] at hover
    omega
  rw [parseAction, hheader]
  refine (if_pos hdata).trans ((if_neg hlimit).trans ?_)
  cases hstr : dataStr line with
  | none => exact absurd hmark ((dataStr_eq_none_iff line).1 hstr)
  | some data =>
      rw [dataBytes, hstr] at hover hcount ⊢
      refine (if_neg hover).trans ?_
      simp only [hcount]
      rfl

end Action

end Vsys.A2b
