import Mathlib.Data.List.DropRight
import Vsys.Felib.Dictionary
import Vsys.Io.TextFile

/-!
# Configuration files

`felib/iniparser.cpp` reads a file of sections and of lines `key = value` into a dictionary, and
writes a dictionary as such a file.  A section is a key without a value, a value has its section and
a colon before its key.
-/

namespace Vsys.Felib

open Vsys.Io

/-- `ASCIILINESZ`. -/
def asciiLineSize : ℕ := 1024

/-- `isspace`. -/
def isspace (c : Char) : Bool := c = ' ' || (9 ≤ c.toNat && c.toNat ≤ 13)

/-- `strlwc`. -/
def strlwc (s : List Char) : List Char := (s.take asciiLineSize).map Char.toLower

/-- `strstrip`. -/
def strstrip (s : List Char) : List Char := (s.dropWhile isspace).rdropWhile isspace

/-! ## Reading a line -/

/-- `line_status`, with what a line says. -/
inductive Line
  | empty
  | comment
  | section (name : List Char)
  | value (key val : List Char)
  | error
  deriving DecidableEq

/-- `%[^=]`: what it stores, and what it leaves. -/
def scanKey (line : List Char) : Option (List Char × List Char) :=
  let key := line.takeWhile (· ≠ '=')
  if key = [] then none else some (key, line.dropWhile (· ≠ '='))

/-- The ` = ` that follows in a format. -/
def scanEquals (rest : List Char) : Option (List Char) :=
  match rest.dropWhile isspace with
  | '=' :: rest => some (rest.dropWhile isspace)
  | _ => none

/-- `%[^=] = "%[^"]"`, or with the other quotes. -/
def scanQuoted (quote : Char) (line : List Char) : Option (List Char × List Char) :=
  match scanKey line with
  | none => none
  | some (key, rest) =>
      match scanEquals rest with
      | some (c :: rest) =>
          let val := rest.takeWhile (· ≠ quote)
          if c = quote ∧ val ≠ [] then some (key, val) else none
      | _ => none

/-- `%[^=] = %[^;#]`. -/
def scanPlain (line : List Char) : Option (List Char × List Char) :=
  match scanKey line with
  | none => none
  | some (key, rest) =>
      match scanEquals rest with
      | some rest =>
          let val := rest.takeWhile fun c ↦ c ≠ ';' && c ≠ '#'
          if val ≠ [] then some (key, val) else none
      | none => none

/-- `%[^=] = %[;#]` and `%[^=] %[=]`: the key of a line without a value. -/
def scanBare (line : List Char) : Option (List Char) :=
  match scanKey line with
  | none => none
  | some (key, rest) =>
      let marked := match scanEquals rest with
        | some rest => rest.head? == some ';' || rest.head? == some '#'
        | none => false
      if marked || (rest.dropWhile isspace).head? == some '=' then some key else none

/-- `iniparser_line`; `current` is the section, which a line without a name leaves. -/
def iniparserLine (current inputLine : List Char) : Line :=
  let line := strstrip inputLine
  if line = [] then .empty
  else if line.head? = some '#' then .comment
  else if line.head? = some '[' ∧ line.getLast? = some ']' then
    let name := line.tail.takeWhile (· ≠ ']')
    .section (strlwc (strstrip (if name = [] then current else name)))
  else
    match (scanQuoted '"' line).or ((scanQuoted '\'' line).or (scanPlain line)) with
    | some (key, val) =>
        let val := strstrip val
        .value (strlwc (strstrip key)) (if val = ['"', '"'] ∨ val = ['\'', '\''] then [] else val)
    | none =>
        match scanBare line with
        | some key => .value (strlwc (strstrip key)) []
        | none => .error

/-! ## Reading a file -/

/-- What `iniparser_load` keeps between two reads: `held` is what a line with a backslash has left
at the beginning of the buffer. -/
structure LoadState where
  dict : Dictionary
  current : List Char
  held : List Char
  errs : ℕ

/-- The `switch` of the loop.  `dictionary_set` gives zero, and so a good line forgets the errors
before it.  The buffer for the key is taken to be large enough. -/
def LoadState.read (s : LoadState) (line : List Char) : LoadState :=
  match iniparserLine s.current line with
  | .empty => { s with held := [] }
  | .comment => { s with held := [] }
  | .section name => { dict := s.dict.set name none, current := name, held := [], errs := 0 }
  | .value key val =>
      { s with dict := s.dict.set (s.current ++ ':' :: key) (some val), held := [], errs := 0 }
  | .error => { s with held := [], errs := s.errs + 1 }

/-- A round of the loop; without a state the function has returned.  Before a line of blanks alone
the code looks for a backslash in front of the buffer, and is taken to find none. -/
def iniRound (s : LoadState) (piece : List Char) : Option LoadState :=
  let line := cString (s.held ++ piece)
  if line.length ≤ 1 then some s
  else if line.getLast? ≠ some '\n' then none
  else
    let line := line.rdropWhile isspace
    if line.getLast? = some '\\' then some { s with held := line.dropLast }
    else some (s.read line)

/-- At most `rounds` rounds. -/
def iniRounds : ℕ → LoadState → List Char → Option LoadState
  | 0, s, _ => some s
  | rounds + 1, s, file =>
      let piece := fgets (asciiLineSize - s.held.length - 1) file
      if piece.1 = [] then some s
      else (iniRound s piece.1).bind fun s ↦ iniRounds rounds s piece.2.1

/-- The whole loop; every round takes a character. -/
def iniReads (s : LoadState) (file : List Char) : Option LoadState :=
  iniRounds (file.length + 1) s file

/-- What the loop starts from. -/
def LoadState.initial : LoadState :=
  { dict := .new 0, current := [], held := [], errs := 0 }

/-- `iniparser_load`, of a file that can be opened. -/
def iniparserLoad (file : List Char) : Option Dictionary :=
  match iniReads .initial file with
  | none => none
  | some s => if s.errs = 0 then some s.dict else none

/-! ## Writing a file -/

/-- The slots that are not free, as the loops meet them. -/
def Dictionary.items (d : Dictionary) : List (List Char × Option (List Char)) :=
  d.entries.filterMap id

/-- The keys without a colon. -/
def Dictionary.sections (d : Dictionary) : List (List Char) :=
  (d.items.map Prod.fst).filter (':' ∉ ·)

/-- `iniparser_getnsec`. -/
def iniparserGetnsec (d : Dictionary) : ℕ := d.sections.length

/-- `iniparser_getsecname`. -/
def iniparserGetsecname (d : Dictionary) (n : ℕ) : Option (List Char) := d.sections[n]?

/-- `%-30s`. -/
def leftAligned (s : List Char) : List Char := s ++ List.replicate (30 - s.length) ' '

/-- The line of a key and a value. -/
def keyLine (key val : List Char) : List Char := key ++ " = ".toList ++ val

/-- The lines of a section; a key is written without the section and the colon. -/
def sectionLines (d : Dictionary) (name : List Char) : List (List Char) :=
  [] :: ('[' :: name ++ [']']) ::
    (d.items.filter fun item ↦ (name ++ [':']).isPrefixOf item.1).map fun item ↦
      keyLine (leftAligned (item.1.drop (name.length + 1))) (item.2.getD [])

/-- The lines of `iniparser_dump_ini`.  Without sections the values are printed as they are; `NULL`
is printed as `printf` does. -/
def dumpLines (d : Dictionary) : List (List Char) :=
  if iniparserGetnsec d < 1 then
    d.items.map fun item ↦ keyLine item.1 (item.2.getD "(null)".toList)
  else
    (List.range (iniparserGetnsec d)).flatMap (fun i ↦
      match iniparserGetsecname d i with
      | some name => sectionLines d name
      | none => []) ++ [[]]

/-- `iniparser_dump_ini`. -/
def iniparserDumpIni (d : Dictionary) : List Char := (dumpLines d).flatMap (· ++ ['\n'])

end Vsys.Felib
