import Vsys.Io.Reads

/-!
# The `sscanf` of the Linux kernel

A format is compiled to directives, and a string is read by them.  The values of the conversions come
in order; reading stops at the first directive that does not match, and at the end of the string no
conversion is tried.  Whitespace in a format stands for any amount of it, and `%*` skips to the next
whitespace in both strings.

Strings are bytes without the terminating zero.
-/

namespace Vsys.Io

/-- `isspace`; the no-break space is one. -/
def isspace (b : UInt8) : Bool := (9 ≤ b.toNat && b.toNat ≤ 13) || b.toNat == 32 || b.toNat == 160

/-- `isdigit`. -/
def isdigit (b : UInt8) : Bool := 48 ≤ b.toNat && b.toNat ≤ 57

/-- `skip_spaces`. -/
def skipSpaces (s : List UInt8) : List UInt8 := s.dropWhile isspace

/-- The digits at the front of a string as a number in base ten. -/
def decimal (s : List UInt8) : ℕ :=
  (s.takeWhile isdigit).foldl (fun n b ↦ 10 * n + (b.toNat - 48)) 0

/-- A piece of a format. -/
inductive Directive
  | space
  | lit (b : UInt8)
  /-- `%*`. -/
  | skip
  /-- `%s`. -/
  | str
  /-- `%u`, `%d` for a type of so many bits. -/
  | int (signed : Bool) (bits : ℕ)
  /-- What the kernel does not support. -/
  | stop
  deriving DecidableEq, Repr

/-- The directives of a format; `skipping` is inside of a conversion that is skipped. -/
def directives (skipping : Bool) : List Char → List Directive
  | [] => []
  | '%' :: '*' :: format => .skip :: directives true format
  | '%' :: 's' :: format => .str :: directives false format
  | '%' :: 'u' :: format => .int false 32 :: directives false format
  | '%' :: 'd' :: format => .int true 32 :: directives false format
  | '%' :: 'h' :: 'u' :: format => .int false 16 :: directives false format
  | '%' :: 'h' :: 'd' :: format => .int true 16 :: directives false format
  | '%' :: 'h' :: 'h' :: 'u' :: format => .int false 8 :: directives false format
  | '%' :: 'h' :: 'h' :: 'd' :: format => .int true 8 :: directives false format
  | '%' :: _ => [.stop]
  | c :: format =>
      if isspace (UInt8.ofNat c.toNat) then .space :: directives false format
      else if skipping then if c = '[' then [.stop] else directives true format
      else .lit (UInt8.ofNat c.toNat) :: directives false format

/-- What a conversion stores. -/
inductive Value
  | str (text : List UInt8)
  | int (n : ℤ)
  deriving DecidableEq, Repr

/-- What a number becomes in a type. -/
def stored (signed : Bool) (bits : ℕ) (n : ℤ) : ℤ :=
  if signed then n.bmod (2 ^ bits) else n % 2 ^ bits

/-- A number at the front of a string, and what follows it. -/
def scanInt (signed : Bool) (s : List UInt8) : Option (ℤ × List UInt8) :=
  let negative := signed && s.head? == some 45
  let digits := if negative then s.tail else s
  if digits.head?.any isdigit then
    some (if negative then -(decimal digits : ℤ) else decimal digits, digits.dropWhile isdigit)
  else none

/-- `vsscanf`: the values stored. -/
def scan : List Directive → List UInt8 → List Value
  | [], _ => []
  | .space :: format, s => scan format (skipSpaces s)
  | .lit b :: format, s => if s.head? = some b then scan format s.tail else []
  | .skip :: format, s => if s = [] then [] else scan format (s.dropWhile fun b ↦ !isspace b)
  | .str :: format, s =>
      if s = [] then []
      else
        .str ((skipSpaces s).takeWhile fun b ↦ !isspace b) ::
          scan format ((skipSpaces s).dropWhile fun b ↦ !isspace b)
  | .int signed bits :: format, s =>
      if s = [] then []
      else
        match scanInt signed (skipSpaces s) with
        | none => []
        | some (n, rest) => .int (stored signed bits n) :: scan format rest
  | .stop :: _, _ => []

/-- `sscanf`. -/
def sscanf (s : List UInt8) (format : String) : List Value :=
  scan (directives false format.toList) s

/-- The number with index `k` among the values, or what was there before. -/
def numberAt (values : List Value) (k : ℕ) (before : ℤ) : ℤ :=
  match values[k]? with
  | some (.int n) => n
  | _ => before

/-- The string with index `k` among the values. -/
def textAt (values : List Value) (k : ℕ) : List UInt8 :=
  match values[k]? with
  | some (.str text) => text
  | _ => []

example : sscanf (ascii "Slave-3  70000x") "Slave%hd %hd" = [.int (-3), .int 4464] := by
  decide +kernel

end Vsys.Io
