/-
Quoted text and quoted bytes, as error messages, conditions and
containers show them.

A text stands between single quotes, or between double quotes when it
holds a single quote and no double one. The backslash, the quote in use
and everything unprintable are written as escapes.
-/
import Stencil.Text.Printable

namespace Stencil.Text

-- ======================================================== hexadecimal

/-- One hexadecimal digit. -/
def hexDigit (n : Nat) : Char :=
  if n < 10 then Char.ofNat (0x30 + n) else Char.ofNat (0x57 + n)

/-- A number in hexadecimal, in exactly `width` digits: the lowest ones. -/
def hexDigits : (width : Nat) → Nat → List Char
  | 0, _ => []
  | width + 1, n => hexDigits width (n / 16) ++ [hexDigit (n % 16)]

-- ============================================================= quotes

/-- The quote a text is put between. -/
def quoteFor (cs : List Char) : Char :=
  if cs.contains '\'' && !cs.contains '"' then '"' else '\''

/-- How one character reads between the given quotes. -/
def escape (quote c : Char) : List Char :=
  if c == quote || c == '\\' then ['\\', c]
  else if c == '\n' then ['\\', 'n']
  else if c == '\r' then ['\\', 'r']
  else if c == '\t' then ['\\', 't']
  else if isPrintable c then [c]
  else if c.toNat < 0x100 then '\\' :: 'x' :: hexDigits 2 c.toNat
  else if c.toNat < 0x10000 then '\\' :: 'u' :: hexDigits 4 c.toNat
  else '\\' :: 'U' :: hexDigits 8 c.toNat

/-- A text in quotes. -/
def quoted (cs : List Char) : List Char :=
  let quote := quoteFor cs
  quote :: cs.flatMap (escape quote) ++ [quote]

/-- A text in quotes. -/
def quote (s : String) : String := String.ofList (quoted s.toList)

-- ============================================================== bytes

/-- How one byte reads between the given quotes: the printable ASCII
characters as they are, the others as escapes. -/
def escapeByte (quote : Char) (b : UInt8) : List Char :=
  let c := Char.ofNat b.toNat
  if b.toNat < 0x80 then escape quote c
  else '\\' :: 'x' :: hexDigits 2 b.toNat

/-- Bytes in quotes, with the letter that tells them from text. -/
def quoteBytes (bytes : List UInt8) : String :=
  let quote := quoteFor (bytes.map fun b => Char.ofNat b.toNat)
  String.ofList ('b' :: quote :: bytes.flatMap (escapeByte quote) ++ [quote])

end Stencil.Text
