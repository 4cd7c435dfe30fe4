/-
Lenient UTF-8: any bytes decode to text. Each maximal stretch that starts
a character and cannot complete one becomes a single replacement
character, and a byte that starts nothing becomes one of its own.
-/

namespace Stencil.Text.Utf8

/-- What the bytes read so far leave open: nothing, or a character whose
next byte lies between `low` and `high`, with `owed` bytes still to come
and `bits` read. -/
inductive State
  | between
  | within (owed : Nat) (bits : Nat) (low high : Nat)
  deriving DecidableEq, Repr

/-- The character that stands for bytes that are none. -/
def replacement : Char := Char.ofNat 0xfffd

/-- Reads the first byte of a character. -/
def lead (b : Nat) : List Char × State :=
  if b < 0x80 then ([Char.ofNat b], .between)
  else if b < 0xc2 then ([replacement], .between)
  else if b < 0xe0 then ([], .within 1 (b - 0xc0) 0x80 0xbf)
  else if b < 0xf0 then
    ([], .within 2 (b - 0xe0)
      (if b == 0xe0 then 0xa0 else 0x80) (if b == 0xed then 0x9f else 0xbf))
  else if b < 0xf5 then
    ([], .within 3 (b - 0xf0)
      (if b == 0xf0 then 0x90 else 0x80) (if b == 0xf4 then 0x8f else 0xbf))
  else ([replacement], .between)

/-- Reads one byte. A byte that cannot go on with the open character
closes it as a replacement and starts afresh. -/
def step : State → Nat → List Char × State
  | .between, b => lead b
  | .within owed bits low high, b =>
    if low ≤ b && b ≤ high then
      let bits := 64 * bits + (b - 0x80)
      if owed ≤ 1 then ([Char.ofNat bits], .between)
      else ([], .within (owed - 1) bits 0x80 0xbf)
    else
      let (out, state) := lead b
      (replacement :: out, state)

/-- The characters of the bytes that follow a state. -/
def decodeFrom : State → List UInt8 → List Char
  | .between, [] => []
  | .within .., [] => [replacement]
  | state, b :: rest =>
    let (out, state) := step state b.toNat
    out ++ decodeFrom state rest

/-- The text that bytes spell. -/
def decode (bytes : List UInt8) : String :=
  String.ofList (decodeFrom .between bytes)

end Stencil.Text.Utf8
