/-
Character classes: blanks and decimal digits, of any script.

A class is a set of code points, kept as closed intervals, of Unicode 14.
The digits of a script stand in a row from zero to nine, so a digit's
value is its distance from the start of its row, modulo ten (a few rows
hold several alphabets of digits one after the other).
-/

namespace Stencil.Text

/-- A set of code points, as the closed intervals it is made of. -/
abbrev Ranges := List (Nat × Nat)

/-- The interval that holds a code point. -/
def Ranges.find? (table : Ranges) (n : Nat) : Option (Nat × Nat) :=
  List.find? (fun r => r.1 ≤ n && n ≤ r.2) table

/-- Whether a code point is in the set. -/
def Ranges.contains (table : Ranges) (n : Nat) : Bool :=
  table.any fun r => r.1 ≤ n && n ≤ r.2

-- ============================================================= blanks

/-- The blank characters. -/
def blankRanges : Ranges :=
  [ (0x9, 0xd), (0x1c, 0x20), (0x85, 0x85), (0xa0, 0xa0), (0x1680, 0x1680),
    (0x2000, 0x200a), (0x2028, 0x2029), (0x202f, 0x202f), (0x205f, 0x205f),
    (0x3000, 0x3000) ]

/-- Whether a character is blank. -/
def isBlank (c : Char) : Bool :=
  let n := c.toNat
  if n < 0x80 then
    (0x09 ≤ n && n ≤ 0x0d) || (0x1c ≤ n && n ≤ 0x20)
  else
    blankRanges.contains n

/-- A text without the blanks before it. -/
def trimLeft (cs : List Char) : List Char := cs.dropWhile isBlank

/-- A text without the blanks after it. -/
def trimRight (cs : List Char) : List Char :=
  (cs.reverse.dropWhile isBlank).reverse

/-- A text without the blanks around it. -/
def trim (cs : List Char) : List Char := trimRight (trimLeft cs)

/-- Whether a text is made of blanks, at least one. -/
def isBlankText (cs : List Char) : Bool := !cs.isEmpty && cs.all isBlank

theorem length_trimLeft_le (cs : List Char) :
    (trimLeft cs).length ≤ cs.length :=
  (List.dropWhile_sublist _).length_le

theorem length_trimRight_le (cs : List Char) :
    (trimRight cs).length ≤ cs.length := by
  simpa [trimRight] using
    (List.dropWhile_sublist (l := cs.reverse) isBlank).length_le

theorem length_trim_le (cs : List Char) : (trim cs).length ≤ cs.length :=
  Nat.le_trans (length_trimRight_le _) (length_trimLeft_le _)

/-- A trimmed text stands in the text. -/
theorem infix_trim (cs : List Char) : trim cs <:+: cs := by
  have hright : trimRight (trimLeft cs) <+: trimLeft cs := by
    rw [trimRight, ← List.reverse_suffix, List.reverse_reverse]
    exact List.dropWhile_suffix _
  exact hright.isInfix.trans (List.dropWhile_suffix _).isInfix

-- ============================================================= digits

/-- The rows of decimal digits. Each starts with a zero. -/
def digitRows : Ranges :=
  [ (0x30, 0x39), (0x660, 0x669), (0x6f0, 0x6f9), (0x7c0, 0x7c9),
    (0x966, 0x96f), (0x9e6, 0x9ef), (0xa66, 0xa6f), (0xae6, 0xaef),
    (0xb66, 0xb6f), (0xbe6, 0xbef), (0xc66, 0xc6f), (0xce6, 0xcef),
    (0xd66, 0xd6f), (0xde6, 0xdef), (0xe50, 0xe59), (0xed0, 0xed9),
    (0xf20, 0xf29), (0x1040, 0x1049), (0x1090, 0x1099), (0x17e0, 0x17e9),
    (0x1810, 0x1819), (0x1946, 0x194f), (0x19d0, 0x19d9), (0x1a80, 0x1a89),
    (0x1a90, 0x1a99), (0x1b50, 0x1b59), (0x1bb0, 0x1bb9), (0x1c40, 0x1c49),
    (0x1c50, 0x1c59), (0xa620, 0xa629), (0xa8d0, 0xa8d9), (0xa900, 0xa909),
    (0xa9d0, 0xa9d9), (0xa9f0, 0xa9f9), (0xaa50, 0xaa59), (0xabf0, 0xabf9),
    (0xff10, 0xff19), (0x104a0, 0x104a9), (0x10d30, 0x10d39),
    (0x11066, 0x1106f), (0x110f0, 0x110f9), (0x11136, 0x1113f),
    (0x111d0, 0x111d9), (0x112f0, 0x112f9), (0x11450, 0x11459),
    (0x114d0, 0x114d9), (0x11650, 0x11659), (0x116c0, 0x116c9),
    (0x11730, 0x11739), (0x118e0, 0x118e9), (0x11950, 0x11959),
    (0x11c50, 0x11c59), (0x11d50, 0x11d59), (0x11da0, 0x11da9),
    (0x16a60, 0x16a69), (0x16ac0, 0x16ac9), (0x16b50, 0x16b59),
    (0x1d7ce, 0x1d7ff), (0x1e140, 0x1e149), (0x1e2f0, 0x1e2f9),
    (0x1e950, 0x1e959), (0x1fbf0, 0x1fbf9) ]

/-- The value of a decimal digit, of whatever script. -/
def digitValue? (c : Char) : Option Nat :=
  let n := c.toNat
  if n < 0x80 then
    if 0x30 ≤ n && n ≤ 0x39 then some (n - 0x30) else none
  else
    (digitRows.find? n).map fun row => (n - row.1) % 10

/-- Whether a character is a decimal digit. -/
def isDigit (c : Char) : Bool := (digitValue? c).isSome

/-- The number that a row of digits spells; other characters count as
zeros, and no reader lets one through. -/
def digitsValue (cs : List Char) : Nat :=
  cs.foldl (fun n c => 10 * n + (digitValue? c).getD 0) 0

end Stencil.Text
