/-
Abridged text: a long text keeps its two ends, with dots between them.
-/

namespace Stencil.Text

/-- The place in a text of the given length that an index means: counted
from the start, or from the end when it is negative, and never outside. -/
def place (length : Nat) (index : Int) : Nat :=
  if index < 0 then (length + index).toNat else min index.toNat length

/-- A text of at most `limit` characters is kept. A longer one keeps its
first and last `limit / 2`, rounded down. The two cuts are indices, so
with a limit of zero or one nothing is kept in front and, as there is no
index behind the last character, everything behind the dots. -/
def abridge (limit : Int) (cs : List Char) : List Char :=
  if cs.length ≤ limit then cs
  else
    let half := limit.fdiv 2
    cs.take (place cs.length half) ++ ['.', '.', '.'] ++
      cs.drop (place cs.length (-half))

/-- The length at which a warning abridges the markup it quotes. -/
def markupLimit : Int := 64

/-- A text cut down to the given length, the dots not counted. -/
def shortenTo (limit : Int) (s : String) : String :=
  String.ofList (abridge limit s.toList)

/-- A text cut down to what a warning quotes. -/
def shorten (s : String) : String := shortenTo markupLimit s

end Stencil.Text
