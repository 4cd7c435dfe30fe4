/-
The lenient grammar of operands.

An operand is a quoted text, an integer, a range of two operands without
blanks, a decimal, or a literal word. Everything else is a path, of which
only the words and the bracket groups matter.
-/
import Stencil.Datum.Text
import Stencil.Markup.Segment
import Stencil.Value.Integer

namespace Stencil

open Text

namespace Expr

-- =========================================================== literals

/-- The inside of a text in quotes of one kind. -/
def unquote? : List Char → Option (List Char)
  | q :: rest =>
    if (q == '\'' || q == '"') && rest.getLast? == some q then
      some rest.dropLast
    else none
  | [] => none

/-- A text without the minus in front of it. -/
def dropMinus : List Char → List Char
  | '-' :: rest => rest
  | cs => cs

/-- Whether a text is digits, perhaps after a minus. -/
def isInteger (cs : List Char) : Bool := Numeral.isDigits (dropMinus cs)

/-- The integer that digits spell, perhaps after a minus. -/
def readInteger (cs : List Char) : Except Failure Expr :=
  match Numeral.integer? cs with
  | some n => .ok (.const (.int n))
  | none => .error (.unreadableInteger (String.ofList cs))

/-- The float that digits, a point and digits spell, perhaps after a
minus. -/
def decimal? (cs : List Char) : Option Value :=
  let whole := (dropMinus cs).takeWhile isDigit
  match (dropMinus cs).dropWhile isDigit with
  | '.' :: part =>
    if Numeral.isDigits whole && Numeral.isDigits part then
      (Numeral.float? cs).map .float
    else none
  | _ => none

/-- The value of a decimal or of a literal word. -/
def plain? (cs : List Char) : Option Value :=
  match decimal? cs with
  | some v => some v
  | none => literal? (String.ofList cs)

-- ============================================================= ranges

/-- The second bound of a range, given all that follows the dots: what is
left without the blanks around it, which must be something and must not
hold a blank. -/
def lastBound? (cs : List Char) : Option (List Char) :=
  let bound := trim cs
  if bound.isEmpty || bound.any isBlank then none else some bound

/-- The bounds of a range. The first one is the shortest start of the
unbroken text in front that leaves two dots and a second bound; blanks
may stand before the dots only if it is all of that text. -/
def splitBounds? (after : List Char) :
    List Char → Option (List Char × List Char)
  | [] =>
    match trimLeft after with
    | '.' :: '.' :: rest => (lastBound? rest).map ([], ·)
    | _ => none
  | c :: rest =>
    let here := match c, rest with
      | '.', '.' :: rest => lastBound? (rest ++ after)
      | _, _ => none
    match here with
    | some last => some ([], last)
    | none => (splitBounds? after rest).map fun r => (c :: r.1, r.2)

/-- The bounds of the range that stands in parentheses. -/
def boundsWithin? (cs : List Char) : Option (List Char × List Char) :=
  let body := trimLeft cs
  let unbroken := body.takeWhile (!isBlank ·)
  let after := body.dropWhile (!isBlank ·)
  match unbroken with
  | c :: rest => (splitBounds? after rest).map fun r => (c :: r.1, r.2)
  | [] => none

/-- The bounds of a range in parentheses. -/
def bounds? : List Char → Option (List Char × List Char)
  | '(' :: rest =>
    if rest.getLast? == some ')' then boundsWithin? rest.dropLast else none
  | _ => none

theorem length_lastBound?_le {cs last : List Char}
    (h : lastBound? cs = some last) : last.length ≤ cs.length := by
  simp only [lastBound?] at h
  split at h
  · cases h
  · cases h
    exact length_trim_le cs

theorem length_splitBounds?_le {after cs : List Char}
    {r : List Char × List Char} (h : splitBounds? after cs = some r) :
    r.1.length ≤ cs.length ∧ r.2.length ≤ cs.length + after.length := by
  induction cs generalizing r with
  | nil =>
    simp only [splitBounds?] at h
    split at h
    · rename_i rest heq
      obtain ⟨last, hl, rfl⟩ := Option.map_eq_some_iff.1 h
      have h1 := length_lastBound?_le hl
      have h2 := congrArg List.length heq
      have h3 := length_trimLeft_le after
      simp only [List.length_cons, List.length_nil] at *
      omega
    · cases h
  | cons c rest ih =>
    simp only [splitBounds?] at h
    split at h
    · rename_i last hlast
      cases h
      refine ⟨by simp, ?_⟩
      split at hlast
      · have := length_lastBound?_le hlast
        simp only [List.length_append, List.length_cons] at *
        omega
      · cases hlast
    · obtain ⟨r', hr, rfl⟩ := Option.map_eq_some_iff.1 h
      have := ih hr
      simp only [List.length_cons]
      omega

theorem length_boundsWithin?_le {cs : List Char}
    {r : List Char × List Char} (h : boundsWithin? cs = some r) :
    r.1.length ≤ cs.length ∧ r.2.length ≤ cs.length := by
  simp only [boundsWithin?] at h
  have hlen := congrArg List.length
    (List.takeWhile_append_dropWhile (p := (!isBlank ·)) (l := trimLeft cs))
  have hle := length_trimLeft_le cs
  split at h
  · rename_i c rest hrun
    obtain ⟨r', hr, rfl⟩ := Option.map_eq_some_iff.1 h
    have := length_splitBounds?_le hr
    rw [hrun] at hlen
    simp only [List.length_append, List.length_cons] at *
    omega
  · cases h

/-- The bounds of a range are shorter than the range. -/
theorem length_bounds?_lt {cs : List Char} {r : List Char × List Char}
    (h : bounds? cs = some r) :
    r.1.length < cs.length ∧ r.2.length < cs.length := by
  cases cs with
  | nil => simp [bounds?] at h
  | cons c rest =>
    simp only [bounds?] at h
    split at h
    · rename_i rest' heq
      cases heq
      split at h
      · have := length_boundsWithin?_le h
        simp only [List.length_dropLast, List.length_cons] at *
        omega
      · cases h
    · cases h

-- =============================================================== form

/-- The form of an operand: an integer or another value that is written
out, a range of two operands, or a path of segments. -/
inductive Form
  /-- An integer, by its markup. -/
  | integer (digits : List Char)
  /-- Another value written out. -/
  | value (value : Value)
  /-- A range, by the markup of its bounds. -/
  | range (first last : List Char)
  /-- A path, by its segments. -/
  | path (segments : List Segment)

/-- The form of an operand without blanks around it. Everything that is no
value and no range is a path. -/
def Form.ofTrimmed (cs : List Char) : Form :=
  if cs.isEmpty then .value .nil
  else match unquote? cs with
    | some inner => .value (.text (String.ofList inner))
    | none =>
      if isInteger cs then .integer cs
      else match bounds? cs with
        | some (first, last) => .range first last
        | none => match plain? cs with
          | some v => .value v
          | none => .path (Segment.scan cs)

/-- The form of an operand. -/
def Form.of (markup : List Char) : Form := .ofTrimmed (trim markup)

/-- The form of trimmed markup as a range comes from its bounds. -/
theorem bounds?_of_range {cs first last : List Char}
    (h : Form.ofTrimmed cs = .range first last) :
    bounds? cs = some (first, last) := by
  unfold Form.ofTrimmed at h
  split at h
  · cases h
  · split at h
    · cases h
    · split at h
      · cases h
      · split at h
        · cases h
          assumption
        · split at h <;> cases h

/-- The form of trimmed markup as a path holds all its segments. -/
theorem segments_of_path {cs : List Char} {segments : List Segment}
    (h : Form.ofTrimmed cs = .path segments) : segments = Segment.scan cs := by
  unfold Form.ofTrimmed at h
  repeat' split at h
  all_goals cases h
  rfl

/-- The bounds of a range are shorter than its markup. -/
theorem Form.length_bounds_lt {markup first last : List Char}
    (h : Form.of markup = .range first last) :
    first.length < markup.length ∧ last.length < markup.length := by
  have hlt := length_bounds?_lt (bounds?_of_range h)
  have := length_trim_le markup
  dsimp only at hlt
  omega

/-- What stands in the bracket groups of a path is shorter than its
markup. -/
theorem Form.length_group_lt {markup inner : List Char}
    {segments : List Segment} (h : Form.of markup = .path segments)
    (hmem : .group inner ∈ segments) : inner.length < markup.length := by
  rw [segments_of_path h] at hmem
  have := Segment.length_group_lt hmem
  have := length_trim_le markup
  omega

-- ============================================================== parse

/-- A path that goes on with a segment, given the expression of the
segment. A word that names a command hints at it. -/
def stepOf (path : Path) (segment : Segment × Expr) : Path :=
  match segment.1 with
  | .word w =>
    .step path segment.2 (Command.ofWord? (String.ofList w))
  | .group _ => .step path segment.2 none

/-- The path that segments describe, given the expression of each. Without
segments it is the path of no name. -/
def pathOf : List (Segment × Expr) → Path
  | [] => .root (.const .nil)
  | root :: steps => steps.foldl stepOf (.root root.2)

/-- The expression of a segment: its name for a word, and for a bracket
group what stands inside. -/
def ofSegment (inside : List Char → Except Failure Expr) :
    Segment → Except Failure Expr
  | .word w => .ok (.const (.text (String.ofList w)))
  | .group inner => inside inner

/-- The operand that markup spells, the blanks around it left out. It
fails only where an integer has too many digits and where a range has a
bound that is no integer. -/
def parseChars (markup : List Char) : Except Failure Expr :=
  match _h : Form.of markup with
  | .integer digits => readInteger digits
  | .value v => .ok (.const v)
  | .range first last => do
    let first ← parseChars first
    let last ← parseChars last
    Expr.between Value.shown first last
  | .path segments => do
    let exprs ← segments.attach.mapM fun s =>
      match _hs : s.val with
      | .word w => Except.ok (.const (.text (String.ofList w)))
      | .group inner => parseChars inner
    return .path (pathOf (segments.zip exprs))
termination_by markup.length
decreasing_by
  · exact (Form.length_bounds_lt _h).1
  · exact (Form.length_bounds_lt _h).2
  · exact Form.length_group_lt _h (_hs ▸ s.property)

/-- How an operand is read, form by form. -/
theorem parseChars_eq (markup : List Char) :
    parseChars markup =
      match Form.of markup with
      | .integer digits => readInteger digits
      | .value v => .ok (.const v)
      | .range first last => do
        let first ← parseChars first
        let last ← parseChars last
        Expr.between Value.shown first last
      | .path segments => do
        let exprs ← segments.mapM (ofSegment parseChars)
        return .path (pathOf (segments.zip exprs)) := by
  rw [parseChars]
  split
  · next h => rw [h]
  · next h => rw [h]
  · next h => rw [h]
  · next segments h =>
    rw [h]
    dsimp only
    rw [List.mapM_subtype (g := ofSegment parseChars), List.unattach_attach]
    intro s _
    cases s <;> rfl

/-- The operand that markup spells. -/
def parse (markup : String) : Except Failure Expr := parseChars markup.toList

/-- The path that markup spells, whatever it looks like. -/
def parsePath (markup : String) : Except Failure Expr := do
  let segments := Segment.scan markup.toList
  let exprs ← segments.mapM (ofSegment parseChars)
  return .path (pathOf (segments.zip exprs))

end Expr
end Stencil
