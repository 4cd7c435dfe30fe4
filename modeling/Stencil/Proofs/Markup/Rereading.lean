/-
The lenient grammar reads what the strict grammar has derived.

An operand that is written as the strict grammar spells it means the same
to the lenient one, whatever gaps stand in it and around it. The lenient
reader asks its questions in a fixed order, whether the text is quoted,
an integer, a range, a decimal, a literal word, and only then a path, so
each form comes with the lemmas that answer the questions before it. A
path is read segment by segment, where everything that is neither a word
nor a group is passed over.

The induction is on the writing, for operands and for the steps of paths
together: `Means` says what is to be shown of each.
-/
import Stencil.Proofs.Markup.Writing
import Stencil.Proofs.Number.Numeral

namespace Stencil

open Text

-- ============================================================== edges

/-- A text that starts with no blank. -/
def StartsSolid (cs : List Char) : Prop :=
  ∀ c ∈ cs.head?, isBlank c = false

/-- A text that ends with no blank, and with no dot. -/
def EndsSolid (cs : List Char) : Prop :=
  ∀ c ∈ cs.getLast?, isBlank c = false ∧ c ≠ '.'

/-- What ends the second of two texts, or the first if the second is
empty, ends both. -/
theorem EndsSolid.append {cs ds : List Char} (hc : EndsSolid cs)
    (hd : EndsSolid ds) : EndsSolid (cs ++ ds) := by
  intro c h
  rw [List.getLast?_append] at h
  cases hlast : ds.getLast? with
  | none =>
    rw [hlast] at h
    exact hc c h
  | some d =>
    rw [hlast] at h
    exact hd c (hlast ▸ h)

/-- What ends the second of two texts, if it is not empty, ends both. -/
theorem EndsSolid.append_right (cs : List Char) {ds : List Char}
    (hne : ds ≠ []) (hd : EndsSolid ds) : EndsSolid (cs ++ ds) := by
  intro c h
  rw [List.getLast?_append, List.getLast?_eq_some_getLast hne] at h
  exact hd c (List.getLast?_eq_some_getLast hne ▸ h)

/-- What follows the first character ends like the whole text. -/
theorem EndsSolid.tail {c : Char} {cs : List Char}
    (h : EndsSolid (c :: cs)) : EndsSolid cs := by
  intro d hd
  refine h d ?_
  cases cs with
  | nil => cases hd
  | cons _ _ => rwa [List.getLast?_cons_cons]

/-- A text that ends in a character that is no blank and no dot. -/
theorem endsSolid_snoc (cs : List Char) {c : Char}
    (hc : isBlank c = false ∧ c ≠ '.') : EndsSolid (cs ++ [c]) := by
  intro d hd
  rw [List.getLast?_concat] at hd
  obtain rfl : c = d := Option.some.inj hd
  exact hc

/-- Solid text starts with no blank. -/
theorem IsSolid.startsSolid {cs : List Char} (h : IsSolid cs) :
    StartsSolid cs :=
  fun c hc => (h c (List.mem_of_mem_head? hc)).2.1

/-- A row of dashed-word characters ends with no blank and no dot. -/
theorem endsSolid_of_all {cs : List Char}
    (h : cs.all isDashedWord = true) : EndsSolid cs := by
  intro c hc
  have hword := List.all_eq_true.1 h c (List.mem_of_getLast? hc)
  refine ⟨isBlank_of_isDashedWord hword, ?_⟩
  rintro rfl
  exact absurd hword (by decide)

/-- A row of digits ends with no blank and no dot. -/
theorem endsSolid_of_isDigits {cs : List Char}
    (h : Numeral.isDigits cs = true) : cs ≠ [] ∧ EndsSolid cs := by
  simp only [Numeral.isDigits, Bool.and_eq_true, Bool.not_eq_true',
    List.isEmpty_eq_false_iff, List.all_eq_true] at h
  exact ⟨h.1, endsSolid_of_all (List.all_eq_true.2
    fun c hc => isDashedWord_of_isDigit (h.2 c hc))⟩

/-- A name is not empty and ends with no blank and no dot. -/
theorem IsName.endsSolid {cs : List Char} (h : IsName cs) :
    cs ≠ [] ∧ EndsSolid cs := by
  obtain ⟨c, word, mark, rfl, hc, -, hword, hmark⟩ := h
  refine ⟨List.cons_ne_nil _ _, EndsSolid.append (endsSolid_of_all ?_) ?_⟩
  · simp only [List.all_cons, Bool.and_eq_true]
    exact ⟨by simp [isDashedWord, hc], hword⟩
  · rcases hmark with rfl | rfl
    · intro c h
      cases h
    · exact endsSolid_snoc [] (by decide)

/-- A numeral is not empty and ends with no blank and no dot. -/
theorem IsNumeral.endsSolid {cs : List Char} (h : IsNumeral cs) :
    cs ≠ [] ∧ EndsSolid cs := by
  obtain ⟨minus, whole, part, rfl, -, hwhole, hpart⟩ := h
  obtain ⟨hne, hend⟩ := endsSolid_of_isDigits hwhole
  refine ⟨by simp [hne], ?_⟩
  rcases hpart with rfl | ⟨digits, rfl, hdigits⟩
  · rw [List.append_nil]
    exact hend.append_right _ hne
  · obtain ⟨hne', hend'⟩ := endsSolid_of_isDigits hdigits
    rw [List.append_cons]
    exact hend'.append_right _ hne'

/-- Blanks in front of a text are dropped. -/
private theorem dropWhile_blanks {before cs : List Char}
    (hbefore : before.all isBlank = true) (hcs : StartsSolid cs) :
    (before ++ cs).dropWhile isBlank = cs := by
  rw [List.dropWhile_append_of_pos (List.all_eq_true.1 hbefore)]
  cases cs with
  | nil => rfl
  | cons c cs =>
    rw [List.dropWhile_cons_of_neg]
    simp [hcs c rfl]

/-- The blanks around a text that has none at its edges are trimmed
off. -/
theorem trim_of_edges {before cs after : List Char}
    (hbefore : before.all isBlank = true) (hne : cs ≠ [])
    (hstart : StartsSolid cs) (hend : EndsSolid cs)
    (hafter : after.all isBlank = true) :
    trim (before ++ cs ++ after) = cs := by
  obtain ⟨c, rest, rfl⟩ := List.exists_cons_of_ne_nil hne
  have hleft : trimLeft (before ++ (c :: rest) ++ after) =
      (c :: rest) ++ after := by
    rw [trimLeft, List.append_assoc]
    exact dropWhile_blanks hbefore fun d hd => hstart d hd
  have hright : (after.reverse ++ (c :: rest).reverse).dropWhile isBlank =
      (c :: rest).reverse := by
    refine dropWhile_blanks (by rwa [List.all_reverse])
      fun d hd => (hend d ?_).1
    rwa [List.head?_reverse] at hd
  rw [trim, hleft, trimRight, List.reverse_append, hright,
    List.reverse_reverse]

/-- What is written as an operand has no blanks at its edges, and neither
has the end of the steps of a path. -/
theorem Written.edges {loose : Bool} {phrase : Phrase} {cs : List Char}
    (h : Written loose phrase cs) :
    EndsSolid cs ∧ ∀ e, phrase = .operand e → cs ≠ [] ∧ StartsSolid cs := by
  have hfirst : ∀ {c : Char} {rest : List Char}, isBlank c = false →
      c :: rest ≠ [] ∧ StartsSolid (c :: rest) := by
    intro c rest hc
    refine ⟨List.cons_ne_nil _ _, fun d hd => ?_⟩
    obtain rfl : c = d := Option.some.inj hd
    exact hc
  induction h with
  | literal hname _ =>
    obtain ⟨hne, hend⟩ := hname.endsSolid
    exact ⟨hend, fun _ _ => ⟨hne, hname.isSolid.startsSolid⟩⟩
  | name hname _ _ ih =>
    obtain ⟨hne, hend⟩ := hname.endsSolid
    refine ⟨hend.append ih.1, fun _ _ => ?_⟩
    obtain ⟨c, rest, rfl⟩ := List.exists_cons_of_ne_nil hne
    exact hfirst (hname.isSolid.startsSolid c rfl)
  | bracketed _ _ _ _ _ ih =>
    refine ⟨?_, fun _ _ => hfirst (by decide)⟩
    rw [List.append_cons]
    exact (endsSolid_snoc _ (by decide)).append ih.1
  | @string _ q body hq _ =>
    have hsolid : isBlank q = false ∧ q ≠ '.' := by
      rcases hq with rfl | rfl <;> decide
    exact ⟨endsSolid_snoc _ hsolid, fun _ _ => hfirst hsolid.1⟩
  | number hnumeral _ =>
    obtain ⟨hne, hend⟩ := hnumeral.endsSolid
    exact ⟨hend, fun _ _ => ⟨hne, hnumeral.isSolid.startsSolid⟩⟩
  | range =>
    exact ⟨endsSolid_snoc _ (by decide), fun _ _ => hfirst (by decide)⟩
  | done => exact ⟨nofun, nofun⟩
  | key _ _ hname _ ih =>
    obtain ⟨hne, hend⟩ := hname.endsSolid
    exact ⟨(hend.append_right _ hne).append ih.1, nofun⟩
  | index _ _ _ _ _ _ ih =>
    refine ⟨?_, nofun⟩
    rw [List.append_cons]
    exact (endsSolid_snoc _ (by decide)).append ih.1

/-- The steps of a path start with a blank, a dot or a bracket, if there
are any. -/
theorem Written.head_steps {loose : Bool} {p q : Path} {cs : List Char}
    (h : Written loose (.steps p q) cs) :
    ∀ c ∈ cs.head?, isBlank c = true ∨ c = '.' ∨ c = '[' := by
  intro c hc
  cases h with
  | done => cases hc
  | @key _ before _ _ _ _ _ hbefore =>
    cases before with
    | nil =>
      obtain rfl : '.' = c := Option.some.inj hc
      exact Or.inr (Or.inl rfl)
    | cons b before =>
      obtain rfl : b = c := Option.some.inj hc
      exact Or.inl (List.all_eq_true.1 hbefore.1 b (List.mem_cons_self ..))
  | @index _ gap _ _ _ _ _ _ _ hgap =>
    cases gap with
    | nil =>
      obtain rfl : '[' = c := Option.some.inj hc
      exact Or.inr (Or.inr rfl)
    | cons b gap =>
      obtain rfl : b = c := Option.some.inj hc
      exact Or.inl (List.all_eq_true.1 hgap.1 b (List.mem_cons_self ..))

-- =============================================================== forms

/-- The literal words are made of dashed-word characters. -/
theorem literal?_eq_none {cs : List Char} {c : Char} (hc : c ∈ cs)
    (hword : isDashedWord c = false) :
    literal? (String.ofList cs) = none := by
  have hwords : (literalWords.all fun w => w.1.toList.all isDashedWord) =
      true := by
    decide +kernel
  simp only [List.all_eq_true] at hwords
  cases hlit : literal? (String.ofList cs) with
  | none => rfl
  | some v =>
    have hmem : (String.ofList cs, v) ∈ literalWords := by
      obtain ⟨before, after, heq, -⟩ := List.lookup_eq_some_iff.1 hlit
      simp [heq]
    have hall := hwords _ hmem c (by simpa using hc)
    rw [hword] at hall
    cases hall

namespace Expr

/-- What starts with no quote, digit, minus or parenthesis is a literal
word or a path. -/
theorem ofTrimmed_of_head {c : Char} {cs : List Char}
    (hquote : c ≠ '\'' ∧ c ≠ '"') (hdigit : isDigit c = false)
    (hminus : c ≠ '-') (hround : c ≠ '(') :
    Form.ofTrimmed (c :: cs) =
      match literal? (String.ofList (c :: cs)) with
      | some v => .value v
      | none => .path (Segment.scan (c :: cs)) := by
  have hdrop : dropMinus (c :: cs) = c :: cs := by
    unfold dropMinus
    split
    · next heq => exact absurd (List.cons.inj heq).1 hminus
    · rfl
  have hunquote : unquote? (c :: cs) = none := by
    simp [unquote?, hquote]
  have hinteger : isInteger (c :: cs) = false := by
    simp [isInteger, hdrop, Numeral.isDigits, hdigit]
  have hbounds : bounds? (c :: cs) = none := by
    unfold bounds?
    split
    · next heq => exact absurd (List.cons.inj heq).1 hround
    · rfl
  have hdecimal : decimal? (c :: cs) = none := by
    simp only [decimal?, hdrop, List.takeWhile_cons, List.dropWhile_cons,
      hdigit, Bool.false_eq_true, if_false]
    split
    · rfl
    · rfl
  cases hlit : literal? (String.ofList (c :: cs)) with
  | none =>
    simp only [Form.ofTrimmed, List.isEmpty_cons, Bool.false_eq_true,
      if_false, hunquote, hinteger, hbounds, plain?, hdecimal, hlit]
  | some v =>
    simp only [Form.ofTrimmed, List.isEmpty_cons, Bool.false_eq_true,
      if_false, hunquote, hinteger, hbounds, plain?, hdecimal, hlit]

/-- A quoted text is a text. -/
theorem ofTrimmed_quoted {q : Char} (body : List Char)
    (hq : q = '\'' ∨ q = '"') :
    Form.ofTrimmed (q :: body ++ [q]) =
      .value (.text (String.ofList body)) := by
  have hunquote : unquote? (q :: body ++ [q]) = some body := by
    rcases hq with rfl | rfl <;> simp [unquote?]
  rw [Form.ofTrimmed, hunquote]
  rfl

/-- Digits, perhaps behind a minus that may be dropped, are not quoted,
whatever follows them. -/
theorem numeral_front {minus whole : List Char}
    (hminus : minus = [] ∨ minus = ['-'])
    (hwhole : Numeral.isDigits whole = true) (part : List Char) :
    dropMinus (minus ++ whole ++ part) = whole ++ part ∧
      unquote? (minus ++ whole ++ part) = none ∧
      (minus ++ whole ++ part).isEmpty = false := by
  obtain ⟨d, ds, rfl⟩ : ∃ d ds, whole = d :: ds := by
    cases whole with
    | nil => simp [Numeral.isDigits] at hwhole
    | cons d ds => exact ⟨d, ds, rfl⟩
  have hd : isDigit d = true := by
    simp only [Numeral.isDigits, Bool.and_eq_true] at hwhole
    exact List.all_eq_true.1 hwhole.2 d (List.mem_cons_self ..)
  have hne : ∀ c, isDigit c = false → d ≠ c := by
    rintro c hc rfl
    exact absurd hd (by simp [hc])
  rcases hminus with rfl | rfl
  · refine ⟨?_, ?_, rfl⟩
    · rw [List.nil_append, List.cons_append, dropMinus]
      rintro rest heq
      exact hne '-' (by decide) (List.cons.inj heq).1
    · simp [unquote?, hne '\'' (by decide), hne '"' (by decide)]
  · exact ⟨rfl, by simp [unquote?], rfl⟩

/-- Digits, perhaps behind a minus, are an integer. -/
theorem ofTrimmed_integer {minus whole : List Char}
    (hminus : minus = [] ∨ minus = ['-'])
    (hwhole : Numeral.isDigits whole = true) :
    Form.ofTrimmed (minus ++ whole) = .integer (minus ++ whole) := by
  obtain ⟨hdrop, hunquote, hempty⟩ := numeral_front hminus hwhole []
  rw [List.append_nil, List.append_nil] at hdrop
  rw [List.append_nil] at hunquote hempty
  rw [Form.ofTrimmed, hempty, hunquote, isInteger, hdrop, hwhole]
  rfl

/-- A row of digits has the form of an integer. -/
theorem Form.of_isDigits {digits : List Char}
    (h : Numeral.isDigits digits = true) :
    Form.of digits = .integer digits := by
  obtain ⟨hne, hend⟩ := endsSolid_of_isDigits h
  have htrim : trim ([] ++ digits ++ []) = digits :=
    trim_of_edges rfl hne (isSolid_of_isDigits h).startsSolid hend rfl
  rw [List.nil_append, List.append_nil] at htrim
  rw [Form.of, htrim]
  exact ofTrimmed_integer (Or.inl rfl) h

/-- A numeral is a number, the one its token spells: an integer, or with a
point a decimal. -/
theorem ofTrimmed_numeral {cs : List Char} {v : Value} (h : IsNumeral cs)
    (hv : numeral? (String.ofList cs) = some v) :
    Form.ofTrimmed cs = .value v ∨
      Form.ofTrimmed cs = .integer cs ∧ readInteger cs = .ok (.const v) := by
  obtain ⟨minus, whole, part, rfl, hminus, hwhole, hpart⟩ := h
  unfold numeral? at hv
  rw [String.toList_ofList] at hv
  rcases hpart with rfl | ⟨digits, rfl, hfraction⟩
  · -- without a point it is an integer
    rw [List.append_nil] at hv ⊢
    have hpoint := point_notMem hminus hwhole
    rw [if_neg (by simpa using hpoint)] at hv
    obtain ⟨n, hn, rfl⟩ := Option.map_eq_some_iff.1 hv
    refine Or.inr ⟨ofTrimmed_integer hminus hwhole, ?_⟩
    rw [readInteger, hn]
  · -- with a point it is a decimal
    obtain ⟨hdrop, hunquote, hempty⟩ :=
      numeral_front hminus hwhole ('.' :: digits)
    have hdigits : ∀ c ∈ whole, isDigit c = true := by
      simp only [Numeral.isDigits, Bool.and_eq_true] at hwhole
      exact List.all_eq_true.1 hwhole.2
    have hwhole' : Numeral.isDigits (whole ++ '.' :: digits) = false := by
      simp [Numeral.isDigits, show isDigit '.' = false by decide]
    have hround : bounds? (minus ++ whole ++ '.' :: digits) = none := by
      unfold bounds?
      split
      · next heq =>
        have hstart : '(' ∈ (minus ++ whole).head? := by
          obtain ⟨d, ds, rfl⟩ : ∃ d ds, whole = d :: ds :=
            List.exists_cons_of_ne_nil (by rintro rfl; cases hwhole)
          rcases hminus with rfl | rfl
          · exact congrArg some (List.cons.inj heq).1
          · exact congrArg some (List.cons.inj heq).1
        rcases List.mem_append.1 (List.mem_of_mem_head? hstart) with h | h
        · rcases hminus with rfl | rfl
          · cases h
          · exact absurd h (by decide)
        · exact absurd (hdigits _ h) (by decide)
      · rfl
    have htake : (whole ++ '.' :: digits).takeWhile isDigit = whole ∧
        (whole ++ '.' :: digits).dropWhile isDigit = '.' :: digits := by
      rw [List.takeWhile_append_of_pos hdigits,
        List.dropWhile_append_of_pos hdigits]
      simp [show isDigit '.' = false by decide]
    rw [if_pos (by simp)] at hv
    rw [Form.ofTrimmed, hempty, hunquote, isInteger, hdrop, hwhole', hround,
      plain?, decimal?, hdrop, htake.1, htake.2]
    simp only [hwhole, hfraction, Bool.and_self, if_true, hv]
    exact Or.inl rfl

-- ============================================================== ranges

/-- A bound is found between blanks. -/
theorem lastBound?_gaps {before cs after : List Char}
    (hbefore : before.all isBlank = true) (hne : cs ≠ [])
    (hstart : StartsSolid cs) (hend : EndsSolid cs)
    (hcs : IsUnbroken cs) (hafter : after.all isBlank = true) :
    lastBound? (before ++ cs ++ after) = some cs := by
  have hempty : cs.isEmpty = false := by simpa using hne
  rw [lastBound?, trim_of_edges hbefore hne hstart hend hafter, hempty, hcs]
  rfl

/-- Nothing with a blank in its midst is a bound. -/
theorem lastBound?_broken {cs gap ds after : List Char}
    (hne : cs ≠ []) (hstart : StartsSolid cs)
    (hgap : gap.all isBlank = true) (hgapne : gap ≠ [])
    (hne' : ds ≠ []) (hend : EndsSolid ds) (hafter : after.all isBlank = true) :
    lastBound? (cs ++ gap ++ ds ++ after) = none := by
  have hstart' : StartsSolid (cs ++ gap ++ ds) := by
    obtain ⟨c, cs, rfl⟩ := List.exists_cons_of_ne_nil hne
    exact hstart
  have htrim : trim ([] ++ (cs ++ gap ++ ds) ++ after) = cs ++ gap ++ ds :=
    trim_of_edges rfl (by simp [hne]) hstart' (hend.append_right _ hne') hafter
  rw [List.nil_append] at htrim
  obtain ⟨b, rest, rfl⟩ := List.exists_cons_of_ne_nil hgapne
  have hblank : isBlank b = true :=
    List.all_eq_true.1 hgap b (List.mem_cons_self ..)
  rw [lastBound?, htrim]
  simp [hblank]

/-- The dots of a range are not found inside the first bound, if none
stand there that a second bound could follow. -/
theorem splitBounds?_append {after rest cs : List Char}
    (hdots : ∀ us vs, cs = us ++ '.' :: '.' :: vs →
      lastBound? (vs ++ rest ++ after) = none)
    (hend : EndsSolid cs) :
    splitBounds? after (cs ++ rest) =
      (splitBounds? after rest).map fun r => (cs ++ r.1, r.2) := by
  induction cs with
  | nil => simp
  | cons c cs ih =>
    have hih := ih (fun us vs heq => hdots (c :: us) vs (by rw [heq]; rfl))
      hend.tail
    rw [List.cons_append]
    by_cases hhere : ∃ more, c = '.' ∧ cs ++ rest = '.' :: more
    · obtain ⟨more, rfl, heq⟩ := hhere
      cases cs with
      | nil => exact absurd rfl (hend '.' rfl).2
      | cons d ds =>
        obtain ⟨rfl, rfl⟩ := List.cons.inj heq
        have hnone := hdots [] ds rfl
        rw [List.cons_append] at hih ⊢
        rw [splitBounds?, hih, Option.map_map, hnone]
        rfl
    · rw [splitBounds?, hih, Option.map_map]
      · rfl
      · intro more hc heq
        exact hhere ⟨more, hc, heq⟩

/-- A text with the bounds of a range is a range. -/
theorem ofTrimmed_of_bounds {markup first last : List Char}
    (h : bounds? markup = some (first, last)) :
    Form.ofTrimmed markup = .range first last := by
  unfold bounds? at h
  split at h
  · next rest =>
    have hunquote : unquote? ('(' :: rest) = none := by simp [unquote?]
    have hinteger : isInteger ('(' :: rest) = false := by
      simp [isInteger, dropMinus, Numeral.isDigits,
        show isDigit '(' = false by decide]
    have hbounds : bounds? ('(' :: rest) = some (first, last) := h
    rw [Form.ofTrimmed, hunquote, hinteger, hbounds]
    rfl
  · cases h

/-- No dots but those between the bounds of a range are in front of a
second bound. -/
theorem lastBound?_within {g₂ g₃ g₄ cs ds us vs : List Char}
    (h₂ : g₂.all isBlank = true) (h₃ : g₃.all isBlank = true)
    (h₄ : g₄.all isBlank = true) (hcs : IsUnbroken cs)
    (hdots : g₂ = [] → g₃ = [] → HasNoDots cs) (hend : EndsSolid cs)
    (hdsEdges : ds ≠ [] ∧ StartsSolid ds ∧ EndsSolid ds)
    (heq : cs = us ++ '.' :: '.' :: vs) :
    lastBound? (vs ++ (g₂ ++ ['.', '.'] ++ (g₃ ++ ds ++ g₄))) = none := by
  obtain ⟨hne, -, hend'⟩ := hdsEdges
  have hvs : vs ≠ [] := by
    rintro rfl
    have hlast : cs.getLast? = some '.' := by
      rw [heq, List.getLast?_append]
      rfl
    exact absurd rfl (hend '.' hlast).2
  have hstart : StartsSolid vs := by
    intro c hc
    have hmem : c ∈ cs := by
      rw [heq]
      simp [List.mem_of_mem_head? hc]
    simpa using List.any_eq_false.1 hcs c hmem
  by_cases hgap : g₂ = []
  · by_cases hgap' : g₃ = []
    · exact absurd ⟨us, vs, by rw [heq]; simp⟩ (hdots hgap hgap')
    · have hstart' : StartsSolid (vs ++ ['.', '.']) := by
        obtain ⟨c, vs, rfl⟩ := List.exists_cons_of_ne_nil hvs
        exact hstart
      have hbroken := lastBound?_broken (by simp) hstart' h₃ hgap' hne hend'
        h₄
      rw [hgap]
      simpa using hbroken
  · have hbroken : lastBound? (vs ++ g₂ ++ (['.', '.'] ++ g₃ ++ ds) ++ g₄) =
        none :=
      lastBound?_broken hvs hstart h₂ hgap (by simp)
        (hend'.append_right _ hne) h₄
    simpa using hbroken

/-- The bounds of a range are found, whatever blanks stand around
them. -/
theorem bounds?_written {g₁ g₂ g₃ g₄ cs ds : List Char}
    (h₁ : g₁.all isBlank = true) (h₂ : g₂.all isBlank = true)
    (h₃ : g₃.all isBlank = true) (h₄ : g₄.all isBlank = true)
    (hcs : IsUnbroken cs) (hdots : g₂ = [] → g₃ = [] → HasNoDots cs)
    (hds : IsUnbroken ds)
    (hcsEdges : cs ≠ [] ∧ StartsSolid cs ∧ EndsSolid cs)
    (hdsEdges : ds ≠ [] ∧ StartsSolid ds ∧ EndsSolid ds) :
    bounds? ('(' :: (g₁ ++ cs ++ g₂) ++ ['.', '.'] ++ (g₃ ++ ds ++ g₄) ++
      [')']) = some (cs, ds) := by
  obtain ⟨hne, hstart, hend⟩ := hcsEdges
  have hwithin : ∀ us vs, cs = us ++ '.' :: '.' :: vs →
      lastBound? (vs ++ (g₂ ++ ['.', '.'] ++ (g₃ ++ ds ++ g₄))) = none :=
    fun us vs => lastBound?_within h₂ h₃ h₄ hcs hdots hend hdsEdges
  obtain ⟨hne', hstart', hend'⟩ := hdsEdges
  obtain ⟨c, cs, rfl⟩ := List.exists_cons_of_ne_nil hne
  have hlast := lastBound?_gaps h₃ hne' hstart' hend' hds h₄
  generalize g₃ ++ ds ++ g₄ = tail at hlast hwithin ⊢
  have hclosing : ((g₁ ++ (c :: cs) ++ g₂) ++ ['.', '.'] ++ tail ++
      [')']).getLast? = some ')' := List.getLast?_concat
  have hbody : trimLeft (g₁ ++ (c :: cs) ++ g₂ ++ ['.', '.'] ++ tail) =
      (c :: cs) ++ (g₂ ++ ['.', '.'] ++ tail) := by
    simp only [List.append_assoc]
    exact dropWhile_blanks h₁ fun d hd => hstart d hd
  have hunbroken : ∀ d ∈ c :: cs, (!isBlank d) = true := by
    intro d hd
    have := List.any_eq_false.1 hcs d hd
    simpa using this
  have hsplit : ∀ rest : List Char, rest = g₂ ++ ['.', '.'] ++ tail →
      splitBounds? (rest.dropWhile (!isBlank ·))
        (rest.takeWhile (!isBlank ·)) = some ([], ds) := by
    rintro rest rfl
    cases g₂ with
    | nil =>
      have hdot : (!isBlank '.') = true := by decide
      simp only [List.nil_append, List.cons_append, List.takeWhile_cons,
        List.dropWhile_cons, hdot, if_true, splitBounds?,
        List.takeWhile_append_dropWhile, hlast]
    | cons b g₂ =>
      have hb : (!isBlank b) = false := by
        simp only [List.all_cons, Bool.and_eq_true] at h₂
        simp [h₂.1]
      have hafter : trimLeft (b :: g₂ ++ ['.', '.'] ++ tail) =
          '.' :: '.' :: tail := by
        rw [List.append_assoc]
        refine dropWhile_blanks h₂ fun d hd => ?_
        obtain rfl : '.' = d := Option.some.inj hd
        decide
      simp only [List.cons_append, List.takeWhile_cons, List.dropWhile_cons,
        hb, Bool.false_eq_true, if_false, splitBounds?] at hafter ⊢
      rw [hafter]
      simp [hlast]
  show bounds? ('(' :: (g₁ ++ (c :: cs) ++ g₂ ++ ['.', '.'] ++ tail ++
    [')'])) = _
  rw [bounds?, hclosing, if_pos (by rfl), List.dropLast_concat,
    boundsWithin?, hbody, List.takeWhile_append_of_pos hunbroken,
    List.dropWhile_append_of_pos hunbroken]
  show (splitBounds? _ (cs ++ _)).map _ = _
  rw [splitBounds?_append ?_ hend.tail, hsplit _ rfl]
  · simp
  · intro us vs heq
    rw [List.append_assoc, List.takeWhile_append_dropWhile]
    exact hwithin (c :: us) vs (by rw [heq]; rfl)

end Expr

-- ============================================================ segments

namespace Segment

/-- What is neither a word nor a bracket only separates. -/
theorem scan_skip {gap : List Char}
    (hgap : ∀ c ∈ gap, c ≠ '[' ∧ isDashedWord c = false)
    (cs : List Char) : scan (gap ++ cs) = scan cs := by
  induction gap with
  | nil => rfl
  | cons c gap ih =>
    obtain ⟨hopen, hword⟩ := hgap c (List.mem_cons_self ..)
    rw [List.cons_append, scan, if_neg (by simpa using hopen),
      dif_neg (by simp [hword])]
    exact ih fun d hd => hgap d (List.mem_cons_of_mem _ hd)

/-- A gap only separates. -/
theorem scan_gap {gap : List Char} (hgap : gap.all isBlank = true)
    (cs : List Char) : scan (gap ++ cs) = scan cs := by
  refine scan_skip (fun c hc => ?_) cs
  have hblank := List.all_eq_true.1 hgap c hc
  refine ⟨?_, isDashedWord_of_isBlank hblank⟩
  rintro rfl
  exact absurd hblank (by decide)

/-- Dashed-word characters, and a question mark behind them, are a segment
of their own, where no other word goes on with it. -/
theorem scan_word {body mark cs : List Char} (hne : body ≠ [])
    (hbody : ∀ c ∈ body, isDashedWord c = true)
    (hmark : mark = ['?'] ∨ mark = [] ∧
      ∀ c ∈ cs.head?, isDashedWord c = false ∧ c ≠ '?') :
    scan (body ++ mark ++ cs) = .word (body ++ mark) :: scan cs := by
  obtain ⟨c, body, rfl⟩ := List.exists_cons_of_ne_nil hne
  have hdashed := hbody c (List.mem_cons_self ..)
  have hopen : c ≠ '[' := by
    rintro rfl
    exact absurd hdashed (by decide)
  -- the row of dashed-word characters ends where the body does
  have hsplit : (c :: body ++ (mark ++ cs)).takeWhile isDashedWord =
      c :: body ∧
      (c :: body ++ (mark ++ cs)).dropWhile isDashedWord = mark ++ cs := by
    rw [List.takeWhile_append_of_pos hbody,
      List.dropWhile_append_of_pos hbody]
    rcases hmark with rfl | ⟨rfl, hcs⟩
    · simp [show isDashedWord '?' = false by decide]
    · cases cs with
      | nil => simp
      | cons d cs => simp [hcs d rfl]
  have hquestion : questionMark (mark ++ cs) = mark := by
    rcases hmark with rfl | ⟨rfl, hcs⟩
    · rfl
    · unfold questionMark
      split
      · next more heq =>
        obtain rfl : cs = '?' :: more := heq
        exact absurd rfl (hcs '?' rfl).2
      · rfl
  have htake : takeWord (c :: body ++ mark ++ cs) = c :: body ++ mark := by
    rw [List.append_assoc, takeWord, hsplit.1, hsplit.2, hquestion]
  have hdrop : dropWord (c :: body ++ mark ++ cs) = cs := by
    rw [List.append_assoc, dropWord, hsplit.2, hquestion, List.drop_left]
  rw [List.cons_append, List.cons_append, scan,
    if_neg (by simpa using hopen), dif_pos hdashed]
  rw [List.cons_append, List.cons_append] at htake hdrop
  rw [htake, hdrop]

/-- A name is a segment of its own, where no other word goes on with
it. -/
theorem scan_name {word cs : List Char} (hname : IsName word)
    (hcs : ∀ c ∈ cs.head?, isDashedWord c = false ∧ c ≠ '?') :
    scan (word ++ cs) = .word word :: scan cs := by
  obtain ⟨c, rest, mark, rfl, hc, -, hrest, hmark⟩ := hname
  refine scan_word (List.cons_ne_nil c rest) (fun d hd => ?_)
    (hmark.symm.imp_right fun hmark => ⟨hmark, hcs⟩)
  rcases List.mem_cons.1 hd with rfl | hd
  · simp [isDashedWord, hc]
  · exact List.all_eq_true.1 hrest d hd

/-- A group is a segment of its own. -/
theorem scan_group {inner cs : List Char}
    (h : closeGroup .start (inner ++ ']' :: cs) = some (inner, cs)) :
    scan ('[' :: inner ++ ']' :: cs) = .group inner :: scan cs := by
  rw [List.cons_append, scan, if_pos (by rfl)]
  split
  · next inner' after heq =>
    obtain ⟨rfl, rfl⟩ := Prod.mk.inj (Option.some.inj (h.symm.trans heq))
    rfl
  · next heq =>
    rw [h] at heq
    cases heq

end Segment

/-- What stands in brackets in written operands is the group there. -/
theorem Written.closeGroup {before inner after : List Char} {e : Expr}
    (hbefore : IsGap true before) (hinner : Written true (.operand e) inner)
    (hafter : IsGap true after) (cs : List Char) :
    Segment.closeGroup .start ((before ++ inner ++ after) ++ ']' :: cs) =
      some (before ++ inner ++ after, cs) := by
  have hpass : (before ++ inner ++ after).foldlM Segment.step .start =
      some .start :=
    passes_append
      (passes_append (Segment.tracks.gap (d := 0) (fun _ => trivial) hbefore)
        (hinner.tracked Segment.tracks (d := 0) fun _ => trivial))
      (Segment.tracks.gap (d := 0) (fun _ => trivial) hafter)
  rw [Segment.closeGroup_append hpass, Segment.closeGroup]
  simp [Segment.Nesting.closes, Segment.Nesting.start]

-- ============================================================= meaning

/-- What is written means the phrase it is written as: an operand is read
as its expression, whatever blanks stand around it, and the segments of
steps lead from one path to the other. -/
def Means : Phrase → List Char → Prop
  | .operand e, cs => ∀ before after : List Char,
      before.all isBlank = true → after.all isBlank = true →
      Expr.parseChars (before ++ cs ++ after) = .ok e
  | .steps p q, cs => ∃ es,
      (Segment.scan cs).mapM (Expr.ofSegment Expr.parseChars) = .ok es ∧
      ((Segment.scan cs).zip es).foldl Expr.stepOf p = q

/-- A word in front of steps is a step by its name. -/
theorem Means.word {word cs : List Char} {p q : Path}
    (h : Means (.steps (.step p (.const (.text (String.ofList word)))
      (Command.ofWord? (String.ofList word))) q) cs) {ds : List Char}
    (hscan : Segment.scan ds = .word word :: Segment.scan cs) :
    Means (.steps p q) ds := by
  obtain ⟨es, hes, hfold⟩ := h
  refine ⟨.const (.text (String.ofList word)) :: es, ?_, ?_⟩
  · rw [hscan, List.mapM_cons, hes]
    rfl
  · rw [hscan]
    exact hfold

/-- A group in front of steps is a step by what stands inside. -/
theorem Means.group {inner cs : List Char} {e : Expr} {p q : Path}
    (h : Means (.steps (.step p e none) q) cs)
    (hinner : Expr.parseChars inner = .ok e) {ds : List Char}
    (hscan : Segment.scan ds = .group inner :: Segment.scan cs) :
    Means (.steps p q) ds := by
  obtain ⟨es, hes, hfold⟩ := h
  refine ⟨e :: es, ?_, ?_⟩
  · rw [hscan, List.mapM_cons, hes]
    simp only [Expr.ofSegment, hinner]
    rfl
  · rw [hscan]
    exact hfold

/-- A segment in front of steps is the root they start from. -/
theorem Means.root {segment : Segment} {cs ds : List Char} {e : Expr}
    {p : Path} (h : Means (.steps (.root e) p) cs)
    (hscan : Segment.scan ds = segment :: Segment.scan cs)
    (hroot : Expr.ofSegment Expr.parseChars segment = .ok e)
    (hform : Expr.Form.ofTrimmed ds = .path (Segment.scan ds))
    {markup : List Char} (htrim : trim markup = ds) :
    Expr.parseChars markup = .ok (.path p) := by
  obtain ⟨es, hes, hfold⟩ := h
  rw [Expr.parseChars_eq, Expr.Form.of, htrim, hform]
  dsimp only
  rw [hscan, List.mapM_cons, hroot, hes]
  exact congrArg (fun p => Except.ok (Expr.path p)) hfold

/-- What starts with a name is a literal word or a path. -/
theorem ofTrimmed_name {word : List Char} (hname : IsName word)
    (cs : List Char) :
    Expr.Form.ofTrimmed (word ++ cs) =
      match literal? (String.ofList (word ++ cs)) with
      | some v => .value v
      | none => .path (Segment.scan (word ++ cs)) := by
  obtain ⟨c, rest, mark, rfl, hc, hdigit, -⟩ := hname
  have hne : ∀ d, isWord d = false → c ≠ d := by
    rintro d hd rfl
    exact absurd hc (by simp [hd])
  exact Expr.ofTrimmed_of_head
    ⟨hne '\'' (by decide), hne '"' (by decide)⟩ hdigit (hne '-' (by decide))
    (hne '(' (by decide))

/-- What goes on with steps is no literal word. -/
theorem literal?_steps {loose : Bool} {p q : Path} {cs : List Char}
    (h : Written loose (.steps p q) cs) (word : List Char)
    (hword : cs = [] → literal? (String.ofList word) = none) :
    literal? (String.ofList (word ++ cs)) = none := by
  cases cs with
  | nil =>
    rw [List.append_nil]
    exact hword rfl
  | cons c cs =>
    refine literal?_eq_none (by simp) (?_ : isDashedWord c = false)
    rcases h.head_steps c rfl with hblank | rfl | rfl
    · exact isDashedWord_of_isBlank hblank
    · decide
    · decide

/-- A name ends in front of steps. -/
theorem scan_name_steps {loose : Bool} {p q : Path} {word cs : List Char}
    (hname : IsName word) (h : Written loose (.steps p q) cs) :
    Segment.scan (word ++ cs) = .word word :: Segment.scan cs := by
  refine Segment.scan_name hname fun c hc => ?_
  rcases h.head_steps c hc with hblank | rfl | rfl
  · refine ⟨isDashedWord_of_isBlank hblank, ?_⟩
    rintro rfl
    exact absurd hblank (by decide)
  · decide
  · decide

/-- The lenient grammar reads what is written as it was meant. -/
theorem Written.means {loose : Bool} {phrase : Phrase} {cs : List Char}
    (h : Written loose phrase cs) : Means phrase cs := by
  have htrim : ∀ {loose e cs}, Written loose (.operand e) cs →
      ∀ before after : List Char, before.all isBlank = true →
      after.all isBlank = true → trim (before ++ cs ++ after) = cs := by
    intro loose e cs hw before after hbefore hafter
    obtain ⟨hend, hoperand⟩ := hw.edges
    obtain ⟨hne, hstart⟩ := hoperand e rfl
    exact trim_of_edges hbefore hne hstart hend hafter
  induction h with
  | @literal l word v hname hv =>
    intro before after hbefore hafter
    have hform := ofTrimmed_name hname []
    rw [List.append_nil, hv] at hform
    rw [Expr.parseChars_eq, Expr.Form.of,
      htrim (.literal hname hv : Written l _ _) _ _ hbefore hafter, hform]
  | @name l word cs p hname hword hsteps ih =>
    intro before after hbefore hafter
    have hform := ofTrimmed_name hname cs
    rw [literal?_steps hsteps word hword] at hform
    exact ih.root (scan_name_steps hname hsteps) rfl hform
      (htrim (.name hname hword hsteps) _ _ hbefore hafter)
  | @bracketed l before inner after cs e p hbefore hinner hafter hsteps ih
      ihSteps =>
    intro before' after' hbefore' hafter'
    have hscan := Segment.scan_group (hinner.closeGroup hbefore hafter cs)
    have hform := @Expr.ofTrimmed_of_head '['
      ((before ++ inner ++ after) ++ ']' :: cs)
      (by decide) (by decide) (by decide) (by decide)
    rw [literal?_eq_none (c := '[') (List.mem_cons_self ..)
      (by decide)] at hform
    exact ihSteps.root hscan (ih before after hbefore.1 hafter.1) hform
      (htrim (.bracketed hbefore hinner hafter hsteps) _ _ hbefore' hafter')
  | @string l q body hq hbody =>
    intro before after hbefore hafter
    rw [Expr.parseChars_eq, Expr.Form.of,
      htrim (.string hq hbody : Written l _ _) _ _ hbefore hafter,
      Expr.ofTrimmed_quoted body hq]
  | @number l cs v hnumeral hv =>
    intro before after hbefore hafter
    rw [Expr.parseChars_eq, Expr.Form.of,
      htrim (.number hnumeral hv : Written l _ _) _ _ hbefore hafter]
    rcases Expr.ofTrimmed_numeral hnumeral hv with hform | ⟨hform, hread⟩
    · rw [hform]
    · rw [hform]
      exact hread
  | @range l g₁ g₂ g₃ g₄ cs ds first last e hfirst hlast hcs hdots hds h₁ h₂
      h₃ h₄ he ihFirst ihLast =>
    intro before after hbefore hafter
    obtain ⟨hend, hedges⟩ := hfirst.edges
    obtain ⟨hne, hstart⟩ := hedges first rfl
    obtain ⟨hend', hedges'⟩ := hlast.edges
    obtain ⟨hne', hstart'⟩ := hedges' last rfl
    have hbounds := Expr.bounds?_written h₁.1 h₂.1 h₃.1 h₄.1 hcs hdots hds
      ⟨hne, hstart, hend⟩ ⟨hne', hstart', hend'⟩
    have hfirst' := ihFirst [] [] rfl rfl
    have hlast' := ihLast [] [] rfl rfl
    rw [List.nil_append, List.append_nil] at hfirst' hlast'
    have hrange := htrim (.range hfirst hlast hcs hdots hds h₁ h₂ h₃ h₄ he :
      Written l _ _) before after hbefore hafter
    rw [Expr.parseChars_eq, Expr.Form.of, hrange,
      Expr.ofTrimmed_of_bounds hbounds]
    simp only [hfirst', hlast']
    exact he
  | done p =>
    refine ⟨[], ?_, ?_⟩ <;> rw [Segment.scan] <;> rfl
  | @key l before after word cs p q hbefore hafter hname hsteps ih =>
    refine ih.word ?_
    have hdot : ∀ c ∈ ['.'], c ≠ '[' ∧ isDashedWord c = false :=
      List.forall_mem_singleton.2 (by decide)
    have hskip : Segment.scan (before ++ '.' :: after ++ word ++ cs) =
        Segment.scan (word ++ cs) := by
      rw [List.append_assoc, List.append_assoc, Segment.scan_gap hbefore.1,
        List.cons_append]
      exact (Segment.scan_skip hdot _).trans (Segment.scan_gap hafter.1 _)
    rw [hskip]
    exact scan_name_steps hname hsteps
  | @index l gap before inner after cs e p q hgap hbefore hinner hafter
      hsteps ih ihSteps =>
    refine ihSteps.group (ih before after hbefore.1 hafter.1) ?_
    rw [List.append_assoc, Segment.scan_gap hgap.1]
    exact Segment.scan_group (hinner.closeGroup hbefore hafter cs)

end Stencil
