/-
Operands that can be read back from their text.

The text of an operand forgets the command hints of its paths: every key
stands in brackets. Apart from that it is a faithful picture of a `Plain`
operand, where names are names and texts need no escapes, as far as its
integers have few enough digits to be written at all. Such a text is
`Legible`: it is written tightly, which is what the lenient grammar needs,
and it is scanned into tokens that derive the operand, which is what the
strict one needs.

A path grows at its end and the grammars read it from its start, so a step
has to be appended to what is written, derived and scanned already. The
induction is on the operand, for keys and paths together.
-/
import Stencil.Proofs.Markup.Lexing
import Stencil.Proofs.Markup.Rereading

namespace Stencil

open Text

-- ============================================================= erasing

mutual

/-- An expression without the command hints of its paths. -/
def Expr.erase : Expr → Expr
  | .const v => .const v
  | .path p => .path p.erase
  | .range first last => .range first.erase last.erase

/-- A path without its command hints. -/
def Path.erase : Path → Path
  | .root name => .root name.erase
  | .step path key _ => .step path.erase key.erase none

end

-- =============================================================== plain

/-- A path is not just a literal word. -/
def Path.Named (p : Path) : Prop :=
  ∀ word, p = .root (.const (.text word)) → literal? word = none

mutual

/-- A path that starts from a name, and whose keys are plain. -/
def Path.Plain : Path → Prop
  | .root (.const (.text name)) => IsName name.toList
  | .root _ => False
  | .step path key _ => path.Plain ∧ key.PlainKey

/-- A key that its text between brackets shows: a text without a single
quote, an integer, nil, a truth value, or a plain path. -/
def Expr.PlainKey : Expr → Prop
  | .const (.text s) => '\'' ∉ s.toList
  | .const (.int _) | .const .nil | .const (.bool _) => True
  | .path p => p.Plain ∧ p.Named
  | _ => False

end

/-- An operand that its text shows: nil, a truth value, a probe, an
integer, a text that needs only its quotes, or a plain path. -/
def Expr.Plain : Expr → Prop
  | .const .nil | .const (.bool _) | .const (.probe _)
  | .const (.int _) => True
  | .const (.text s) => ∃ q, quoted s.toList = q :: s.toList ++ [q]
  | .path p => p.Plain ∧ p.Named
  | _ => False

-- ============================================================ appending

/-- What a key in brackets adds to derived steps. -/
theorem Derives.append_index {p q : Path} {ts us : List Token} {e : Expr}
    (h : Derives (.steps p q) ts) (he : Derives (.operand e) us)
    (a b : String) :
    Derives (.steps p (.step q e none))
      (ts ++ ⟨.openSquare, a⟩ :: (us ++ [⟨.closeSquare, b⟩])) := by
  generalize hphrase : Phrase.steps p q = phrase at h
  induction h generalizing p with
  | done =>
    cases hphrase
    exact .index he (.done _)
  | key _ ih =>
    cases hphrase
    exact .key (ih rfl)
  | index hinner _ _ ih =>
    cases hphrase
    have hrest := ih rfl
    rw [List.cons_append, List.append_assoc, List.cons_append]
    exact .index hinner hrest
  | _ => cases hphrase

/-- What a key in brackets adds to written steps. -/
theorem Written.append_index {loose : Bool} {p q : Path}
    {cs ds : List Char} {e : Expr} (h : Written loose (.steps p q) cs)
    (he : Written true (.operand e) ds) :
    Written loose (.steps p (.step q e none)) (cs ++ '[' :: ds ++ [']']) := by
  have hgap : ∀ l, IsGap l [] := fun l => ⟨rfl, fun _ => rfl⟩
  have hgroup : '[' :: ds ++ [']'] =
      [] ++ '[' :: ([] ++ ds ++ []) ++ ']' :: [] := by simp
  generalize hphrase : Phrase.steps p q = phrase at h
  induction h generalizing p with
  | done =>
    cases hphrase
    rw [List.nil_append, hgroup]
    exact .index (hgap _) (hgap _) he (hgap _) (.done _)
  | key hbefore hafter hname _ ih =>
    cases hphrase
    have hrest := ih rfl
    rw [List.append_assoc, List.append_assoc]
    rw [List.append_assoc] at hrest
    exact .key hbefore hafter hname hrest
  | index hopen hbefore hinner hafter _ _ ih =>
    cases hphrase
    have hrest := ih rfl
    rw [List.append_assoc] at hrest
    have hkey := Written.index hopen hbefore hinner hafter hrest
    simpa only [List.append_assoc, List.cons_append] using hkey
  | _ => cases hphrase

-- ============================================================= legible

open Token in
/-- A text that both grammars read as an operand: it is written tightly,
and scanned where an operand may start into tokens that derive it. Only a
linking word may look like no operand to what follows. -/
structure Expr.Legible (e : Expr) (cs : List Char) : Prop where
  written : ∀ loose, Written loose (.operand e) cs
  scanned : ∃ ts last, Derives (.operand e) ts ∧
    (relationWords.contains (String.ofList cs) = false →
      last.endsOperand = true) ∧
    ∀ previous rest, Awaits previous → EndsWord rest →
      scanAfter previous (cs ++ rest) =
        (scanAfter (some last) rest).map (ts ++ ·)

open Token in
/-- A text that both grammars read as a path from a name: the name, and
what leads from it to the path. -/
structure Path.Legible (p : Path) (name more : List Char) : Prop where
  isName : IsName name
  bare : more = [] → p = .root (.const (.text (String.ofList name)))
  written : ∀ loose, Written loose
    (.steps (.root (.const (.text (String.ofList name)))) p) more
  scanned : ∃ ts last,
    Derives (.steps (.root (.const (.text (String.ofList name)))) p) ts ∧
    (ts = [] → more = []) ∧
    (relationWords.contains (String.ofList (name ++ more)) = false →
      last.endsOperand = true) ∧
    ∀ previous rest, Awaits previous → EndsWord rest →
      scanAfter previous (name ++ more ++ rest) =
        (scanAfter (some last) rest).map
          (⟨.id, String.ofList name⟩ :: ts ++ ·)

theorem Path.legible_root {name : List Char} (hname : IsName name) :
    (Path.root (.const (.text (String.ofList name)))).Legible name [] where
  isName := hname
  bare _ := rfl
  written _ := .done _
  scanned := by
    refine ⟨[], ⟨.id, String.ofList name⟩, .done _, fun _ => rfl, ?_, ?_⟩
    · rw [List.append_nil]
      intro hword
      show (true && !relationWords.contains (String.ofList name)) = true
      rw [hword]
      rfl
    · intro previous rest hprevious hrest
      rw [List.append_nil]
      exact Token.scanAfter_name hname hrest fun _ => hprevious

/-- A legible key in brackets goes on with a legible path. -/
theorem Path.Legible.step {p : Path} {name more cs : List Char} {e : Expr}
    (h : p.Legible name more) (he : e.Legible cs) :
    (Path.step p e none).Legible name (more ++ '[' :: cs ++ [']']) where
  isName := h.isName
  bare hnil := by simp at hnil
  written loose := (h.written loose).append_index (he.written true)
  scanned := by
    obtain ⟨ts, last, hderive, -, -, hscan⟩ := h.scanned
    obtain ⟨us, last', hderive', -, hscan'⟩ := he.scanned
    refine ⟨_, ⟨.closeSquare, "]"⟩, hderive.append_index hderive' "[" "]",
      ?_, fun _ => rfl, ?_⟩
    · intro hnil
      simp at hnil
    · intro previous rest hprevious _
      have hopen : Token.EndsWord ('[' :: cs ++ [']'] ++ rest) := by
        intro c hc
        exact Or.inr (Or.inl (Option.some.inj hc).symm)
      have hclose : Token.EndsWord (']' :: rest) := by
        intro c hc
        exact Or.inr (Or.inr (Option.some.inj hc).symm)
      have hawaits : Token.Awaits (some ⟨.openSquare, "["⟩) :=
        Token.awaits_some rfl
      have hbefore := hscan previous _ hprevious hopen
      have hinner := hscan' _ _ hawaits hclose
      calc Token.scanAfter previous
            (name ++ (more ++ '[' :: cs ++ [']']) ++ rest)
          = Token.scanAfter previous
              (name ++ more ++ ('[' :: cs ++ [']'] ++ rest)) := by simp
        _ = (Token.scanAfter (some last)
              ('[' :: (cs ++ ']' :: rest))).map
                (⟨.id, String.ofList name⟩ :: ts ++ ·) := by
            rw [hbefore]
            simp
        _ = _ := by
            rw [Token.scanAfter_openSquare, hinner,
              Token.scanAfter_closeSquare]
            cases Token.scanAfter (some ⟨.closeSquare, "]"⟩) rest with
            | error c => rfl
            | ok zs => simp [Except.map]

/-- A legible path is a legible operand, unless it is a literal word. -/
theorem Path.Legible.operand {p : Path} {name more : List Char}
    (h : p.Legible name more) (hnamed : p.Named) :
    (Expr.path p).Legible (name ++ more) where
  written loose := .name h.isName
    (fun hnil => hnamed _ (h.bare hnil)) (h.written loose)
  scanned := by
    obtain ⟨ts, last, hderive, hnil, hends, hscan⟩ := h.scanned
    exact ⟨_, last, .name (fun hts => hnamed _ (h.bare (hnil hts))) hderive,
      hends, hscan⟩

-- ============================================================ constants

/-- A literal word is legible. -/
theorem Expr.legible_word {word : String} {v : Value}
    (hname : IsName word.toList) (hv : literal? word = some v)
    (hword : relationWords.contains word = false) :
    (Expr.const v).Legible word.toList where
  written _ := .literal hname (by rwa [String.ofList_toList])
  scanned := by
    refine ⟨[⟨.id, word⟩], ⟨.id, word⟩, .literal hv, ?_, ?_⟩
    · intro _
      show (true && !relationWords.contains word) = true
      rw [hword]
      rfl
    · intro previous rest hprevious hrest
      have hscan := Token.scanAfter_name hname hrest fun _ => hprevious
      rwa [String.ofList_toList] at hscan

/-- An integer that can be written is legible. -/
theorem Expr.legible_int {n : Int} (h : Numeral.isWritable n = true) :
    (Expr.const (.int n)).Legible (toString n).toList := by
  obtain ⟨minus, whole, htext, hminus, rfl, -⟩ := exists_digits_of_int n
  have hwhole := Numeral.isDigits_toDigits n.natAbs
  have hread := numeral?_toString h
  constructor
  · intro loose
    have hnumeral : IsNumeral (toString n).toList :=
      ⟨minus, _, [], by simpa using htext, hminus, hwhole, Or.inl rfl⟩
    exact .number hnumeral (by rwa [String.ofList_toList])
  · refine ⟨[⟨.number, toString n⟩], ⟨.number, toString n⟩,
      .number hread, ?_, ?_⟩
    · intro hword
      show (true && !relationWords.contains (toString n)) = true
      rw [String.ofList_toList] at hword
      rw [hword]
      rfl
    · intro previous rest _ hrest
      have hscan : Token.scanAfter previous _ = _ :=
        Token.scanAfter_number hminus hwhole hrest
      rwa [← htext, String.ofList_toList] at hscan

/-- A text between quotes that it does not hold is legible. -/
theorem Expr.legible_text {q : Char} {s : String}
    (hq : q = '\'' ∨ q = '"') (hs : q ∉ s.toList) :
    (Expr.const (.text s)).Legible (q :: s.toList ++ [q]) where
  written loose := by
    have hwritten : Written loose _ (q :: s.toList ++ [q]) :=
      .string hq hs
    rwa [String.ofList_toList] at hwritten
  scanned := by
    refine ⟨[⟨.string, String.ofList (q :: s.toList ++ [q])⟩], _, ?_, ?_,
      fun previous rest _ _ => Token.scanAfter_string hq hs rest⟩
    · have hinside : Reader.unquoted
          (String.ofList (q :: s.toList ++ [q])) = s := by
        rw [Reader.unquoted, String.toList_ofList, List.cons_append,
          List.drop_succ_cons, List.drop_zero, List.dropLast_concat,
          String.ofList_toList]
      have hderive : Derives _
          [⟨.string, String.ofList (q :: s.toList ++ [q])⟩] := .string
      rwa [hinside] at hderive
    · intro hword
      show (true && !relationWords.contains _) = true
      rw [hword]
      rfl

/-- A text that needs nothing but its quotes does not hold them. -/
theorem quote_not_mem {cs : List Char} {q : Char}
    (h : quoted cs = q :: cs ++ [q]) :
    (q = '\'' ∨ q = '"') ∧ q ∉ cs := by
  have hquote : quoteFor cs = q ∧ cs.flatMap (escape q) = cs := by
    unfold quoted at h
    dsimp only at h
    obtain ⟨hq, hrest⟩ := List.cons.inj h
    rw [hq] at hrest
    exact ⟨hq, List.append_cancel_right hrest⟩
  obtain ⟨hq, hescape⟩ := hquote
  constructor
  · rw [← hq, quoteFor]
    split
    · exact Or.inr rfl
    · exact Or.inl rfl
  · -- each character takes at least its own place, and the quote takes two
    have hpos : ∀ c, 1 ≤ (escape q c).length := by
      intro c
      unfold escape
      repeat' split
      all_goals simp
    have hle : ∀ ds : List Char, ds.length ≤ (ds.flatMap (escape q)).length := by
      intro ds
      induction ds with
      | nil => simp
      | cons d ds ih =>
        have := hpos d
        simp only [List.flatMap_cons, List.length_append, List.length_cons]
        omega
    intro hmem
    obtain ⟨xs, ys, rfl⟩ := List.append_of_mem hmem
    have hlength := congrArg List.length hescape
    have hxs := hle xs
    have hys := hle ys
    have htwo : (escape q q).length = 2 := by simp [escape]
    simp only [List.flatMap_append, List.flatMap_cons, List.length_append,
      List.length_cons] at hlength
    omega

-- =============================================================== texts

/-- Integers and texts print as they do in operands. -/
structure Prints (print : Value → String) : Prop where
  int (n : Int) : print (.int n) = toString n
  text (s : String) : print (.text s) = s

theorem Store.prints (store : Store) :
    Prints fun v => (store.datum v).print where
  int _ := rfl
  text _ := rfl

/-- A constant root has no hints. -/
theorem Path.eq_of_erase_root {p : Path} {v : Value}
    (h : p.erase = .root (.const v)) : p = .root (.const v) := by
  cases p with
  | step => cases h
  | root name =>
    cases name with
    | const =>
      cases h
      rfl
    | _ => cases h

theorem Path.Named.erase {p : Path} (h : p.Named) : p.erase.Named :=
  fun word hp => h word (Path.eq_of_erase_root hp)

theorem Expr.legible_nil : (Expr.const .nil).Legible "nil".toList :=
  legible_word ⟨'n', ['i', 'l'], [], rfl, by decide, by decide, by decide,
    Or.inl rfl⟩ rfl rfl

theorem Expr.legible_bool (b : Bool) (print : Value → String) :
    (Expr.const (.bool b)).Legible
      ((Value.bool b).operand print).toList := by
  cases b with
  | false =>
    show (Expr.const (.bool false)).Legible "false".toList
    exact legible_word ⟨'f', ['a', 'l', 's', 'e'], [], rfl, by decide,
      by decide, by decide, Or.inl rfl⟩ rfl rfl
  | true =>
    show (Expr.const (.bool true)).Legible "true".toList
    exact legible_word ⟨'t', ['r', 'u', 'e'], [], rfl, by decide,
      by decide, by decide, Or.inl rfl⟩ rfl rfl

theorem Expr.legible_probe (p : Probe) :
    (Expr.const (.probe p)).Legible p.word.toList := by
  cases p with
  | empty =>
    exact legible_word ⟨'e', ['m', 'p', 't', 'y'], [], rfl, by decide,
      by decide, by decide, Or.inl rfl⟩ rfl rfl
  | blank =>
    exact legible_word ⟨'b', ['l', 'a', 'n', 'k'], [], rfl, by decide,
      by decide, by decide, Or.inl rfl⟩ rfl rfl

section

variable {print : Value → String}

/-- A key that is no text stands in brackets as it reads by itself. -/
theorem Path.toList_text_step {key : Expr}
    (hkey : ∀ s, key ≠ .const (.text s)) (p : Path)
    (command : Option Command) :
    ((Path.step p key command).text print).toList =
      (p.text print).toList ++ ('[' :: (key.text print).toList ++ [']']) := by
  rw [Path.text]
  · simp
  · exact fun s hs => hkey s hs

mutual

/-- The text of a plain path that can be written is legible. -/
theorem Path.Plain.legible (hprint : Prints print) :
    (p : Path) → p.Plain → p.isWritable Value.isWritable = true →
    ∃ name more,
      (p.text print).toList = name ++ more ∧ p.erase.Legible name more
  | .root (.const (.text name)), h, _ => by
    refine ⟨name.toList, [], ?_, ?_⟩
    · show (print (.text name)).toList = _
      rw [hprint.text, List.append_nil]
    · have hroot := Path.legible_root (show IsName name.toList from h)
      rwa [String.ofList_toList] at hroot
  | .step p key command, h, hw => by
    obtain ⟨hpath, hw⟩ := Bool.and_eq_true_iff.1 hw
    obtain ⟨name, more, htext, hlegible⟩ :=
      Path.Plain.legible hprint p h.1 hpath
    obtain ⟨cs, hkey, hlegible'⟩ :=
      Expr.PlainKey.legible hprint key p command h.2 hw
    refine ⟨name, more ++ '[' :: cs ++ [']'], ?_, hlegible.step hlegible'⟩
    rw [hkey, htext]
    simp

/-- What the text of a path shows of a plain key that can be written is
legible. -/
theorem Expr.PlainKey.legible (hprint : Prints print) :
    (key : Expr) → (p : Path) → (command : Option Command) →
    key.PlainKey → key.isWritable Value.isWritable = true → ∃ cs,
      ((Path.step p key command).text print).toList =
        (p.text print).toList ++ ('[' :: cs ++ [']']) ∧
      key.erase.Legible cs
  | .const (.text s), p, command, h, _ => by
    refine ⟨'\'' :: s.toList ++ ['\''], ?_,
      Expr.legible_text (Or.inl rfl) h⟩
    rw [Path.text]
    simp
  | .const (.int n), p, command, _, hw => by
    refine ⟨(toString n).toList, ?_, Expr.legible_int hw⟩
    rw [Path.toList_text_step (by simp), ← hprint.int]
    rfl
  | .const .nil, p, command, _, _ => by
    refine ⟨"nil".toList, ?_, Expr.legible_nil⟩
    rw [Path.toList_text_step (by simp)]
    rfl
  | .const (.bool b), p, command, _, _ => by
    refine ⟨((Value.bool b).operand print).toList, ?_,
      Expr.legible_bool b print⟩
    rw [Path.toList_text_step (by simp)]
    rfl
  | .path q, p, command, h, hw => by
    obtain ⟨name, more, htext, hlegible⟩ :=
      Path.Plain.legible hprint q h.1 hw
    refine ⟨name ++ more, ?_, hlegible.operand h.2.erase⟩
    rw [Path.toList_text_step (by simp), ← htext]
    rfl

end

/-- The text of a plain operand that can be written is legible. -/
theorem Expr.Plain.legible (hprint : Prints print) {e : Expr}
    (h : e.Plain) (hw : e.isWritable Value.isWritable = true) :
    e.erase.Legible (e.wording print).toList := by
  cases e with
  | const v =>
    cases v with
    | nil => exact legible_nil
    | bool b => exact legible_bool b print
    | probe p => exact legible_probe p
    | int n =>
      show (Expr.const (.int n)).Legible (print (.int n)).toList
      rw [hprint.int]
      exact legible_int hw
    | text s =>
      obtain ⟨q, hq⟩ := h
      obtain ⟨hquote, hmem⟩ := quote_not_mem hq
      show (Expr.const (.text s)).Legible
        (String.ofList (quoted s.toList)).toList
      rw [String.toList_ofList, hq]
      exact legible_text hquote hmem
    | _ => cases h
  | path p =>
    obtain ⟨name, more, htext, hlegible⟩ :=
      Path.Plain.legible hprint p h.1 hw
    show (Expr.path p.erase).Legible (p.text print).toList
    rw [htext]
    exact hlegible.operand h.2.erase
  | range => cases h

end

end Stencil
