/-
Reading a body, one chunk after the other.

`Body.readFrom` is a fold, and `Template.read` what is done with where it
ended; both are restated here as equations of runs, which is how proofs
by induction on the chunks enter them.

A chunk has many ways to end the reading and seven to let it go on.
`Proceeds` lists the seven: what the chunk was, what the builder had to
look like, which markup was read, and what became of the builder.
-/
import Stencil.Proofs.Sequence
import Stencil.Template

namespace Stencil

-- =========================================================== equations

/-- Reading chunks does what the first one says and, if the builder goes
on, reads the others. -/
theorem readFrom_cons (tags : Registry) (s : String) (rest : List String)
    (b : Builder) (r : Reading) :
    Body.readFrom tags (s :: rest) b r =
      match Body.chunk tags b (.ofString s) r with
      | (.ok (.proceed b'), r') => Body.readFrom tags rest b' r'
      | (.ok (.stop name markup), r') =>
        (⟨b.nodes.reverse, rest, .ok (some (name, markup))⟩, r')
      | (.error failure, r') =>
        (⟨b.nodes.reverse, rest, .error failure⟩, r') := by
  simp only [Body.readFrom, Bind.bind, StateT.bind, ExceptT.run]
  rcases Body.chunk tags b (.ofString s) r with ⟨_ | (_ | _), _⟩ <;> rfl

/-- Reading a template is reading its chunks; what comes after that only
tells the journal. -/
theorem Template.read_run (tags : Registry) (source : String)
    (r : Reading) :
    ∃ journal, (read tags source) r =
      let (outcome, r') :=
        Body.readFrom tags (Chunk.split source) (.ofNodes []) r
      (match outcome.result with
        | .error failure => .error failure
        | .ok (some (name, _)) => .error (.malformed (strayTag name))
        | .ok none => .ok ⟨outcome.nodes, r'.warnings.reverse⟩,
        { r' with journal := journal }) := by
  unfold read
  rw [bind_apply]
  have hlift : (ExceptT.lift
        (Body.readFrom tags (Chunk.split source) (.ofNodes [])) :
        Parsing Body.Outcome) r =
      let (outcome, r') :=
        Body.readFrom tags (Chunk.split source) (.ofNodes []) r
      (.ok outcome, r') := rfl
  rw [hlift]
  rcases Body.readFrom tags (Chunk.split source) (.ofNodes []) r
    with ⟨⟨nodes, rest, result⟩, r'⟩
  rcases result with _ | _ | _ <;> exact ⟨_, rfl⟩

/-- A template is what its chunks are read to, if they are read to the
end. -/
theorem Template.read_apply (tags : Registry) (source : String)
    (r : Reading) :
    ((read tags source) r).1 =
      let (outcome, r') :=
        Body.readFrom tags (Chunk.split source) (.ofNodes []) r
      match outcome.result with
      | .error failure => .error failure
      | .ok (some (name, _)) => .error (.malformed (strayTag name))
      | .ok none => .ok ⟨outcome.nodes, r'.warnings.reverse⟩ := by
  obtain ⟨journal, h⟩ := read_run tags source r
  rw [h]
  rfl

/-- Nothing is recorded after the chunks have been read. -/
theorem Template.read_warnings (tags : Registry) (source : String)
    (r : Reading) :
    ((read tags source) r).2.warnings =
      (Body.readFrom tags (Chunk.split source) (.ofNodes []) r).2.warnings := by
  obtain ⟨journal, h⟩ := read_run tags source r
  rw [h]
  rfl

/-- A template that is read has its nodes from the chunks and its warnings
from what was recorded. -/
theorem Template.read_eq_ok {tags : Registry} {source : String}
    {r : Reading} {template : Template}
    (h : ((read tags source) r).1 = .ok template) :
    ∃ outcome r',
      Body.readFrom tags (Chunk.split source) (.ofNodes []) r =
        (outcome, r') ∧
      outcome.result = .ok none ∧
      template = ⟨outcome.nodes, r'.warnings.reverse⟩ := by
  rcases hp : Body.readFrom tags (Chunk.split source) (.ofNodes []) r
    with ⟨outcome, r'⟩
  rw [read_apply, hp] at h
  dsimp only at h
  split at h
  · cases h
  · cases h
  · next hdone =>
    cases h
    exact ⟨outcome, r', rfl, hdone, rfl⟩

-- ========================================================== going on

/-- The ways a body goes on after a chunk, each with the builder and the
reading it leaves. -/
inductive Proceeds (tags : Registry) (b : Builder) (r : Reading) :
    Chunk → Builder → Reading → Prop
  | text (s : String) : Proceeds tags b r (.text s) (b.push (.text s)) r
  | output {markup : String} {e : Expr} {r' : Reading} :
      Parsing.expr markup r = (.ok e, r') →
      Proceeds tags b r (.output markup) (b.push (.output markup e)) r'
  | leaf {name markup : String} {kind : LeafTag} :
      tags.tag? name = some (.leaf kind) →
      Proceeds tags b r (.tag name markup) (b.push (.leaf kind name markup)) r
  | opening {name markup : String} {negated : Bool} {c : Condition}
      {r' : Reading} :
      tags.tag? name = some (.conditional negated) →
      Parsing.condition name markup r = (.ok c, r') →
      Proceeds tags b r (.tag name markup)
        (b.enter (.opened negated name markup c)) r'
  | closing {markup : String} {f : Frame} {outer : List Frame} :
      tags.tag? (closingTag f.name) = none → b.frames = f :: outer →
      Proceeds tags b r (.tag (closingTag f.name) markup)
        (Builder.push ⟨b.nodes, outer⟩ f.close) r
  | elsif {markup : String} {f : Frame} {outer : List Frame}
      {c : Condition} {r' : Reading} :
      tags.tag? elsifTag = none → b.frames = f :: outer →
      Parsing.condition f.name markup r = (.ok c, r') →
      Proceeds tags b r (.tag elsifTag markup)
        ⟨b.nodes, f.nextBranch c :: outer⟩ r'
  | otherwise {markup : String} {f : Frame} {outer : List Frame} :
      tags.tag? elseTag = none → b.frames = f :: outer →
      Proceeds tags b r (.tag elseTag markup)
        ⟨b.nodes, f.nextBranch .otherwise :: outer⟩ r

section

variable {tags : Registry} {b b' : Builder} {r r' : Reading}

/-- A tag inside a block lets the body go on in three ways. -/
theorem proceeds_of_innerTag {f : Frame} {outer : List Frame}
    {name markup : String} (htag : tags.tag? name = none)
    (hb : b.frames = f :: outer)
    (h : Body.innerTag b f outer name markup r = (.ok b', r')) :
    Proceeds tags b r (.tag name markup) b' r' := by
  unfold Body.innerTag at h
  split at h
  · next hname =>
    obtain rfl := beq_iff_eq.1 hname
    cases h
    exact .closing htag hb
  · split at h
    · next hname =>
      split at h
      · cases h
      · split at h
        · next helse =>
          obtain rfl := beq_iff_eq.1 helse
          cases h
          exact .otherwise htag hb
        · next helse =>
          obtain rfl : name = elsifTag := by
            simpa [helse] using hname
          obtain ⟨c, t, hc, h⟩ := bind_eq_ok.1 h
          cases h
          exact .elsif htag hb hc
    · split at h
      · cases h
      · cases h

/-- A chunk lets the body go on in no other ways. -/
theorem proceeds_of_chunk {c : Chunk}
    (h : Body.chunk tags b c r = (.ok (.proceed b'), r')) :
    Proceeds tags b r c b' r' := by
  cases c with
  | text s =>
    cases h
    exact .text s
  | output markup =>
    obtain ⟨e, t, he, h⟩ := bind_eq_ok.1 h
    cases h
    exact .output he
  | broken s => cases h
  | tag name markup =>
    change Body.tag tags b name markup r = _ at h
    unfold Body.tag at h
    cases htag : tags.tag? name with
    | some kind =>
      rw [htag] at h
      cases kind with
      | conditional negated =>
        obtain ⟨c, t, hc, h⟩ := bind_eq_ok.1 h
        cases h
        exact .opening htag hc
      | leaf tag =>
        cases h
        exact .leaf htag
    | none =>
      rw [htag] at h
      cases hb : b.frames with
      | nil =>
        rw [hb] at h
        cases h
      | cons f outer =>
        rw [hb] at h
        obtain ⟨b'', t, hinner, h⟩ := bind_eq_ok.1 h
        cases h
        exact proceeds_of_innerTag htag hb hinner

end

end Stencil
