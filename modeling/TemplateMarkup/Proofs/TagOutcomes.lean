import TemplateMarkup.Markup.Tag

/-! # The outcomes of a tag

A start tag and an end tag can each end in a few ways. The ways are stated here once, each with what
the reader has found on it, so that an invariant of the walk over the tags has one case for each. -/

namespace TemplateMarkup.Cursor

variable {σ : Type}

/-! ## Start tags -/

/-- Reads a start tag from its attributes through its `>`. The answer says whether the `>` was
there. -/
def throughHead (c : Cursor σ) (code : EmbeddedCode σ) (name : List Char) (start : Nat) :
    Bool × Cursor σ :=
  ((c.attributes code).2.eat .slash).2.closeAngle name
    ⟨start + 1, start + 1 + max (Text.width name) 1⟩

/-- The cursor behind the `>` of a start tag, whose tokens are flushed. -/
def behindHead (c : Cursor σ) (code : EmbeddedCode σ) (name : List Char) (start : Nat) : Cursor σ :=
  (c.throughHead code name start).2.flush .literal

/-- A start tag has a `>` and no slash in front of it. -/
structure OpensElement (code : EmbeddedCode σ) (name : List Char) (start : Nat) (c : Cursor σ) :
    Prop where
  closed : (c.throughHead code name start).1 = true
  no_slash : ((c.attributes code).2.eat .slash).1 = false

/-- The ways in which a start tag ends that is read from its attributes on. -/
inductive StartTagEnds (code : EmbeddedCode σ) (tags : OpenTags) (m : Marker) (name : List Char)
    (start : Nat) (c : Cursor σ) : TagWalk σ → Prop
  /-- The next tag begins where the `>` should be. -/
  | cutOff : (c.attributes code).2.at? .openAngle = true →
      StartTagEnds code tags m name start c ⟨(c.attributes code).2.complete m .tagBlock, tags, false⟩
  /-- The `>` is missing, which is reported. -/
  | unclosed : (c.throughHead code name start).1 = false →
      StartTagEnds code tags m name start c
        ⟨(c.throughHead code name start).2.complete m .tagBlock, tags, false⟩
  /-- A slash ends the element. -/
  | selfClosing : (c.throughHead code name start).1 = true →
      ((c.attributes code).2.eat .slash).1 = true →
      StartTagEnds code tags m name start c
        ⟨(c.behindHead code name start).complete m .tagBlock, tags, true⟩
  /-- A void element takes an end tag along. -/
  | void : c.OpensElement code name start →
      (c.behindHead code name start).context.options.isVoidElement name = true →
      StartTagEnds code tags m name start c
        ⟨((c.behindHead code name start).voidEndTag name).complete m .tagBlock, tags, true⟩
  /-- A script whose body is no markup is read through its end tag. -/
  | script : c.OpensElement code name start →
      (c.behindHead code name start).context.options.isVoidElement name = false →
      (c.behindHead code name start).context.options.isScriptTag name = true →
      scriptHoldsMarkup (c.behindHead code name start).context.options (c.attributes code).1 = false →
      StartTagEnds code tags m name start c
        ⟨((c.behindHead code name start).scriptBody code name).complete m .tagBlock, tags, true⟩
  /-- The element stays open. -/
  | opened : c.OpensElement code name start →
      (c.behindHead code name start).context.options.isVoidElement name = false →
      ((c.behindHead code name start).context.options.isScriptTag name = true →
        scriptHoldsMarkup (c.behindHead code name start).context.options (c.attributes code).1 =
          true) →
      StartTagEnds code tags m name start c
        ⟨c.behindHead code name start, ⟨name, start, some m⟩ :: tags, true⟩

theorem restOfStartTag_eq (code : EmbeddedCode σ) (tags : OpenTags) (m : Marker) (name : List Char)
    (start : Nat) (c : Cursor σ) : c.restOfStartTag code tags m name start =
      if (c.attributes code).2.at? .openAngle then
        ⟨(c.attributes code).2.complete m .tagBlock, tags, false⟩
      else if !(c.throughHead code name start).1 then
        ⟨(c.throughHead code name start).2.complete m .tagBlock, tags, false⟩
      else if ((c.attributes code).2.eat .slash).1 then
        ⟨(c.behindHead code name start).complete m .tagBlock, tags, true⟩
      else if (c.behindHead code name start).context.options.isVoidElement name then
        ⟨((c.behindHead code name start).voidEndTag name).complete m .tagBlock, tags, true⟩
      else if (c.behindHead code name start).context.options.isScriptTag name ∧
          !scriptHoldsMarkup (c.behindHead code name start).context.options (c.attributes code).1 then
        ⟨((c.behindHead code name start).scriptBody code name).complete m .tagBlock, tags, true⟩
      else ⟨c.behindHead code name start, ⟨name, start, some m⟩ :: tags, true⟩ := by
  unfold restOfStartTag behindHead throughHead
  dsimp only

theorem restOfStartTag_ends (code : EmbeddedCode σ) (tags : OpenTags) (m : Marker)
    (name : List Char) (start : Nat) (c : Cursor σ) :
    StartTagEnds code tags m name start c (c.restOfStartTag code tags m name start) := by
  rw [restOfStartTag_eq]
  split
  · next hat => exact .cutOff hat
  · split
    · next hclosed => exact .unclosed (by simpa using hclosed)
    · next hclosed =>
      have hclosed : (c.throughHead code name start).1 = true := by simpa using hclosed
      split
      · next hslash => exact .selfClosing hclosed hslash
      · next hslash =>
        have hopens : c.OpensElement code name start := ⟨hclosed, eq_false_of_ne_true hslash⟩
        split
        · next hvoid => exact .void hopens hvoid
        · next hvoid =>
          have hvoid := eq_false_of_ne_true hvoid
          split
          · next hscript => exact .script hopens hvoid hscript.1 (by simpa using hscript.2)
          · next hscript =>
            exact .opened hopens hvoid fun hname => by simpa [hname] using hscript

/-- The ways in which a start tag of the text element ends behind its name, or behind its slash. -/
inductive TextTagEnds (range : Range) (c : Cursor σ) : Cursor σ → Prop
  /-- The `>` comes next, spacing apart. -/
  | closed : c.nth (c.spacing 0) = .closeAngle →
      TextTagEnds range c (c.bumpN (c.spacing 0 + 1))
  /-- Anything else is reported and passed. -/
  | reported : c.nth (c.spacing 0) ≠ .closeAngle →
      TextTagEnds range c (c.report .textTagHasAttributes range).recoverTextTag

/-- What a start tag of the text element comes to. -/
inductive TextStartEnds (tags : OpenTags) (name : List Char) (c : Cursor σ) : TagWalk σ → Prop
  /-- A slash behind the name ends the element. -/
  | selfClosing {d : Cursor σ} :
      c.bump.eatName.nth (c.bump.eatName.spacing 0) = .slash →
      TextTagEnds (.ofText (c.offset + 1) name)
        (c.bump.eatName.bumpN (c.bump.eatName.spacing 0 + 1)) d →
      TextStartEnds tags name c ⟨d.flush .markupTransition, tags, true⟩
  /-- The element stays open. It has no node. -/
  | opened {d : Cursor σ} :
      c.bump.eatName.nth (c.bump.eatName.spacing 0) ≠ .slash →
      TextTagEnds (.ofText (c.offset + 1) name) c.bump.eatName d →
      TextStartEnds tags name c
        ⟨d.flush .markupTransition, ⟨name, c.offset, none⟩ :: tags, true⟩

theorem textStartTag_ends (tags : OpenTags) (name : List Char) (c : Cursor σ) :
    TextStartEnds tags name c (c.textStartTag tags name) := by
  have hend (range : Range) (d : Cursor σ) : TextTagEnds range d
      (if d.nth (d.spacing 0) = .closeAngle then d.bumpN (d.spacing 0 + 1)
        else (d.report .textTagHasAttributes range).recoverTextTag) := by
    split
    · next hclosed => exact .closed hclosed
    · next hopen => exact .reported hopen
  unfold textStartTag
  dsimp only
  split
  · next hslash => exact .selfClosing hslash (hend _ _)
  · next hslash => exact .opened hslash (hend _ _)

/-! ## End tags -/

/-- The ways in which an end tag ends. -/
inductive EndTagEnds (tags : OpenTags) (c : Cursor σ) : TagWalk σ → Prop
  /-- The source ends behind the `</`. -/
  | bare : c.nth 2 = .endOfInput →
      EndTagEnds tags c ⟨(c.start.2.bumpN 2).complete c.start.1 .tagBlock, tags, false⟩
  /-- No tag of the name is open. -/
  | unmatched {rest : OpenTags} {d : Cursor σ} : c.nth 2 ≠ .endOfInput →
      OpenTags.removeMatching (c.tagNameAt 2) c.offset tags c = (none, rest, d) →
      EndTagEnds tags c
        ⟨(d.endTagBlock (c.tagNameAt 2)).2, rest, (d.endTagBlock (c.tagNameAt 2)).1⟩
  /-- An outermost text element ends. -/
  | text {t : OpenTag} {d : Cursor σ} : c.nth 2 ≠ .endOfInput →
      OpenTags.removeMatching (c.tagNameAt 2) c.offset tags c = (some t, [], d) →
      d.context.options.isTextTag (c.tagNameAt 2) = true →
      EndTagEnds tags c ⟨(t.close d).textEndTag (c.tagNameAt 2), [], true⟩
  /-- Any other element ends. -/
  | element {t : OpenTag} {rest : OpenTags} {d : Cursor σ} : c.nth 2 ≠ .endOfInput →
      OpenTags.removeMatching (c.tagNameAt 2) c.offset tags c = (some t, rest, d) →
      (rest = [] → d.context.options.isTextTag (c.tagNameAt 2) = false) →
      EndTagEnds tags c
        ⟨t.close (d.endTagBlock (c.tagNameAt 2)).2, rest, (d.endTagBlock (c.tagNameAt 2)).1⟩

theorem endTag_ends (tags : OpenTags) (c : Cursor σ) : EndTagEnds tags c (c.endTag tags) := by
  unfold endTag
  split
  · next hend => exact .bare hend
  · next hend =>
    dsimp only
    generalize hr : OpenTags.removeMatching (c.tagNameAt 2) c.offset tags c = r
    obtain ⟨t?, rest, d⟩ := r
    cases t? with
    | none => exact .unmatched hend hr
    | some t =>
      dsimp only
      split
      · next htext =>
        obtain rfl : rest = [] := List.isEmpty_iff.mp htext.1
        exact .text hend hr htext.2
      · next htext => exact .element hend hr fun hnil => by simpa [hnil] using htext

end TemplateMarkup.Cursor
